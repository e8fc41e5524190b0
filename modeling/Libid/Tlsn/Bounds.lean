import Libid.Tlsn.Faithful
import Libid.Tlsn.Verifier

/-! The bound on commitments: measured once, before the proof is accepted, and relied on by
the record that is signed. -/

namespace Libid

theorem RangeSet.getLast?_stop {s : RangeSet} {stop : Nat}
    (h : s.ranges.getLast?.map Range.stop = some stop) :
    (∃ r ∈ s.ranges, r.stop = stop) ∧ ∀ r ∈ s.ranges, r.stop ≤ stop := by
  obtain ⟨last, hlast, rfl⟩ := Option.map_eq_some_iff.mp h
  have hmem := List.mem_of_getLast? hlast
  refine ⟨⟨last, hmem, rfl⟩, fun r hr => ?_⟩
  obtain ⟨init, hinit⟩ := List.getLast?_eq_some_iff.mp hlast
  have hmax := s.maximal
  rw [hinit] at hmax hr
  rcases List.mem_append.mp hr with hr | hr
  · have hbefore := (List.pairwise_append.mp hmax).2.2 r hr last (by simp)
    have hne := s.nonempty last hmem
    omega
  · exact (List.mem_singleton.mp hr ▸ le_rfl)

namespace Tlsn

open Ceremony Transcript

def TlsTranscript.records (tlsTranscript : TlsTranscript) : Direction → List Record
  | .sent => tlsTranscript.sent
  | .received => tlsTranscript.recv

/-- The bytes a session carried in one direction. -/
def TlsTranscript.dataLen (tlsTranscript : TlsTranscript) (direction : Direction) : Nat :=
  ((tlsTranscript.records direction).map fun record =>
    match record.typ with
    | .applicationData => record.ciphertext.length
    | .other => 0).sum

theorem applicationDataLen_records (tlsTranscript : TlsTranscript) (direction : Direction) :
    applicationDataLen (tlsTranscript.records direction) = tlsTranscript.dataLen direction := by
  rw [TlsTranscript.dataLen, applicationDataLen]
  induction tlsTranscript.records direction with
  | nil => rfl
  | cons record records ih =>
    obtain ⟨typ, ciphertext⟩ := record
    cases typ with
    | applicationData => simp [ih]
    | other => simp [ih]

def ProveRequest.Commits (request : ProveRequest) (direction : Direction) (idx : RangeSet) : Prop :=
  ∃ commit alg, request.transcriptCommit = some commit ∧ (direction, idx, alg) ∈ commit

section Guard

variable {commitments : List (Direction × Option Nat)} {len : Direction → Nat}
  {direction : Direction} {stop : Nat}

theorem commitmentPastTheSession_eq_some {n : Nat}
    (h : commitmentPastTheSession commitments (len .sent) (len .received) =
      some (direction, stop, n)) :
    (direction, some stop) ∈ commitments ∧ n = len direction ∧ len direction < stop := by
  obtain ⟨⟨direction, stop⟩, hmem, h⟩ := List.exists_of_findSome?_eq_some h
  obtain ⟨stop, hstop, heq⟩ := Option.map_eq_some_iff.mp h
  obtain ⟨rfl, hlt⟩ := Option.filter_eq_some_iff.mp hstop
  simp only [Prod.mk.injEq] at heq
  obtain ⟨rfl, rfl, rfl⟩ := heq
  cases direction with
  | sent | received => exact ⟨hmem, rfl, of_decide_eq_true hlt⟩

theorem commitmentPastTheSession_eq_none
    (h : commitmentPastTheSession commitments (len .sent) (len .received) = none)
    (hmem : (direction, some stop) ∈ commitments) : stop ≤ len direction := by
  have hnone := List.findSome?_eq_none_iff.mp h _ hmem
  rw [Option.map_eq_none_iff, Option.filter_eq_none_iff] at hnone
  have hle := hnone stop rfl
  cases direction with
  | sent | received => exact Nat.not_lt.mp fun hlt => hle (decide_eq_true hlt)

end Guard

namespace VerifierSetup

variable {tlsTranscript : TlsTranscript} {request : ProveRequest} {direction : Direction}

theorem overrun_eq {commit : List (Direction × RangeSet × HashAlgId)}
    (hcommit : request.transcriptCommit = some commit) :
    overrun tlsTranscript request = commitmentPastTheSession
      (commit.map fun c => (c.1, c.2.1.ranges.getLast?.map Range.stop))
      (tlsTranscript.dataLen .sent) (tlsTranscript.dataLen .received) := by
  rw [overrun, hcommit, ← applicationDataLen_records, ← applicationDataLen_records]
  rfl

theorem overrun_eq_some {stop len : Nat}
    (h : overrun tlsTranscript request = some (direction, stop, len)) :
    len = tlsTranscript.dataLen direction ∧ len < stop ∧
      ∃ idx, request.Commits direction idx ∧ ∃ r ∈ idx.ranges, r.stop = stop := by
  obtain ⟨commit, hcommit, -⟩ := Option.bind_eq_some_iff.mp h
  rw [overrun_eq hcommit] at h
  obtain ⟨hmem, rfl, hlt⟩ := commitmentPastTheSession_eq_some h
  obtain ⟨⟨direction, idx, alg⟩, hc, heq⟩ := List.mem_map.mp hmem
  obtain ⟨rfl, hstop⟩ := Prod.mk.inj heq
  exact ⟨rfl, hlt, idx, ⟨commit, alg, hcommit, hc⟩, (RangeSet.getLast?_stop hstop).1⟩

theorem stop_le_of_overrun_eq_none (h : overrun tlsTranscript request = none) {idx : RangeSet}
    (hidx : request.Commits direction idx) :
    ∀ r ∈ idx.ranges, r.stop ≤ tlsTranscript.dataLen direction := by
  obtain ⟨commit, alg, hcommit, hmem⟩ := hidx
  rw [overrun_eq hcommit] at h
  intro r hr
  have hne := List.ne_nil_of_mem hr
  have hstop : idx.ranges.getLast?.map Range.stop = some (idx.ranges.getLast hne).stop := by
    rw [List.getLast?_eq_some_getLast hne]
    rfl
  have hle := commitmentPastTheSession_eq_none h (List.mem_map.mpr ⟨_, hmem, by rw [hstop]⟩)
  exact ((RangeSet.getLast?_stop hstop).2 r hr).trans hle

end VerifierSetup

section Run

variable {T : Type}

/-- The session came of a request that passed the guard, and of the proof accepted for it. -/
structure Accepted (events : List (VerifierEvent T)) (session : VerifierSession)
    (request : ProveRequest) (output : VerifierOutput) : Prop where
  ran : .resolve (.run (.ok session.tlsTranscript)) ∈ events
  verified : .resolve (.verify (.ok request)) ∈ events
  accepted : .resolve (.acceptVerify (.ok output)) ∈ events
  within : VerifierSetup.overrun session.tlsTranscript request = none
  transcript : output.transcript = some session.transcript
  commitments : output.transcriptCommitments = session.transcriptCommitments

def Came (events : List (VerifierEvent T)) : VerifierAwait → Prop
  | .verify tlsTranscript => .resolve (.run (.ok tlsTranscript)) ∈ events
  | .rejectRange direction stop len => ∃ tlsTranscript request,
      .resolve (.run (.ok tlsTranscript)) ∈ events ∧ .resolve (.verify (.ok request)) ∈ events ∧
        VerifierSetup.overrun tlsTranscript request = some (direction, stop, len)
  | .acceptVerify tlsTranscript => .resolve (.run (.ok tlsTranscript)) ∈ events ∧
      ∃ request, .resolve (.verify (.ok request)) ∈ events ∧
        VerifierSetup.overrun tlsTranscript request = none
  | .close session => ∃ request output, Accepted events session request output
  | _ => True

def Backed (events : List (VerifierEvent T)) : Phase VerifierAwait VerifierSession T → Prop
  | .racing await | .waiting _ await => Came events await
  | .joining session | .returned (.ok (session, _)) =>
      ∃ request output, Accepted events session request output
  | _ => True

theorem Accepted.mono {events events' : List (VerifierEvent T)} (h : events ⊆ events')
    {session : VerifierSession} {request : ProveRequest} {output : VerifierOutput}
    (ha : Accepted events session request output) : Accepted events' session request output :=
  ⟨h ha.ran, h ha.verified, h ha.accepted, ha.within, ha.transcript, ha.commitments⟩

theorem Came.mono {events events' : List (VerifierEvent T)} (h : events ⊆ events')
    {await : VerifierAwait} (hc : Came events await) : Came events' await := by
  cases await with
  | verify => exact h hc
  | rejectRange =>
    obtain ⟨tlsTranscript, request, hrun, hverify, hoverrun⟩ := hc
    exact ⟨tlsTranscript, request, h hrun, h hverify, hoverrun⟩
  | acceptVerify =>
    obtain ⟨hrun, request, hverify, hoverrun⟩ := hc
    exact ⟨h hrun, request, h hverify, hoverrun⟩
  | close =>
    obtain ⟨request, output, ha⟩ := hc
    exact ⟨request, output, ha.mono h⟩
  | commit | rejectLimits | accept | run | rejectIdentity => trivial

theorem Backed.mono {events events' : List (VerifierEvent T)} (h : events ⊆ events')
    {phase : Phase VerifierAwait VerifierSession T} (hb : Backed events phase) :
    Backed events' phase := by
  cases phase with
  | racing await | waiting driverRes await => exact Came.mono h hb
  | joining session =>
    obtain ⟨request, output, ha⟩ := hb
    exact ⟨request, output, ha.mono h⟩
  | returned result =>
    cases result with
    | error => trivial
    | ok p =>
      obtain ⟨request, output, ha⟩ := hb
      exact ⟨request, output, ha.mono h⟩
  | unstarted | dropped => trivial

theorem came_examine {events : List (VerifierEvent T)} {tlsTranscript : TlsTranscript}
    {request : ProveRequest} (hrun : .resolve (.run (.ok tlsTranscript)) ∈ events)
    (hverify : .resolve (.verify (.ok request)) ∈ events) :
    Came events (VerifierSetup.examine tlsTranscript request) := by
  rw [VerifierSetup.examine]
  split
  case isTrue => trivial
  case isFalse =>
    split
    case h_1 h => exact ⟨tlsTranscript, request, hrun, hverify, h⟩
    case h_2 h => exact ⟨hrun, request, hverify, h⟩

theorem came_unpack {events : List (VerifierEvent T)} {tlsTranscript : TlsTranscript}
    {output : VerifierOutput} {next : VerifierAwait}
    (hc : Came events (.acceptVerify tlsTranscript))
    (haccept : .resolve (.acceptVerify (.ok output)) ∈ events)
    (h : VerifierSetup.unpack tlsTranscript output = .pending next) : Came events next := by
  rw [VerifierSetup.unpack] at h
  split at h
  case h_1 | h_2 => cases h
  case h_3 serverName transcript _ htranscript =>
    cases h
    obtain ⟨hrun, request, hverify, hwithin⟩ := hc
    exact ⟨request, output, hrun, hverify, haccept, hwithin, htranscript, rfl⟩

theorem came_of_resume {display : Direction → String} {events : List (VerifierEvent T)}
    {await next : VerifierAwait} {value : VerifierValue} {w w' : World}
    (hc : Came events await)
    (h : VerifierSetup.resume display await value w = some (w', .pending next)) :
    Came (.resolve value :: events) next := by
  have hc := hc.mono (List.subset_cons_self (.resolve value) events)
  unfold VerifierSetup.resume at h
  split at h
  case h_2 =>
    split at h
    case isTrue | isFalse =>
      cases h
      trivial
  case h_7 =>
    cases h
    trivial
  case h_9 =>
    cases h
    exact List.mem_cons_self
  case h_11 =>
    cases h
    exact came_examine hc List.mem_cons_self
  case h_17 =>
    rw [Option.some.injEq, Prod.mk.injEq] at h
    exact came_unpack hc List.mem_cons_self h.2
  all_goals cases h

theorem accepted_of_resume {display : Direction → String} {events : List (VerifierEvent T)}
    {await : VerifierAwait} {value : VerifierValue} {w w' : World} {session : VerifierSession}
    (hc : Came events await)
    (h : VerifierSetup.resume display await value w = some (w', .ready (.ok session))) :
    ∃ request output, Accepted (.resolve value :: events) session request output := by
  have hc := hc.mono (List.subset_cons_self (.resolve value) events)
  unfold VerifierSetup.resume at h
  split at h
  case h_2 => split at h <;> cases h
  case h_17 =>
    rw [Option.some.injEq, Prod.mk.injEq, VerifierSetup.unpack] at h
    split at h
    case h_1 | h_2 | h_3 => cases h.2
  case h_19 =>
    cases h
    exact hc
  all_goals cases h

theorem Backed.conclude {events : List (VerifierEvent T)} {session : VerifierSession}
    {driverRes : DriverResult T}
    (h : ∃ request output, Accepted events session request output) :
    Backed events (.returned (Setup.conclude session driverRes)) := by
  rcases driverRes with e | e | io
  · trivial
  · trivial
  · exact h

theorem Backed.step {display : Direction → String} {events : List (VerifierEvent T)}
    {s t : VerifierState T} {e : VerifierEvent T} (hb : Backed events s.phase)
    (hstep : (verifier display).step s e = some t) : Backed (e :: events) t.phase := by
  have hmono := hb.mono (List.subset_cons_self e events)
  cases ((verifierSetup display).step_eq_some).mp hstep with
  | @start w k => cases k <;> trivial
  | @race w await value p hp =>
    match p with
    | (w', .pending next) => exact came_of_resume hb hp
    | (w', .ready (.ok session)) => exact accepted_of_resume hb hp
    | (w', .ready (.error e)) => trivial
  | @wait w await value p driverRes hp =>
    match p with
    | (w', .pending next) => exact came_of_resume hb hp
    | (w', .ready (.ok session)) => exact .conclude (accepted_of_resume hb hp)
    | (w', .ready (.error e)) => trivial
  | join => exact .conclude hmono
  | late | finish => exact hmono
  | early | drop => trivial

theorem backed_of_run {display : Direction → String}
    {h : List (VerifierState T × VerifierEvent T)} {t : VerifierState T}
    (hrun : (verifier display).Run h t) :
    ∀ s ∈ Machine.visited h t, Backed (h.map Prod.snd) s.phase := by
  induction hrun with
  | nil =>
    intro s hs
    obtain rfl := List.mem_singleton.mp hs
    trivial
  | @cons h s t e _ hstep ih =>
    rw [Machine.visited_cons, List.forall_mem_cons]
    refine ⟨(ih s List.mem_cons_self).step hstep, fun u hu => ?_⟩
    exact (ih u hu).mono (List.subset_cons_self ..)

structure Within (block : DirectionBlock) (len : Nat) : Prop where
  commitments : ∀ c ∈ block.commitments.val,
    c.start.toNat < c.stop.toNat ∧ c.stop.toNat ≤ len
  revealed : ∀ r ∈ block.revealed.val, r.start.toNat + r.bytes.val.length ≤ len

theorem within_of_fromObserved {keccak256 : Bytes → ByteArrayOf 32} {session : ObservedSession}
    {record : AttestedData} (hin : session.Inside)
    (hcommit : ∀ hash, .hash hash ∈ session.commitments →
      ∀ r ∈ hash.idx.ranges, r.stop ≤ session.transcript.len hash.direction)
    (h : AttestedData.fromObserved keccak256 session = .ok record) (direction : Direction) :
    Within (record.block direction) (record.transcriptLength direction).toNat := by
  obtain ⟨hdirections, -, -⟩ := AttestedData.fromObserved_eq_ok.mp h
  obtain ⟨hlen, hblock⟩ := hdirections direction
  obtain ⟨-, out, hout, hblock⟩ := DirectionBlock.fromObserved_eq_ok.mp hblock
  rw [hlen, hblock]
  constructor
  · intro c hc
    have hmem := (DirectionBlock.sortByStart_perm out).mem_iff.mp (List.mem_of_mem_take hc)
    obtain ⟨hash, hhash, hrecords⟩ := exists_of_mem_records hout hmem
    obtain ⟨hcommitment, rfl⟩ := mem_hashed.mp hhash
    have hspan : c.span ∈ hash.idx.ranges := by
      rw [hrecords.idx]
      exact List.mem_cons_self
    exact ⟨hash.idx.nonempty _ hspan, hcommit hash hcommitment _ hspan⟩
  · intro r hr
    obtain ⟨range, hrange, rfl⟩ := List.mem_map.mp (List.mem_of_mem_take hr)
    have hfit := hin.fits (hlen ▸ (record.transcriptLength direction).toNat_lt) range hrange
    have hspan := DirectionBlock.revealedOf_span hfit
      (session.transcript.inside direction range hrange)
    exact (congrArg Range.stop hspan).trans_le (hin direction range hrange)

/-- What the library promises of a session it ran, the request that came with it and the
proof it accepted. -/
structure Library (tlsTranscript : TlsTranscript) (request : ProveRequest)
    (output : VerifierOutput) : Prop where
  len : ∀ transcript, output.transcript = some transcript →
    ∀ direction, transcript.len direction = tlsTranscript.dataLen direction
  authed : ∀ transcript, output.transcript = some transcript →
    ∀ direction, ∀ r ∈ (transcript.authed direction).ranges, r.stop ≤ transcript.len direction
  requested : ∀ hash, .hash hash ∈ output.transcriptCommitments →
    request.Commits hash.direction hash.idx

def KeepsTo (events : List (VerifierEvent T)) : Prop :=
  ∀ tlsTranscript request output, .resolve (.run (.ok tlsTranscript)) ∈ events →
    .resolve (.verify (.ok request)) ∈ events → .resolve (.acceptVerify (.ok output)) ∈ events →
    Library tlsTranscript request output

/-- What the notary takes from a session to the record. -/
def VerifierSession.observed (session : VerifierSession) (authority : Bytes)
    (createdAt : UInt64) : ObservedSession :=
  ⟨session.transcript, authority, session.transcriptCommitments, createdAt⟩

theorem within_of_accepted {events : List (VerifierEvent T)} {session : VerifierSession}
    {request : ProveRequest} {output : VerifierOutput} (hlib : KeepsTo events)
    (ha : Accepted events session request output) {keccak256 : Bytes → ByteArrayOf 32}
    {authority : Bytes} {createdAt : UInt64} {record : AttestedData}
    (h : AttestedData.fromObserved keccak256 (session.observed authority createdAt) = .ok record)
    (direction : Direction) :
    Within (record.block direction) (record.transcriptLength direction).toNat := by
  have hlib := hlib _ _ _ ha.ran ha.verified ha.accepted
  refine within_of_fromObserved (hlib.authed _ ha.transcript) ?_ h direction
  intro hash hhash r hr
  have hidx := hlib.requested hash (ha.commitments ▸ hhash)
  exact (VerifierSetup.stop_le_of_overrun_eq_none ha.within hidx r hr).trans
    (hlib.len _ ha.transcript hash.direction).ge

/-- No record of a verified session reaches past the session, and no session is refused for
its ranges unless one of them does. -/
theorem verifier_signs_within (display : Direction → String)
    {h : List (VerifierState T × VerifierEvent T)} {t : VerifierState T}
    (hrun : (verifier display).Run h t) :
    (KeepsTo (h.map Prod.snd) → ∀ session io, t.phase = .returned (.ok (session, io)) →
      ∀ keccak256 authority createdAt record,
        AttestedData.fromObserved keccak256 (session.observed authority createdAt) = .ok record →
        ∀ direction, Within (record.block direction) (record.transcriptLength direction).toNat) ∧
    ∀ s ∈ Machine.visited h t, ∀ direction stop len,
      s.phase.suspended = some (.rejectRange direction stop len) →
      ∃ tlsTranscript request idx, .resolve (.run (.ok tlsTranscript)) ∈ h.map Prod.snd ∧
        .resolve (.verify (.ok request)) ∈ h.map Prod.snd ∧ request.Commits direction idx ∧
        (∃ r ∈ idx.ranges, r.stop = stop) ∧ len = tlsTranscript.dataLen direction ∧ len < stop := by
  have hbacked := backed_of_run hrun
  constructor
  · intro hlib session io hphase keccak256 authority createdAt record hrecord
    have hb := hbacked t List.mem_cons_self
    rw [hphase] at hb
    obtain ⟨request, output, ha⟩ := hb
    exact within_of_accepted hlib ha hrecord
  · intro s hs direction stop len hawait
    have hb := hbacked s hs
    have hcame : Came (h.map Prod.snd) (.rejectRange direction stop len) := by
      cases hphase : s.phase with
      | racing await | waiting driverRes await =>
        rw [hphase] at hawait hb
        exact Option.some.inj hawait ▸ hb
      | unstarted | joining | returned | dropped =>
        rw [hphase] at hawait
        exact nomatch hawait
    obtain ⟨tlsTranscript, request, hran, hverified, hoverrun⟩ := hcame
    obtain ⟨hlen, hlt, idx, hidx, hr⟩ := VerifierSetup.overrun_eq_some hoverrun
    exact ⟨tlsTranscript, request, idx, hran, hverified, hidx, hr, hlen, hlt⟩

theorem verifier_signs_within_run :
    ∃ h, ∃ t : VerifierState Unit, ∃ session record,
      (verifier fun _ => "").Run h t ∧ t.phase = .returned (.ok (session, ())) ∧
      AttestedData.fromObserved (fun _ => ⟨List.replicate 32 0, by decide⟩)
        (session.observed (ascii "a.b") 6) = .ok record ∧
      (record.sent.commitments.val.map RangeCommitment.span,
        record.received.commitments.val.map RangeCommitment.span) = ([⟨1, 3⟩], [⟨0, 2⟩]) ∧
      ∀ direction, Within (record.block direction) (record.transcriptLength direction).toNat := by
  let tls : TlsTranscript := ⟨[⟨.applicationData, [1, 2]⟩, ⟨.other, [9, 9]⟩,
    ⟨.applicationData, [3]⟩], [⟨.applicationData, [4, 5]⟩]⟩
  let request : ProveRequest := ⟨true, some [(.received, idxOf ⟨0, 2⟩, .sha256),
    (.sent, idxOf ⟨1, 3⟩, .sha256)]⟩
  let output : VerifierOutput := ⟨some (.dns "a.b"), some (.unopened [1, 2, 3] [4, 5]),
    [.hash ⟨.received, idxOf ⟨0, 2⟩, .sha256, List.replicate 32 7⟩,
      .hash ⟨.sent, idxOf ⟨1, 3⟩, .sha256, List.replicate 32 8⟩]⟩
  let session : VerifierSession :=
    ⟨.dns "a.b", .unopened [1, 2, 3] [4, 5], tls, output.transcriptCommitments⟩
  let events : List (VerifierEvent Unit) := [.start .ready,
    .resolve (.commit (.ok (.mpc ⟨maxSentData, maxRecvData⟩))), .resolve (.accept (.ok ())),
    .resolve (.run (.ok tls)), .resolve (.verify (.ok request)),
    .resolve (.acceptVerify (.ok output)), .resolve (.close (.ok ())), .finish .driver,
    .driver (.ok (.ok ()))]
  obtain ⟨t, hes, hphase⟩ : ∃ t,
      events.foldlM (verifier fun _ => "").step (verifier fun _ => "").start = some t ∧
        t.phase = .returned (.ok (session, ())) := ⟨_, rfl, rfl⟩
  obtain ⟨h, hrun, hevents⟩ := Machine.Run.foldlM events .nil hes
  have hlib : KeepsTo (h.map Prod.snd) := by
    intro tls' request' output' hran hverified haccepted
    rw [hevents] at hran hverified haccepted
    obtain rfl : tls' = tls := by simpa [events] using hran
    obtain rfl : request' = request := by simpa [events] using hverified
    obtain rfl : output' = output := by simpa [events] using haccepted
    constructor
    · rintro _ ⟨⟩ (_ | _) <;> rfl
    · rintro _ ⟨⟩ (_ | _) <;> exact nofun
    · intro hash hmem
      rcases List.mem_cons.mp hmem with hash' | hmem
      · cases hash'
        exact ⟨_, .sha256, rfl, List.mem_cons_self⟩
      · cases List.mem_singleton.mp hmem
        exact ⟨_, .sha256, rfl, List.mem_cons_of_mem _ List.mem_cons_self⟩
  exact ⟨h, t, session, _, hrun, hphase, rfl, rfl,
    (verifier_signs_within _ hrun).1 hlib session () hphase _ _ _ _ rfl⟩

end Run

end Tlsn

end Libid
