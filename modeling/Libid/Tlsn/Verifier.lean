import Libid.Tlsn.Attest
import Libid.Tlsn.Session

/-! The verifier's session, and when a dead connection leaves it waiting for ever. -/

namespace Libid.Tlsn

/-! ### What the notarization library hands over -/

inductive ContentType
  | applicationData
  | other
  deriving DecidableEq

structure Record where
  typ : ContentType
  ciphertext : Bytes

structure TlsTranscript where
  sent : List Record
  recv : List Record

structure MpcTlsConfig where
  maxSentData : Nat
  maxRecvData : Nat

inductive VerifierCommitStart
  | mpc (config : MpcTlsConfig)
  | other

/-- `transcriptCommit` is what `iter_hash` goes through. -/
structure ProveRequest where
  serverIdentity : Bool
  transcriptCommit : Option (List (Direction × RangeSet × HashAlgId))

inductive ServerName
  | dns (name : String)

structure VerifierOutput where
  serverName : Option ServerName
  transcript : Option PartialTranscript
  transcriptCommitments : List TranscriptCommitment

/-! ### `session.rs` -/

def applicationDataLen (records : List Record) : Nat :=
  ((records.filter (·.typ = .applicationData)).map (·.ciphertext.length)).sum

def commitmentPastTheSession (commitments : List (Direction × Option Nat)) (sentLen recvLen : Nat) :
    Option (Direction × Nat × Nat) :=
  commitments.findSome? fun (direction, stop) =>
    let len := match direction with
      | .sent => sentLen
      | .received => recvLen
    (stop.filter (· > len)).map fun stop => (direction, stop, len)

/-- What setup returns: the function's result without the socket. -/
structure VerifierSession where
  serverName : ServerName
  transcript : PartialTranscript
  tlsTranscript : TlsTranscript
  transcriptCommitments : List TranscriptCommitment

/-- How far setup comes before its first await. -/
inductive VerifierStart
  | config (error : String)
  | newVerifier (error : String)
  | ready

inductive VerifierAwait
  | commit
  | rejectLimits
  | accept
  | run
  | verify (tlsTranscript : TlsTranscript)
  | rejectIdentity
  | rejectRange (direction : Direction) (stop len : Nat)
  | acceptVerify (tlsTranscript : TlsTranscript)
  | close (session : VerifierSession)

inductive VerifierValue
  | commit (result : Except String VerifierCommitStart)
  | reject (result : Except String Unit)
  | accept (result : Except String Unit)
  | run (result : Except String TlsTranscript)
  | verify (result : Except String ProveRequest)
  | acceptVerify (result : Except String VerifierOutput)
  | close (result : Except String Unit)

namespace VerifierSetup

def fail (detail : String) : Poll VerifierAwait VerifierSession :=
  .ready (.error (.mpcTlsFailed detail))

def enter : VerifierStart → Except SessionError VerifierAwait
  | .config e => .error (.mpcTlsFailed s!"verifier config: {e}")
  | .newVerifier e => .error (.mpcTlsFailed s!"new verifier: {e}")
  | .ready => .ok .commit

def overrun (tlsTranscript : TlsTranscript) (request : ProveRequest) :
    Option (Direction × Nat × Nat) :=
  request.transcriptCommit.bind fun commit =>
    commitmentPastTheSession
      (commit.map fun (direction, idx, _) => (direction, idx.ranges.getLast?.map Range.stop))
      (applicationDataLen tlsTranscript.sent) (applicationDataLen tlsTranscript.recv)

/-- `verify` has the request: it is turned down, or accepted. -/
def examine (tlsTranscript : TlsTranscript) (request : ProveRequest) : VerifierAwait :=
  if !request.serverIdentity then .rejectIdentity
  else
    match overrun tlsTranscript request with
    | some (direction, stop, len) => .rejectRange direction stop len
    | none => .acceptVerify tlsTranscript

/-- `accept` has the output: both of its options must be there. -/
def unpack (tlsTranscript : TlsTranscript) (output : VerifierOutput) :
    Poll VerifierAwait VerifierSession :=
  match output.serverName, output.transcript with
  | none, _ => fail "server name not revealed"
  | some _, none => fail "transcript not revealed"
  | some serverName, some transcript =>
    .pending (.close ⟨serverName, transcript, tlsTranscript, output.transcriptCommitments⟩)

/-- `display` is the library's rendering of a direction. -/
def resume (display : Direction → String) :
    VerifierAwait → VerifierValue → World → Option (World × Poll VerifierAwait VerifierSession)
  | .commit, .commit (.error e), w => some (w, fail s!"verifier commit: {e}")
  | .commit, .commit (.ok (.mpc config)), w =>
    if config.maxSentData > maxSentData ∨ config.maxRecvData > maxRecvData then
      some (w, .pending .rejectLimits)
    else some (w, .pending .accept)
  | .commit, .commit (.ok .other), w => some (w, fail "expected MPC-TLS protocol")
  | .rejectLimits, .reject (.error e), w => some (w, fail s!"reject: {e}")
  | .rejectLimits, .reject (.ok ()), w => some (w, fail "data limits exceeded")
  | .accept, .accept (.error e), w => some (w, fail s!"accept: {e}")
  | .accept, .accept (.ok ()), w => some (w, .pending .run)
  | .run, .run (.error e), w => some (w, fail s!"run: {e}")
  | .run, .run (.ok tlsTranscript), w =>
    some ({ w with established := true }, .pending (.verify tlsTranscript))
  | .verify _, .verify (.error e), w => some (w, fail s!"verify: {e}")
  | .verify tlsTranscript, .verify (.ok request), w =>
    some (w, .pending (examine tlsTranscript request))
  | .rejectIdentity, .reject (.error e), w => some (w, fail s!"reject: {e}")
  | .rejectIdentity, .reject (.ok ()), w => some (w, fail "no server identity")
  | .rejectRange .., .reject (.error e), w => some (w, fail s!"reject: {e}")
  | .rejectRange direction stop len, .reject (.ok ()), w =>
    some (w, fail (s!"a {display direction} commitment ends at {stop}, past the {len} bytes " ++
      "this session carried"))
  | .acceptVerify _, .acceptVerify (.error e), w => some (w, fail s!"accept verify: {e}")
  | .acceptVerify tlsTranscript, .acceptVerify (.ok output), w =>
    some (w, unpack tlsTranscript output)
  | .close _, .close (.error e), w => some (w, fail s!"verifier close: {e}")
  | .close session, .close (.ok ()), w => some (w, .ready (.ok session))
  | _, _, _ => none

end VerifierSetup

def verifierSetup (display : Direction → String) :
    Setup VerifierStart VerifierAwait VerifierValue VerifierSession where
  enter k := .ok (VerifierSetup.enter k)
  resume := VerifierSetup.resume display
  locals _ := []

def verifier {T : Type} (display : Direction → String) :
    Machine (Session VerifierAwait VerifierSession T) (Event VerifierStart VerifierValue T) :=
  (verifierSetup display).machine

namespace VerifierAwait

def needsPeer : VerifierAwait → Bool
  | .commit | .accept | .run | .verify _ | .acceptVerify _ => true
  | _ => false

def afterRun : VerifierAwait → Bool
  | .commit | .rejectLimits | .accept | .run => false
  | _ => true

end VerifierAwait

namespace VerifierSetup

variable {display : Direction → String} {await next : VerifierAwait} {value : VerifierValue}
  {w w' : World} {poll : Poll VerifierAwait VerifierSession}

theorem afterRun_examine (tlsTranscript : TlsTranscript) (request : ProveRequest) :
    (examine tlsTranscript request).afterRun = true := by
  rw [examine]
  split
  case isTrue => rfl
  case isFalse => split <;> rfl

theorem afterRun_unpack {tlsTranscript : TlsTranscript} {output : VerifierOutput}
    (h : unpack tlsTranscript output = .pending next) : next.afterRun = true := by
  rw [unpack] at h
  split at h
  case h_1 | h_2 => exact nomatch h
  case h_3 => 
    cases h
    rfl

theorem resume_tasks (h : resume display await value w = some (w', poll)) :
    w'.tasks = w.tasks := by
  unfold resume at h
  split at h <;> grind

theorem resume_pending (h : resume display await value w = some (w', .pending next)) :
    await.needsPeer = true ∧
      (w.established = await.afterRun → w'.established = next.afterRun) := by
  unfold resume at h
  split at h
  case h_2 =>
    split at h
    case isTrue | isFalse =>
      cases h
      exact ⟨rfl, id⟩
  case h_7 =>
    cases h
    exact ⟨rfl, id⟩
  case h_9 =>
    cases h
    exact ⟨rfl, fun _ => rfl⟩
  case h_11 =>
    cases h
    exact ⟨rfl, fun hest => hest.trans (afterRun_examine ..).symm⟩
  case h_17 tlsTranscript output w =>
    rw [Option.some.injEq, Prod.mk.injEq] at h
    obtain ⟨rfl, hnext⟩ := h
    exact ⟨rfl, fun hest => hest.trans (afterRun_unpack hnext).symm⟩
  all_goals exact nomatch h

end VerifierSetup

/-! ### A dead connection -/

abbrev VerifierState (T : Type) := Session VerifierAwait VerifierSession T

abbrev VerifierEvent (T : Type) := Event VerifierStart VerifierValue T

namespace VerifierState

variable {T : Type}

/-- Setup is suspended on a step that the peer has to answer, and no one will. -/
def Unanswered (s : VerifierState T) : Prop :=
  s.world.tasks .driver = .finished ∧
    ∃ await, s.phase.suspended = some await ∧ await.needsPeer = true

/-- Once the driver has finished, a step that needs the peer does not resolve. -/
def PeerGone (s : VerifierState T) (e : VerifierEvent T) : Prop :=
  s.Unanswered → ∀ value, e ≠ .resolve value

def Stuck (s : VerifierState T) : Prop :=
  s.Unanswered ∧ ∃ driverRes await, s.phase = .waiting driverRes await

def Fails (display : Direction → String) (s : VerifierState T) : Prop :=
  ∀ driverRes, ∃ t error, (verifier display).step s (.driver driverRes) = some t ∧
    t.phase = .returned (.error error)

def BetweenRunAndAccept (s : VerifierState T) : Prop :=
  ∃ tlsTranscript, s.phase.suspended = some (.verify tlsTranscript) ∨
    s.phase.suspended = some (.acceptVerify tlsTranscript)

theorem betweenRunAndAccept_iff {s : VerifierState T} : s.BetweenRunAndAccept ↔
    ∃ await, s.phase.suspended = some await ∧ await.needsPeer = true ∧ await.afterRun = true := by
  constructor
  · rintro ⟨tlsTranscript, h | h⟩
    · exact ⟨_, h, rfl, rfl⟩
    · exact ⟨_, h, rfl, rfl⟩
  · rintro ⟨await, h, hpeer, hafter⟩
    cases await with
    | verify tlsTranscript => exact ⟨tlsTranscript, .inl h⟩
    | acceptVerify tlsTranscript => exact ⟨tlsTranscript, .inr h⟩
    | commit | accept | run => simp [VerifierAwait.afterRun] at hafter
    | rejectLimits | rejectIdentity | rejectRange | close => simp [VerifierAwait.needsPeer] at hpeer

structure Tracked (s : VerifierState T) : Prop where
  unstarted : s.phase = .unstarted → s.world.established = false
  suspended : ∀ await, s.phase.suspended = some await → s.world.established = await.afterRun

theorem Tracked.of_not_suspended {s : VerifierState T} (h : s.phase ≠ .unstarted)
    (hnone : s.phase.suspended = none) : s.Tracked :=
  ⟨fun h' => absurd h' h, fun _ h' => nomatch hnone.symm.trans h'⟩

theorem Tracked.resumed {display : Direction → String} {s t : VerifierState T}
    {await next : VerifierAwait} {value : VerifierValue} (hs : s.Tracked)
    (hawait : s.phase.suspended = some await)
    (hp : VerifierSetup.resume display await value s.world = some (t.world, .pending next))
    (hstarted : t.phase ≠ .unstarted) (hnext : t.phase.suspended = some next) : t.Tracked := by
  refine ⟨fun h => absurd h hstarted, fun await' hawait' => ?_⟩
  obtain rfl := Option.some.inj (hnext.symm.trans hawait')
  exact (VerifierSetup.resume_pending hp).2 (hs.suspended await hawait)

theorem Tracked.step {display : Direction → String} {s t : VerifierState T}
    {e : VerifierEvent T} (hs : s.Tracked) (hstep : (verifier display).step s e = some t) :
    t.Tracked := by
  cases ((verifierSetup display).step_eq_some).mp hstep with
  | @start w k =>
    cases k with
    | config | newVerifier => exact .of_not_suspended nofun rfl
    | ready => exact ⟨nofun, fun _ hawait => Option.some.inj hawait ▸ hs.unstarted rfl⟩
  | @race w await value p hp =>
    match p with
    | (w', .pending next) => exact hs.resumed rfl hp nofun rfl
    | (w', .ready (.ok output)) | (w', .ready (.error e)) => exact .of_not_suspended nofun rfl
  | @wait w await value p driverRes hp =>
    match p with
    | (w', .pending next) => exact hs.resumed rfl hp nofun rfl
    | (w', .ready (.ok output)) | (w', .ready (.error e)) => exact .of_not_suspended nofun rfl
  | late => exact ⟨nofun, hs.suspended⟩
  | finish => exact ⟨hs.unstarted, hs.suspended⟩
  | early | join | drop => exact .of_not_suspended nofun rfl

structure Alert (s : VerifierState T) : Prop where
  unanswered : s.world.tasks .driver = .finished → ¬ s.BetweenRunAndAccept
  waiting : ∀ driverRes await, s.phase = .waiting driverRes await →
    s.world.tasks .driver = .finished ∧ s.world.established = true

theorem Alert.of_not_suspended {s : VerifierState T} (hnone : s.phase.suspended = none) :
    s.Alert := by
  constructor
  · intro _ hgap
    obtain ⟨await, hawait, -⟩ := betweenRunAndAccept_iff.mp hgap
    exact nomatch hnone.symm.trans hawait
  · intro driverRes await hphase
    rw [hphase] at hnone
    exact nomatch hnone

theorem Alert.step {display : Direction → String} {s t : VerifierState T} {e : VerifierEvent T}
    (hs : s.Alert) (hgone : s.PeerGone e) (hgap : ¬ (e = .finish .driver ∧ s.BetweenRunAndAccept))
    (hstep : (verifier display).step s e = some t) : t.Alert := by
  cases ((verifierSetup display).step_eq_some).mp hstep with
  | @start w k =>
    cases k with
    | config | newVerifier => exact .of_not_suspended rfl
    | ready =>
      refine ⟨fun _ hgap => ?_, nofun⟩
      obtain ⟨_, h | h⟩ := hgap <;> exact nomatch h
  | @race w await value p hp =>
    match p with
    | (w', .pending next) =>
      have hpeer := (VerifierSetup.resume_pending hp).1
      have htasks : w'.tasks = w.tasks := VerifierSetup.resume_tasks hp
      refine ⟨fun hdone => ?_, nofun⟩
      have hdone : w.tasks .driver = .finished := htasks ▸ hdone
      exact absurd rfl (hgone ⟨hdone, await, rfl, hpeer⟩ value)
    | (w', .ready (.ok output)) | (w', .ready (.error e)) => exact .of_not_suspended rfl
  | @wait w await value p driverRes hp =>
    match p with
    | (w', .pending next) =>
      have hpeer := (VerifierSetup.resume_pending hp).1
      have hdone := (hs.waiting _ _ rfl).1
      exact absurd rfl (hgone ⟨hdone, await, rfl, hpeer⟩ value)
    | (w', .ready (.ok output)) | (w', .ready (.error e)) => exact .of_not_suspended rfl
  | late hdone hest => exact ⟨hs.unanswered, fun _ _ _ => ⟨hdone, hest⟩⟩
  | @finish w phase task hlive hrun =>
    constructor
    · intro hdone hbetween
      obtain rfl | hdone := (Tasks.finish_eq_finished ..).mp hdone
      · exact hgap ⟨rfl, hbetween⟩
      · exact hs.unanswered hdone hbetween
    · intro driverRes await hphase
      obtain ⟨hdone, hest⟩ := hs.waiting driverRes await hphase
      exact ⟨(Tasks.finish_eq_finished ..).mpr (.inr hdone), hest⟩
  | early | join | drop => exact .of_not_suspended rfl

theorem tracked_start (display : Direction → String) :
    Tracked (verifier (T := T) display).start :=
  ⟨fun _ => rfl, fun _ hawait => nomatch (hawait : none = some _)⟩

theorem alert_start (display : Direction → String) :
    Alert (verifier (T := T) display).start :=
  .of_not_suspended rfl

theorem fails_iff (display : Direction → String) {s : VerifierState T} (hs : s.Unanswered) :
    s.Fails display ↔ s.world.established = false ∧ ∃ await, s.phase = .racing await := by
  obtain ⟨hdone, await, hawait, -⟩ := hs
  obtain ⟨phase, w⟩ := s
  constructor
  · intro hfails
    obtain ⟨t, error, hstep, ht⟩ := hfails (.error "")
    cases ((verifierSetup display).step_eq_some).mp hstep with
    | early _ hest => exact ⟨hest, _, rfl⟩
    | late => exact nomatch ht
    | join => exact nomatch hawait
  · rintro ⟨hest, await, rfl⟩ driverRes
    exact ⟨_, _, ((verifierSetup display).step_eq_some).mpr (.early hdone hest), rfl⟩

theorem Alert.raced {s : VerifierState T} (hs : s.Alert) (htracked : s.Tracked)
    (hun : s.Unanswered) : s.world.established = false ∧ ∃ await, s.phase = .racing await := by
  obtain ⟨hdone, await, hawait, hpeer⟩ := hun
  have hest : s.world.established = false := by
    rw [htracked.suspended await hawait]
    by_contra hafter
    rw [Bool.not_eq_false] at hafter
    exact hs.unanswered hdone (betweenRunAndAccept_iff.mpr ⟨await, hawait, hpeer, hafter⟩)
  refine ⟨hest, ?_⟩
  cases hphase : s.phase with
  | racing await => exact ⟨await, rfl⟩
  | waiting driverRes await => simp [(hs.waiting driverRes await hphase).2] at hest
  | unstarted | joining | returned | dropped => simp [hphase, Phase.suspended] at hawait

/-- A dead connection never keeps the verifier waiting exactly when the driver never
finishes between the run and the acceptance of the proof. -/
theorem verifier_never_stuck_iff (display : Direction → String)
    {h : List (VerifierState T × VerifierEvent T)} {t : VerifierState T}
    (hrun : (verifier display).Run h t) (hgone : ∀ p ∈ h, p.1.PeerGone p.2) :
    (∀ s ∈ Machine.visited h t, ¬ s.Stuck ∧ (s.Unanswered → s.Fails display)) ↔
      ∀ p ∈ h, ¬ (p.2 = .finish .driver ∧ p.1.BetweenRunAndAccept) := by
  have htracked : ∀ s ∈ Machine.visited h t, s.Tracked :=
    hrun.invariant (tracked_start display) (fun _ _ _ hs (_ : True) hstep => hs.step hstep)
      fun _ _ => trivial
  constructor
  · rintro hall ⟨s, e⟩ hmem ⟨rfl, hbetween⟩
    obtain ⟨u, hu, hstep⟩ := hrun.exists_step hmem
    cases ((verifierSetup display).step_eq_some).mp hstep with
    | @finish w phase =>
    obtain ⟨await, hawait, hpeer, hafter⟩ := betweenRunAndAccept_iff.mp hbetween
    have hun : Unanswered (T := T) ⟨phase, { w with tasks := w.tasks.finish .driver }⟩ :=
      ⟨(Tasks.finish_eq_finished w.tasks .driver .driver).mpr (.inl rfl), await, hawait, hpeer⟩
    have hest := ((fails_iff display hun).mp ((hall _ hu).2 hun)).1
    rw [(htracked _ hu).suspended await hawait, hafter] at hest
    exact nomatch hest
  · intro hgap s hmem
    have halert : s.Alert := hrun.invariant (alert_start display)
      (fun (s : VerifierState T) (e : VerifierEvent T) _ hs
        (hmay : s.PeerGone e ∧ ¬ (e = .finish .driver ∧ s.BetweenRunAndAccept)) hstep =>
          hs.step hmay.1 hmay.2 hstep)
      (fun p hp => ⟨hgone p hp, hgap p hp⟩) s hmem
    have hraced := halert.raced (htracked s hmem)
    refine ⟨?_, fun hun => (fails_iff display hun).mpr (hraced hun)⟩
    rintro ⟨hun, driverRes, await, hphase⟩
    obtain ⟨-, await', hphase'⟩ := hraced hun
    exact nomatch hphase.symm.trans hphase'

theorem verifier_never_stuck_iff_run :
    ∃ h, ∃ t : VerifierState Unit, (verifier fun _ => "").Run h t ∧
      h.map Prod.snd = [.finish .driver, .start .ready] ∧ t.Unanswered ∧ ¬ t.Stuck ∧
        t.Fails fun _ => "" := by
  let tasks : Tasks Task := Tasks.spawn (fun _ => .unspawned) .driver
  let probed : VerifierState Unit := ⟨.racing .commit, ⟨tasks.finish .driver, false⟩⟩
  have hrun : (verifier fun _ => "").Run [(⟨.racing .commit, ⟨tasks, false⟩⟩, .finish .driver),
      (⟨.unstarted, ⟨fun _ => .unspawned, false⟩⟩, .start .ready)] probed :=
    .cons (.cons .nil rfl) rfl
  have hun : probed.Unanswered := ⟨rfl, .commit, rfl, rfl⟩
  have hnever := (verifier_never_stuck_iff _ hrun (by simp [PeerGone])).mpr
    (by simp [BetweenRunAndAccept, Phase.suspended]) _ List.mem_cons_self
  exact ⟨_, _, hrun, rfl, hun, hnever.1, hnever.2 hun⟩

/-- The prover goes away between the run and its proof. -/
theorem verifier_stuck :
    ∃ h, ∃ t : VerifierState Unit, (verifier fun _ => "").Run h t ∧
      h.map Prod.snd = [.driver (.ok (.ok ())), .finish .driver, .resolve (.run (.ok ⟨[], []⟩)),
        .resolve (.accept (.ok ())),
        .resolve (.commit (.ok (.mpc ⟨maxSentData, maxRecvData⟩))), .start .ready] ∧
      (∀ p ∈ h, PeerGone p.1 p.2) ∧ t.Stuck := by
  let tasks : Tasks Task := Tasks.spawn (fun _ => .unspawned) .driver
  refine ⟨[(⟨.racing (.verify ⟨[], []⟩), ⟨tasks.finish .driver, true⟩⟩, .driver (.ok (.ok ()))),
    (⟨.racing (.verify ⟨[], []⟩), ⟨tasks, true⟩⟩, .finish .driver),
    (⟨.racing .run, ⟨tasks, false⟩⟩, .resolve (.run (.ok ⟨[], []⟩))),
    (⟨.racing .accept, ⟨tasks, false⟩⟩, .resolve (.accept (.ok ()))),
    (⟨.racing .commit, ⟨tasks, false⟩⟩,
      .resolve (.commit (.ok (.mpc ⟨maxSentData, maxRecvData⟩)))),
    (⟨.unstarted, ⟨fun _ => .unspawned, false⟩⟩, .start .ready)],
    ⟨.waiting (.ok (.ok ())) (.verify ⟨[], []⟩), ⟨tasks.finish .driver, true⟩⟩,
    .cons (.cons (.cons (.cons (.cons (.cons .nil rfl) rfl) rfl) rfl) rfl) rfl, rfl, ?_,
    ⟨rfl, _, rfl, rfl⟩, _, _, rfl⟩
  simp [PeerGone, Unanswered, tasks, Tasks.spawn]

end VerifierState

end Libid.Tlsn
