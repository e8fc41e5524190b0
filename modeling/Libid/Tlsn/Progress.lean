import Libid.Tlsn.Script
import Mathlib.Tactic.NormNum
import Mathlib.Data.List.Forall2

namespace Libid.Tlsn

/-! ### `session.rs` -/

inductive ProverStep
  | mpcSetupComplete
  | tlsHandshakeComplete
  | platformDataFetched
  | mpcProofFinalized
  deriving DecidableEq

namespace ProverStep

/-- The literals are exact in single precision. -/
def fraction : ProverStep → ℚ
  | .mpcSetupComplete => 1 / 4
  | .tlsHandshakeComplete => 1 / 2
  | .platformDataFetched => 3 / 4
  | .mpcProofFinalized => 1

def all : List ProverStep :=
  [.mpcSetupComplete, .tlsHandshakeComplete, .platformDataFetched, .mpcProofFinalized]

end ProverStep

namespace ProverSetup

variable {S : Type}

/-- The calls of `on_progress` between an await that resolves and the next. -/
def reports : ProverAwait S → ProverValue S → List ProverStep
  | .commit, .commit (.ok ()) => [.mpcSetupComplete]
  | .connect, .connect (.ok ()) => [.tlsHandshakeComplete]
  | .collectBody status, .collectBody (.ok _) =>
    if status.code ≠ 200 then [] else [.platformDataFetched]
  | .prove _, .prove (.ok _) _ _ => [.mpcProofFinalized]
  | _, _ => []

def reached : ProverAwait S → Nat
  | .commit => 0
  | .connect => 1
  | .handshake | .sendRequest | .collectBody _ => 2
  | .proverTask _ | .prove _ => 3
  | .close _ => 4

end ProverSetup

def ProverState.reports {S T : Type} (s : ProverState S T) : ProverEvent S T → List ProverStep
  | .resolve value => (s.phase.suspended.map (ProverSetup.reports · value)).getD []
  | _ => []

def reported {S T : Type} : List (ProverState S T × ProverEvent S T) → List ProverStep
  | [] => []
  | (s, e) :: h => reported h ++ s.reports e

namespace ProverSetup

variable {S T : Type} {await next : ProverAwait S} {value : ProverValue S} {w w' : World}

theorem pending_reports (h : resume await value w = some (w', .pending next)) :
    ProverStep.all.take (reached await) ++ reports await value =
      ProverStep.all.take (reached next) ∧
    (w'.established = true ↔ w.established = true ∨
      .mpcProofFinalized ∈ reports await value) := by
  unfold resume at h
  split at h
  case h_2 | h_4 | h_6 | h_8 =>
    cases h
    simp [reports, reached, ProverStep.all, World.spawn]
  case h_10 =>
    split at h
    case isTrue => cases h
    case isFalse hok =>
      cases h
      rw [not_not] at hok
      simp [reports, reached, ProverStep.all, hok]
  case h_11 =>
    split at h
    case isTrue => cases h
    case isFalse =>
      split at h
      case h_1 | h_2 | h_3 => cases h
      case h_4 =>
        cases h
        simp [reports, reached, ProverStep.all]
  case h_13 =>
    obtain ⟨rfl, hnext⟩ := Prod.mk.inj (Option.some.inj h)
    obtain ⟨session, rfl⟩ := pending_conclude hnext
    simp [reports, reached, ProverStep.all]
  all_goals cases h

theorem take_all_prefix (n : Nat) : ProverStep.all.take n <+: ProverStep.all :=
  List.take_prefix ..

theorem ready_reports {result : Except SessionError (ProverSession S)}
    (h : resume await value w = some (w', .ready result)) :
    (reports await value = [] ∧ w'.established = w.established ∨
      reached await = 3 ∧ reports await value = [.mpcProofFinalized] ∧ w'.established = true) ∧
    ∀ session, result = .ok session → reached await = 4 ∧ reports await value = [] := by
  unfold resume at h
  split at h
  case h_2 | h_4 | h_6 | h_8 => cases h
  case h_10 =>
    split at h
    case isTrue hstatus =>
      cases h
      exact ⟨.inl ⟨if_pos hstatus, rfl⟩, nofun⟩
    case isFalse => cases h
  case h_11 =>
    split at h
    case isTrue => cases h
    case isFalse =>
      split at h
      case h_1 | h_2 | h_3 =>
        cases h
        exact ⟨.inl ⟨rfl, rfl⟩, nofun⟩
      case h_4 => cases h
  case h_13 =>
    obtain ⟨rfl, hready⟩ := Prod.mk.inj (Option.some.inj h)
    refine ⟨.inr ⟨rfl, rfl, rfl⟩, ?_⟩
    rintro session rfl
    unfold conclude at hready
    split at hready <;> cases hready
  case h_15 =>
    cases h
    exact ⟨.inl ⟨rfl, rfl⟩, fun _ _ => ⟨rfl, rfl⟩⟩
  case h_16 => cases h
  all_goals
    cases h
    exact ⟨.inl ⟨rfl, rfl⟩, nofun⟩

end ProverSetup

/-! ### What has been reported -/

variable {S T : Type}

structure ProverState.Reported (s : ProverState S T) (steps : List ProverStep) : Prop where
  initial : steps <+: ProverStep.all
  unstarted : s.phase = .unstarted → steps = []
  suspended : ∀ await, s.phase.suspended = some await →
    steps = ProverStep.all.take (ProverSetup.reached await)
  joining : ∀ session, s.phase = .joining session → steps = ProverStep.all
  returned : ∀ output, s.phase = .returned (.ok output) → steps = ProverStep.all
  established : s.world.established = true ↔ .mpcProofFinalized ∈ steps

namespace ProverState.Reported

variable {s t : ProverState S T} {steps : List ProverStep} {e : ProverEvent S T}

theorem of_phase (h : s.Reported steps) {phase : Phase (ProverAwait S) (ProverSession S) T}
    {w : World} (hest : w.established = s.world.established) (hstarted : phase ≠ .unstarted)
    (hsuspended : ∀ await, phase.suspended = some await → s.phase.suspended = some await)
    (hjoining : ∀ session, phase ≠ .joining session)
    (hreturned : ∀ output, phase = .returned (.ok output) → steps = ProverStep.all) :
    ProverState.Reported ⟨phase, w⟩ (steps ++ []) := by
  rw [List.append_nil]
  refine ⟨h.initial, fun h' => absurd h' hstarted, fun await hawait => ?_,
    fun session h' => absurd h' (hjoining session), hreturned, ?_⟩
  · exact h.suspended await (hsuspended await hawait)
  · rw [hest]
    exact h.established

theorem pending {await next : ProverAwait S} {value : ProverValue S} (h : s.Reported steps)
    (hawait : s.phase.suspended = some await)
    (hp : ProverSetup.resume await value s.world = some (t.world, .pending next))
    (hnext : t.phase.suspended = some next) :
    t.Reported (steps ++ ProverSetup.reports await value) := by
  obtain ⟨hsteps, hest⟩ := ProverSetup.pending_reports hp
  obtain rfl := h.suspended await hawait
  rw [hsteps]
  refine ⟨ProverSetup.take_all_prefix _, ?_, ?_, ?_, ?_, ?_⟩
  · intro hphase
    simp [hphase, Phase.suspended] at hnext
  · intro await' hawait'
    rw [Option.some.inj (hnext.symm.trans hawait')]
  · intro session hphase
    simp [hphase, Phase.suspended] at hnext
  · intro output hphase
    simp [hphase, Phase.suspended] at hnext
  · rw [hest, h.established, ← List.mem_append, hsteps]

theorem ready {await : ProverAwait S} {value : ProverValue S} {w : World}
    {result : Except SessionError (ProverSession S)} (h : s.Reported steps)
    (hawait : s.phase.suspended = some await)
    (hp : ProverSetup.resume await value s.world = some (w, .ready result))
    (hest : t.world.established = w.established) (hstarted : t.phase ≠ .unstarted)
    (hsuspended : t.phase.suspended = none)
    (hjoining : ∀ session, t.phase = .joining session → ∃ session, result = .ok session)
    (hreturned : ∀ output, t.phase = .returned (.ok output) → ∃ session, result = .ok session) :
    t.Reported (steps ++ ProverSetup.reports await value) := by
  obtain ⟨hreports, hok⟩ := ProverSetup.ready_reports hp
  obtain rfl := h.suspended await hawait
  have hall : ∀ session, result = .ok session →
      ProverStep.all.take (ProverSetup.reached await) ++ ProverSetup.reports await value =
        ProverStep.all := by
    intro session hresult
    obtain ⟨hreached, hnone⟩ := hok session hresult
    rw [hreached, hnone]
    rfl
  refine ⟨?_, fun h' => absurd h' hstarted, fun _ h' => (nomatch hsuspended.symm.trans h'), ?_,
    ?_, ?_⟩
  · obtain ⟨hnone, -⟩ | ⟨hreached, hproof, -⟩ := hreports
    · rw [hnone, List.append_nil]
      exact ProverSetup.take_all_prefix _
    · rw [hreached, hproof]
      exact List.prefix_rfl
  · intro session hphase
    obtain ⟨session, hresult⟩ := hjoining session hphase
    exact hall session hresult
  · intro output hphase
    obtain ⟨session, hresult⟩ := hreturned output hphase
    exact hall session hresult
  · obtain ⟨hnone, hw⟩ | ⟨hreached, hproof, hw⟩ := hreports
    · rw [hest, hw, hnone, List.append_nil]
      exact h.established
    · simp [hest, hw, hproof]

theorem step (h : s.Reported steps) (hstep : (proverGeneric S).step s e = some t) :
    t.Reported (steps ++ s.reports e) := by
  cases ((proverSetup S).step_eq_some).mp hstep with
  | @start w k =>
    obtain rfl := h.unstarted rfl
    have hest : ¬ w.established = true := by simpa using h.established
    have hstart : ∀ t : ProverState S T, t.world.established = w.established →
        (∀ await, t.phase.suspended = some await → await = .commit) →
        (∀ session, t.phase ≠ .joining session) →
        (∀ output, t.phase ≠ .returned (.ok output)) → t.Reported [] := by
      intro t hw hsuspended hjoining hreturned
      refine ⟨by simp, fun _ => rfl, fun await hawait => ?_, fun _ h' => absurd h' (hjoining _),
        fun _ h' => absurd h' (hreturned _), by simpa [hw] using hest⟩
      rw [hsuspended await hawait]
      rfl
    cases k with
    | ready =>
      refine hstart _ rfl (fun await hawait => ?_) nofun nofun
      exact (Option.some.inj hawait).symm
    | noHost | originForm | proverConfig | newProver | mpcTlsConfig =>
      exact hstart _ rfl nofun nofun nofun
  | @race w await value p hp =>
    match p with
    | (w', .pending next) => exact h.pending rfl hp rfl
    | (w', .ready (.ok session)) =>
      exact h.ready rfl hp rfl nofun rfl (fun _ _ => ⟨session, rfl⟩) nofun
    | (w', .ready (.error e)) => exact h.ready rfl hp rfl nofun rfl nofun nofun
  | @wait w await value p driverRes hp =>
    match p with
    | (w', .pending next) => exact h.pending rfl hp rfl
    | (w', .ready (.ok session)) =>
      exact h.ready rfl hp rfl nofun rfl nofun (fun _ _ => ⟨session, rfl⟩)
    | (w', .ready (.error e)) => exact h.ready rfl hp rfl nofun rfl nofun nofun
  | early => exact h.of_phase rfl nofun nofun nofun nofun
  | late => exact h.of_phase rfl nofun (fun _ => id) nofun nofun
  | @join w session =>
    exact h.of_phase rfl nofun nofun nofun fun _ _ => h.joining session rfl
  | @finish w phase task hlive =>
    have hnone : ProverState.reports (T := T) ⟨phase, w⟩ (.finish task) = [] := rfl
    rw [hnone, List.append_nil]
    exact ⟨h.initial, h.unstarted, h.suspended, h.joining, h.returned, h.established⟩
  | drop => exact h.of_phase rfl nofun nofun nofun nofun

end ProverState.Reported

theorem reported_of_run {h : List (ProverState S T × ProverEvent S T)} {t : ProverState S T}
    (hrun : (proverGeneric S).Run h t) : t.Reported (reported h) := by
  induction hrun with
  | nil =>
    refine ⟨List.nil_prefix, fun _ => rfl, nofun, nofun, nofun, ?_⟩
    simp [reported, proverGeneric, Setup.machine]
  | cons _ hstep ih => exact ih.step hstep

/-- Whatever the scheduler does, the caller is told of the four boundaries in order, none of
them twice, and of all of them before it is given a result. -/
theorem prover_reports {h : List (ProverState S T × ProverEvent S T)} {t : ProverState S T}
    (hrun : (proverGeneric S).Run h t) :
    reported h <+: ProverStep.all ∧
    ((reported h).map ProverStep.fraction).Pairwise (· < ·) ∧
    (∀ await, t.phase.suspended = some await →
      reported h = ProverStep.all.take (ProverSetup.reached await)) ∧
    (∀ output, t.phase = .returned (.ok output) → reported h = ProverStep.all) ∧
    (t.world.established = true ↔ .mpcProofFinalized ∈ reported h) := by
  have ht := reported_of_run hrun
  refine ⟨ht.initial, ?_, ht.suspended, ht.returned, ht.established⟩
  have hall : (ProverStep.all.map ProverStep.fraction).Pairwise (· < ·) := by
    norm_num [ProverStep.all, ProverStep.fraction]
  exact hall.sublist (ht.initial.sublist.map _)

theorem prover_reports_run : ∃ h, ∃ t : ProverState Unit Unit, (proverGeneric Unit).Run h t ∧
    t.phase.ended = true ∧ reported h = [.mpcSetupComplete, .tlsHandshakeComplete] ∧
    reported h <+: ProverStep.all := by
  have hcommit := (Machine.Run.nil (m := proverGeneric Unit (T := Unit))).cons
    (e := .start .ready) rfl
  have hconnect := hcommit.cons (e := .resolve (.commit (.ok ()))) rfl
  have hhandshake := hconnect.cons (e := .resolve (.connect (.ok ()))) rfl
  have hsend := hhandshake.cons (e := .resolve (.handshake (.ok ()))) rfl
  have hcollect := hsend.cons (e := .resolve (.sendRequest (.ok ⟨404, "404 Not Found"⟩))) rfl
  have hrun := hcollect.cons (e := .resolve (.collectBody (.ok []))) rfl
  exact ⟨_, _, hrun, rfl, rfl, (prover_reports hrun).1⟩

/-- The secret opens a commitment, and this is what is passed on of it. -/
inductive Opens : TranscriptSecret → CommitmentOpening → Prop
  | hash {direction : Direction} {idx : List Range} {blinder : Bytes} :
      Opens (.hash direction idx blinder) ⟨direction, idx, blinder⟩

namespace ProverSetup

theorem commitmentOpening_eq_ok {secret : TranscriptSecret} {opening : CommitmentOpening} :
    commitmentOpening secret = .ok opening ↔ Opens secret opening := by
  cases secret with
  | hash direction idx blinder =>
    constructor
    · intro h
      cases h
      exact .hash
    · rintro ⟨⟩
      rfl
  | other text =>
    constructor
    · exact nofun
    · exact nofun

theorem mapM_commitmentOpening {secrets : List TranscriptSecret}
    {openings : List CommitmentOpening} :
    secrets.mapM commitmentOpening = .ok openings ↔ List.Forall₂ Opens secrets openings := by
  induction secrets generalizing openings with
  | nil => simp [pure, Except.pure, eq_comm]
  | cons secret secrets ih =>
    simp only [List.mapM_cons, Transcript.bind_eq_ok, commitmentOpening_eq_ok, ih, pure,
      Except.pure, Except.ok.injEq, List.forall₂_cons_left_iff]
    constructor
    · rintro ⟨opening, hopens, rest, hrest, rfl⟩
      exact ⟨opening, rest, hopens, hrest, rfl⟩
    · rintro ⟨opening, rest, hopens, hrest, rfl⟩
      exact ⟨opening, hopens, rest, hrest, rfl⟩

variable {values : List (ProverValue S)} {session : ProverSession S}

inductive Went : List (ProverValue S) → ProverAwait S → Prop
  | commit : Went [] .commit
  | connect {values : List (ProverValue S)} : Went values .commit →
      Went (.commit (.ok ()) :: values) .connect
  | handshake {values : List (ProverValue S)} : Went values .connect →
      Went (.connect (.ok ()) :: values) .handshake
  | sendRequest {values : List (ProverValue S)} : Went values .handshake →
      Went (.handshake (.ok ()) :: values) .sendRequest
  | collectBody {values : List (ProverValue S)} {status : StatusCode} : Went values .sendRequest →
      Went (.sendRequest (.ok status) :: values) (.collectBody status)
  | proverTask {values : List (ProverValue S)} {status : StatusCode} {body : Bytes} :
      Went values (.collectBody status) → status.code = 200 →
      Went (.collectBody (.ok body) :: values) (.proverTask body)
  | prove {values : List (ProverValue S)} {body : Bytes} : Went values (.proverTask body) →
      Went (.proverTask (.ok (.ok ())) (.ok ()) :: values) (.prove body)
  | close {values : List (ProverValue S)} {transcriptSecrets : List TranscriptSecret}
      {session : ProverSession S} : Went values (.prove session.responseBody) →
      List.Forall₂ Opens transcriptSecrets session.commitmentOpenings →
      Went (.prove (.ok transcriptSecrets) (.ok ()) (.ok session.secrets) :: values)
        (.close session)

theorem Went.conclude {body : Bytes} {transcriptSecrets : List TranscriptSecret}
    {request : Except RequestError Unit} {secrets : Except String S}
    (h : Went values (.prove body))
    (hnext : conclude body transcriptSecrets request secrets = .pending next) :
    Went (.prove (.ok transcriptSecrets) request secrets :: values) next := by
  unfold ProverSetup.conclude at hnext
  split at hnext
  case h_4 openings secrets hopenings =>
    cases hnext
    exact @Went.close S values _ ⟨body, secrets, openings⟩ h (mapM_commitmentOpening.mp hopenings)
  all_goals cases hnext

theorem Went.resume (h : Went values await)
    (hp : ProverSetup.resume await value w = some (w', .pending next)) :
    Went (value :: values) next := by
  unfold ProverSetup.resume at hp
  split at hp
  case h_2 =>
    cases hp
    exact .connect h
  case h_4 =>
    cases hp
    exact .handshake h
  case h_6 =>
    cases hp
    exact .sendRequest h
  case h_8 =>
    cases hp
    exact .collectBody h
  case h_10 =>
    split at hp
    case isTrue => cases hp
    case isFalse hok =>
      cases hp
      exact .proverTask h (not_not.mp hok)
  case h_11 =>
    split at hp
    case isTrue => cases hp
    case isFalse =>
      split at hp
      case h_1 | h_2 | h_3 => cases hp
      case h_4 =>
        cases hp
        exact .prove h
  case h_13 => exact h.conclude (Prod.mk.inj (Option.some.inj hp)).2
  all_goals cases hp

theorem went_of_comes (h : (proverSetup S).Comes values (.pending await)) : Went values await := by
  generalize hpoll : (.pending await : Poll (ProverAwait S) (ProverSession S)) = poll at h
  induction h generalizing await with
  | @enter k await' hk =>
    cases hpoll
    cases k with
    | noHost | originForm | proverConfig | newProver | mpcTlsConfig =>
      simp [proverSetup, enter] at hk
    | ready =>
      cases hk
      exact .commit
  | resume _ hp ih =>
    subst hpoll
    exact (ih rfl).resume hp

theorem resume_ready_ok (h : ProverSetup.resume await value w =
    some (w', .ready (.ok session))) : await = .close session ∧ value = .close (.ok ()) := by
  unfold ProverSetup.resume at h
  split at h
  case h_10 => split at h <;> cases h
  case h_11 =>
    split at h
    case isTrue => cases h
    case isFalse => split at h <;> cases h
  case h_13 =>
    have hready := (Prod.mk.inj (Option.some.inj h)).2
    unfold ProverSetup.conclude at hready
    split at hready <;> cases hready
  case h_15 =>
    cases h
    exact ⟨rfl, rfl⟩
  all_goals cases h

/-- The values of a session that goes well, the first first. -/
inductive Proves : List (ProverValue S) → ProverSession S → Prop
  | intro {status : StatusCode} {transcriptSecrets : List TranscriptSecret}
      {session : ProverSession S} : status.code = 200 →
      List.Forall₂ Opens transcriptSecrets session.commitmentOpenings →
      Proves [.commit (.ok ()), .connect (.ok ()), .handshake (.ok ()), .sendRequest (.ok status),
        .collectBody (.ok session.responseBody), .proverTask (.ok (.ok ())) (.ok ()),
        .prove (.ok transcriptSecrets) (.ok ()) (.ok session.secrets), .close (.ok ())] session

theorem Went.proves (h : Went values (.close session)) :
    Proves (.close (.ok ()) :: values).reverse session := by
  cases h with
  | close h hopens =>
    cases h with
    | prove h =>
      cases h with
      | proverTask h hstatus =>
        cases h with
        | collectBody h =>
          cases h with
          | sendRequest h =>
            cases h with
            | handshake h =>
              cases h with
              | connect h =>
                cases h with
                | commit => exact .intro hstatus hopens

theorem proves_of_comes (h : (proverSetup S).Comes values (.ready (.ok session))) :
    Proves values.reverse session := by
  cases h with
  | resume hcomes hp =>
    obtain ⟨rfl, rfl⟩ := resume_ready_ok hp
    exact (went_of_comes hcomes).proves

theorem resume_of_status {status : StatusCode} (body : Bytes) (h : status.code = 200) :
    (proverSetup S).resume (.collectBody status) (.collectBody (.ok body)) w =
      some (w, .pending (.proverTask body)) := by
  simp [proverSetup, ProverSetup.resume, h]

theorem resume_of_finished {body : Bytes} (h : w.tasks .prover = .finished) :
    (proverSetup S).resume (.proverTask body) (.proverTask (.ok (.ok ())) (.ok ())) w =
      some (w, .pending (.prove body)) := by
  simp [proverSetup, ProverSetup.resume, h]

theorem resume_of_opens {transcriptSecrets : List TranscriptSecret}
    (h : List.Forall₂ Opens transcriptSecrets session.commitmentOpenings) :
    (proverSetup S).resume (.prove session.responseBody)
        (.prove (.ok transcriptSecrets) (.ok ()) (.ok session.secrets)) w =
      some ({ w with established := true }, .pending (.close session)) := by
  simp only [proverSetup, ProverSetup.resume, ProverSetup.conclude, mapM_commitmentOpening.mpr h]

theorem Proves.comes (h : Proves values session) :
    (proverSetup S).Comes values.reverse (.ready (.ok session)) := by
  obtain @⟨status, transcriptSecrets, session, hstatus, hopens⟩ := h
  let w : World := ⟨fun _ => .finished, true⟩
  have hcommit : (proverSetup S).Comes [] (.pending .commit) := .enter (k := .ready) rfl
  have hconnect : (proverSetup S).Comes [.commit (.ok ())] (.pending .connect) :=
    hcommit.resume (w := w) rfl
  have hhandshake : (proverSetup S).Comes [.connect (.ok ()), .commit (.ok ())]
      (.pending .handshake) := hconnect.resume (w := w) rfl
  have hsend : (proverSetup S).Comes [.handshake (.ok ()), .connect (.ok ()), .commit (.ok ())]
      (.pending .sendRequest) := hhandshake.resume (w := w) rfl
  have hcollect : (proverSetup S).Comes
      [.sendRequest (.ok status), .handshake (.ok ()), .connect (.ok ()), .commit (.ok ())]
      (.pending (.collectBody status)) := hsend.resume (w := w) rfl
  have htask := hcollect.resume (w := w) (resume_of_status session.responseBody hstatus)
  have hprove := htask.resume (w := w) (resume_of_finished rfl)
  have hclose := hprove.resume (w := w) (resume_of_opens hopens)
  exact hclose.resume (w := w) rfl

theorem comes_iff : (proverSetup S).Comes values (.ready (.ok session)) ↔
    Proves values.reverse session := by
  constructor
  · exact proves_of_comes
  · intro h
    rw [← List.reverse_reverse values]
    exact h.comes

theorem resume_world (v : World) {poll : Poll (ProverAwait S) (ProverSession S)}
    (h : ProverSetup.resume await value w = some (w', poll))
    (hjoined : ∀ body, await = .proverTask body → v.tasks .prover = .finished) :
    ∃ v', ProverSetup.resume await value v = some (v', poll) := by
  unfold ProverSetup.resume at h
  split at h
  case h_10 =>
    split at h
    case isTrue hstatus =>
      cases h
      exact ⟨v, if_pos hstatus⟩
    case isFalse hstatus =>
      cases h
      exact ⟨v, if_neg hstatus⟩
  case h_11 =>
    have hdone : v.tasks .prover = .finished := hjoined _ rfl
    split at h
    case isTrue => cases h
    case isFalse =>
      split at h
      all_goals
        cases h
        exact ⟨v, if_neg (not_not_intro hdone)⟩
  case h_16 => cases h
  all_goals
    cases h
    exact ⟨_, rfl⟩

theorem Advances.live (h : Advances await w next w')
    (hlive : ∀ task, Setup.Holds (.guard Setup.driverTask :: locals await) task →
      Setup.Live w task) {task : Task}
    (hholds : Setup.Holds (.guard Setup.driverTask :: locals next) task) :
    Setup.Live w' task := by
  cases h with
  | commit | sendRequest | collectBody => exact hlive task (holds_iff.mpr (holds_iff.mp hholds))
  | prove => exact hlive task (holds_iff.mpr (holds_iff.mp hholds))
  | connect =>
    obtain rfl | rfl := holds_iff.mp hholds
    · exact (hlive .driver (holds_iff.mpr (.inl rfl))).spawn _
    · exact .spawned w _
  | handshake =>
    obtain rfl | rfl | rfl := holds_iff.mp hholds
    · exact (hlive .driver (holds_iff.mpr (.inl rfl))).spawn _
    · exact (hlive .prover (holds_iff.mpr (.inr rfl))).spawn _
    · exact .spawned w _
  | proverTask =>
    obtain rfl | rfl := holds_iff.mp hholds
    · exact hlive .driver (holds_iff.mpr (.inl rfl))
    · exact hlive .conn (holds_iff.mpr (.inr (.inr rfl)))

theorem answers (S : Type) : (proverSetup S).Answers where
  sound := proverSetup_sound S
  entered {k k'} _ _ h h' := by
    cases k with
    | noHost | originForm | proverConfig | newProver | mpcTlsConfig =>
      simp [proverSetup, enter] at h
    | ready =>
      cases k' with
      | noHost | originForm | proverConfig | newProver | mpcTlsConfig =>
        simp [proverSetup, enter] at h'
      | ready =>
        cases h
        cases h'
        rfl
  fresh {k} _ _ h := by
    cases k with
    | noHost | originForm | proverConfig | newProver | mpcTlsConfig =>
      simp [proverSetup, enter] at h
    | ready =>
      cases h
      simp [Setup.Holds, proverSetup, locals]
  unguarded {await} hmem := by
    cases await <;>
      simp [proverSetup, locals, guarded, proverTask, connTask, AbortOnDrop.new,
        AbortOnDrop.intoInner] at hmem
  resume v h hjoined := resume_world v h fun body hawait =>
    hjoined .prover (handle_mem_locals.mpr ⟨rfl, body, hawait⟩)
  live h hlive _ hholds := (resume_pending h).live hlive hholds

end ProverSetup

/-- Whatever the scheduler has done, the prover has returned a session exactly when its awaits
resolved to a body that came under 200 and an opening for each secret, and the driver was found
to have handed back the socket. -/
theorem prover_returns_iff {S T : Type} {h : List (ProverState S T × ProverEvent S T)}
    {t : ProverState S T} (hrun : (proverGeneric S).Run h t) (session : ProverSession S) (io : T) :
    (t.phase = .returned (.ok (session, io)) ↔
      ProverSetup.Proves (handed h).reverse session ∧ driverResults h = [.ok (.ok io)]) ∧
    ((∃ k u, (proverGeneric S).Run (k ++ h) u ∧ u.phase = .returned (.ok (session, io))) ↔
      (∃ rest, ProverSetup.Proves ((handed h).reverse ++ rest) session) ∧
        ∀ p ∈ h, (proverSetup S).Spares io p.1 p.2) := by
  have ha := ProverSetup.answers S
  constructor
  · rw [ha.returned_iff hrun, ProverSetup.comes_iff]
  · apply (ha.returns_iff hrun).trans
    apply and_congr_left
    intro _
    constructor
    · rintro ⟨rest, hrest⟩
      exact ⟨rest.reverse, by simpa using ProverSetup.comes_iff.mp hrest⟩
    · rintro ⟨rest, hrest⟩
      exact ⟨rest.reverse, ProverSetup.comes_iff.mpr (by simpa using hrest)⟩

/-- The driver ends well before the prover has closed. -/
theorem prover_returns_iff_run :
    let session : ProverSession Unit := ⟨[7], (), []⟩
    ∃ h, ∃ t : ProverState Unit Unit, (proverGeneric Unit).Run h t ∧
      t.phase = .waiting (.ok (.ok ())) (.close session) ∧
      ∃ k u, (proverGeneric Unit).Run (k ++ h) u ∧ u.phase = .returned (.ok (session, ())) := by
  intro session
  let unspawned : Tasks Task := fun _ => .unspawned
  let driver := unspawned.spawn .driver
  let prover := driver.spawn .prover
  let conn := prover.spawn .conn
  let joined := conn.finish .prover
  let h : List (ProverState Unit Unit × ProverEvent Unit Unit) :=
    [(⟨.racing (.close session), ⟨joined.finish .driver, true⟩⟩, .driver (.ok (.ok ()))),
    (⟨.racing (.close session), ⟨joined, true⟩⟩, .finish .driver),
    (⟨.racing (.prove [7]), ⟨joined, false⟩⟩, .resolve (.prove (.ok []) (.ok ()) (.ok ()))),
    (⟨.racing (.proverTask [7]), ⟨joined, false⟩⟩, .resolve (.proverTask (.ok (.ok ())) (.ok ()))),
    (⟨.racing (.proverTask [7]), ⟨conn, false⟩⟩, .finish .prover),
    (⟨.racing (.collectBody ⟨200, "200 OK"⟩), ⟨conn, false⟩⟩, .resolve (.collectBody (.ok [7]))),
    (⟨.racing .sendRequest, ⟨conn, false⟩⟩, .resolve (.sendRequest (.ok ⟨200, "200 OK"⟩))),
    (⟨.racing .handshake, ⟨prover, false⟩⟩, .resolve (.handshake (.ok ()))),
    (⟨.racing .connect, ⟨driver, false⟩⟩, .resolve (.connect (.ok ()))),
    (⟨.racing .commit, ⟨driver, false⟩⟩, .resolve (.commit (.ok ()))),
    (⟨.unstarted, ⟨unspawned, false⟩⟩, .start .ready)]
  let t : ProverState Unit Unit :=
    ⟨.waiting (.ok (.ok ())) (.close session), ⟨joined.finish .driver, true⟩⟩
  have hproved : (proverGeneric Unit).Run (h.drop 2) ⟨.racing (.close session), ⟨joined, true⟩⟩ :=
    .cons (.cons (.cons (.cons (.cons (.cons (.cons (.cons (.cons .nil
      rfl) rfl) rfl) rfl) rfl) rfl) rfl) rfl) rfl
  have hrun : (proverGeneric Unit).Run h t := .cons (.cons hproved rfl) rfl
  have hproves := @ProverSetup.Proves.intro Unit ⟨200, "200 OK"⟩ [] session rfl .nil
  have hspares : ∀ p ∈ h, (proverSetup Unit).Spares () p.1 p.2 := by
    simp [h, Setup.Spares, proverSetup, ProverSetup.enter]
  exact ⟨h, t, hrun, rfl, ((prover_returns_iff hrun session ()).2).mpr
    ⟨⟨[.close (.ok ())], hproves⟩, hspares⟩⟩

end Libid.Tlsn
