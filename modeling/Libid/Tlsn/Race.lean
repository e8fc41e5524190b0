import Libid.Tlsn.Prover

/-! The race between setup and the session driver, with the driver's handle in view: it is
polled where the source polls it, and a poll after it has yielded panics. -/

namespace Libid.Tlsn

inductive Race (σ α T : Type)
  | live (session : Session σ α T) (driver : HandleState (DriverResult T))
  | panicked

inductive RaceEvent (κ ν T : Type)
  | start (args : κ)
  | resolve (value : ν)
  | finish (task : Task)
  | finishDriver (driverRes : DriverResult T)
  | poll
  | drop

/-- A poll that gets past setup reaches the driver's handle: in the `select!`, and in the
join after it. -/
def Phase.pollsDriver {σ α T : Type} : Phase σ α T → Bool
  | .racing _ | .joining _ => true
  | _ => false

inductive Observation (α T : Type)
  | setup (result : Except SessionError α)
  | driver (driverRes : DriverResult T)
  /-- The race finds the driver finished while the session is not established. -/
  | early

def Observation.fails {α T : Type} : Observation α T → Bool
  | .setup (.ok _) | .driver (.ok (.ok _)) => false
  | .setup (.error _) | .driver (.ok (.error _)) | .driver (.error _) | .early => true

namespace Setup

variable {κ σ ν α T : Type} (setup : Setup κ σ ν α)

def raceStep : Race σ α T → RaceEvent κ ν T → Option (Race σ α T)
  | .panicked, _ => none
  | .live s d, .start k => (setup.step s (.start k)).map (.live · d)
  | .live s d, .resolve value => (setup.step s (.resolve value)).map (.live · d)
  | .live s d, .finish task =>
    if task = .driver then none else (setup.step s (.finish task)).map (.live · d)
  | .live s _, .finishDriver driverRes =>
    (setup.step s (.finish .driver)).map (.live · (.finished driverRes))
  | .live s d, .poll =>
    if s.phase.pollsDriver then
      match d.poll with
      | .pending => some (.live s d)
      | .ready driverRes => (setup.step s (.driver driverRes)).map (.live · .taken)
      | .panicked => some .panicked
    else if s.phase.suspended.isSome then some (.live s d)
    else none
  | .live s d, .drop => (setup.step s .drop).map (.live · d)

def race : Machine (Race σ α T) (RaceEvent κ ν T) where
  start := .live setup.machine.start .running
  step := setup.raceStep

def observe : Race σ α T × RaceEvent κ ν T → Option (Observation α T)
  | (.live _ _, .start k) =>
    match setup.enter k with
    | .ok (.error e) => some (.setup (.error e))
    | _ => none
  | (.live s _, .resolve value) => do
    let await ← s.phase.suspended
    match ← setup.resume await value s.world with
    | (_, .ready result) => some (.setup result)
    | _ => none
  | (_, .finishDriver driverRes) => some (.driver driverRes)
  | (.live ⟨.racing _, w⟩ (.finished _), .poll) => if w.established then none else some .early
  | _ => none

def observed (h : List (Race σ α T × RaceEvent κ ν T)) : List (Observation α T) :=
  h.filterMap setup.observe

inductive RaceMoves : Race σ α T → RaceEvent κ ν T → Race σ α T → Prop
  | start {s t : Session σ α T} {d : HandleState (DriverResult T)} {k : κ} :
      setup.Moves s (.start k) t → RaceMoves (.live s d) (.start k) (.live t d)
  | resolve {s t : Session σ α T} {d : HandleState (DriverResult T)} {value : ν} :
      setup.Moves s (.resolve value) t → RaceMoves (.live s d) (.resolve value) (.live t d)
  | finish {s t : Session σ α T} {d : HandleState (DriverResult T)} {task : Task} :
      task ≠ .driver → setup.Moves s (.finish task) t →
      RaceMoves (.live s d) (.finish task) (.live t d)
  | finishDriver {s t : Session σ α T} {d : HandleState (DriverResult T)}
      {driverRes : DriverResult T} : setup.Moves s (.finish .driver) t →
      RaceMoves (.live s d) (.finishDriver driverRes) (.live t (.finished driverRes))
  | pending {s : Session σ α T} : s.phase.pollsDriver = true →
      RaceMoves (.live s .running) .poll (.live s .running)
  | ready {s t : Session σ α T} {driverRes : DriverResult T} :
      setup.Moves s (.driver driverRes) t →
      RaceMoves (.live s (.finished driverRes)) .poll (.live t .taken)
  | panic {s : Session σ α T} : s.phase.pollsDriver = true →
      RaceMoves (.live s .taken) .poll .panicked
  | wait {s : Session σ α T} {d : HandleState (DriverResult T)} :
      s.phase.pollsDriver = false → RaceMoves (.live s d) .poll (.live s d)
  | drop {s t : Session σ α T} {d : HandleState (DriverResult T)} :
      setup.Moves s .drop t → RaceMoves (.live s d) .drop (.live t d)

variable {setup}

theorem raceMoves_of_step {r r' : Race σ α T} {e : RaceEvent κ ν T}
    (h : setup.raceStep r e = some r') : setup.RaceMoves r e r' := by
  unfold raceStep at h
  split at h
  case h_1 => exact nomatch h
  case h_2 =>
    obtain ⟨t, ht, rfl⟩ := Option.map_eq_some_iff.mp h
    exact .start (setup.step_eq_some.mp ht)
  case h_3 =>
    obtain ⟨t, ht, rfl⟩ := Option.map_eq_some_iff.mp h
    exact .resolve (setup.step_eq_some.mp ht)
  case h_4 =>
    split at h
    case isTrue => exact nomatch h
    case isFalse htask =>
      obtain ⟨t, ht, rfl⟩ := Option.map_eq_some_iff.mp h
      exact .finish htask (setup.step_eq_some.mp ht)
  case h_5 =>
    obtain ⟨t, ht, rfl⟩ := Option.map_eq_some_iff.mp h
    exact .finishDriver (setup.step_eq_some.mp ht)
  case h_6 s d =>
    split at h
    case isTrue hpolls =>
      cases d with
      | running => exact Option.some.inj h ▸ .pending hpolls
      | finished driverRes =>
        obtain ⟨t, ht, rfl⟩ := Option.map_eq_some_iff.mp h
        exact .ready (setup.step_eq_some.mp ht)
      | taken => exact Option.some.inj h ▸ .panic hpolls
    case isFalse hpolls =>
      split at h
      case isTrue => exact Option.some.inj h ▸ .wait (Bool.not_eq_true _ ▸ hpolls)
      case isFalse => exact nomatch h
  case h_7 =>
    obtain ⟨t, ht, rfl⟩ := Option.map_eq_some_iff.mp h
    exact .drop (setup.step_eq_some.mp ht)

theorem run_of_race {h : List (Race σ α T × RaceEvent κ ν T)} {s : Session σ α T}
    {d : HandleState (DriverResult T)} (hrun : (setup.race (T := T)).Run h (.live s d)) :
    ∃ k, (setup.machine (T := T)).Run k s := by
  generalize hr : Race.live s d = r at hrun
  induction hrun generalizing s d with
  | nil =>
    cases hr
    exact ⟨_, .nil⟩
  | cons _ hstep ih =>
    subst hr
    cases raceMoves_of_step hstep with
    | start hmoves | resolve hmoves | finish _ hmoves | finishDriver hmoves | ready hmoves
    | drop hmoves =>
      obtain ⟨k, hk⟩ := ih rfl
      exact ⟨_, hk.cons (setup.step_eq_some.mpr hmoves)⟩
    | pending | wait => exact ih rfl

structure KeepsDriver (setup : Setup κ σ ν α) : Prop where
  tasks : ∀ {await : σ} {value : ν} {w w' : World} {p : Poll σ α},
    setup.resume await value w = some (w', p) → w'.tasks .driver = w.tasks .driver

inductive Seen : List (Observation α T) → Session σ α T → HandleState (DriverResult T) → Prop
  | unstarted {w : World} : w.tasks .driver = .unspawned → Seen [] ⟨.unstarted, w⟩ .running
  | racing {w : World} {await : σ} : Seen [] ⟨.racing await, w⟩ .running
  | raced {w : World} {await : σ} {driverRes : DriverResult T} :
      w.tasks .driver = .finished →
      Seen [.driver driverRes] ⟨.racing await, w⟩ (.finished driverRes)
  | waiting {w : World} {await : σ} {driverRes : DriverResult T} :
      w.tasks .driver = .finished →
      Seen [.driver driverRes] ⟨.waiting driverRes await, w⟩ .taken
  | joining {w : World} {output : α} :
      Seen [.setup (.ok output)] ⟨.joining output, w⟩ .running
  | joined {trace : List (Observation α T)} {w : World} {output : α}
      {driverRes : DriverResult T} : w.tasks .driver = .finished →
      trace.Perm [.setup (.ok output), .driver driverRes] →
      Seen trace ⟨.joining output, w⟩ (.finished driverRes)
  | succeeded {trace : List (Observation α T)} {w : World} {output : α} {io : T} :
      trace.Perm [.setup (.ok output), .driver (.ok (.ok io))] →
      Seen trace ⟨.returned (.ok (output, io)), w⟩ .taken
  | failed {trace : List (Observation α T)} {w : World} {e : SessionError}
      {d : HandleState (DriverResult T)} : Seen trace ⟨.returned (.error e), w⟩ d
  | dropped {trace : List (Observation α T)} {w : World}
      {d : HandleState (DriverResult T)} : Seen trace ⟨.dropped, w⟩ d

theorem observed_cons (p : Race σ α T × RaceEvent κ ν T)
    (h : List (Race σ α T × RaceEvent κ ν T)) :
    setup.observed (p :: h) = (setup.observe p).toList ++ setup.observed h := by
  rw [observed, List.filterMap_cons]
  cases setup.observe p with
  | none => rfl
  | some o => rfl

theorem observe_resolve {s : Session σ α T} {d : HandleState (DriverResult T)} {await : σ}
    {value : ν} {w : World} {p : Poll σ α} (hawait : s.phase.suspended = some await)
    (hp : setup.resume await value s.world = some (w, p)) :
    setup.observe (.live s d, .resolve value) =
      match p with
      | .ready result => some (.setup result)
      | .pending _ => none := by
  cases p with
  | ready result => simp [observe, hawait, hp]
  | pending next => simp [observe, hawait, hp]

namespace Seen

variable {trace : List (Observation α T)} {s t : Session σ α T}
  {d : HandleState (DriverResult T)}

theorem concluded {output : α} {driverRes : DriverResult T} {w : World}
    (htrace : trace.Perm [.setup (.ok output), .driver driverRes]) :
    Seen trace ⟨(.returned (conclude output driverRes) : Phase σ α T), w⟩ .taken := by
  match driverRes with
  | .error e => exact .failed
  | .ok (.error e) => exact .failed
  | .ok (.ok io) => exact .succeeded htrace

theorem start {k : κ} (hseen : Seen trace s d) (hmoves : setup.Moves s (.start k) t) :
    Seen ((setup.observe (.live s d, .start k)).toList ++ trace) t d := by
  cases hmoves with
  | start =>
    cases hseen with
    | unstarted =>
      rw [Setup.start, observe]
      obtain e | e | await := setup.enter k
      · exact .failed
      · exact .failed
      · exact .racing

theorem resolve {value : ν} (hkeeps : setup.KeepsDriver) (hseen : Seen trace s d)
    (hmoves : setup.Moves s (.resolve value) t) :
    Seen ((setup.observe (.live s d, .resolve value)).toList ++ trace) t d := by
  cases hmoves with
  | @race w await _ p hp =>
    obtain ⟨w', poll⟩ := p
    rw [observe_resolve rfl hp]
    match poll with
    | .pending next =>
      cases hseen with
      | racing => exact .racing
      | raced hdone => exact .raced ((hkeeps.tasks hp).trans hdone)
    | .ready (.ok output) =>
      cases hseen with
      | racing => exact .joining
      | raced hdone =>
        exact .joined (dropAll_eq_finished.mpr ((hkeeps.tasks hp).trans hdone)) (.refl _)
    | .ready (.error e) => exact .failed
  | @wait w await _ p driverRes hp =>
    obtain ⟨w', poll⟩ := p
    rw [observe_resolve rfl hp]
    cases hseen with
    | waiting hdone =>
      match poll with
      | .pending next => exact .waiting ((hkeeps.tasks hp).trans hdone)
      | .ready (.ok output) => exact concluded (.refl _)
      | .ready (.error e) => exact .failed

theorem finish {task : Task} (htask : task ≠ .driver) (hseen : Seen trace s d)
    (hmoves : setup.Moves s (.finish task) t) : Seen trace t d := by
  cases hmoves with
  | finish hlive hrun =>
    cases hseen with
    | unstarted hidle => exact .unstarted ((Function.update_of_ne htask.symm ..).trans hidle)
    | racing => exact .racing
    | raced hdone => exact .raced ((Tasks.finish_eq_finished ..).mpr (.inr hdone))
    | waiting hdone => exact .waiting ((Tasks.finish_eq_finished ..).mpr (.inr hdone))
    | joining => exact .joining
    | joined hdone htrace =>
      exact .joined ((Tasks.finish_eq_finished ..).mpr (.inr hdone)) htrace
    | succeeded | failed | dropped => exact nomatch hlive

theorem finishDriver (driverRes : DriverResult T) (hseen : Seen trace s d)
    (hmoves : setup.Moves s (.finish .driver) t) :
    Seen (.driver driverRes :: trace) t (.finished driverRes) := by
  cases hmoves with
  | finish hlive hrun =>
    cases hseen with
    | unstarted hidle => simp [hidle] at hrun
    | racing => exact .raced (by simp)
    | joining => exact .joined (by simp) (.swap ..)
    | raced hdone | waiting hdone | joined hdone => simp [hdone] at hrun
    | succeeded | failed | dropped => cases hlive

theorem ready {driverRes : DriverResult T} (hseen : Seen trace s (.finished driverRes))
    (hmoves : setup.Moves s (.driver driverRes) t) :
    Seen ((setup.observe (.live s (.finished driverRes), .poll)).toList ++ trace) t .taken := by
  cases hmoves with
  | early hdone hest => exact .failed
  | late hdone hest =>
    cases hseen with
    | raced => simpa [observe, hest] using .waiting hdone
  | join hdone =>
    cases hseen with
    | joined _ htrace => exact concluded htrace

theorem step {r : Race σ α T} {e : RaceEvent κ ν T} (hkeeps : setup.KeepsDriver)
    (hseen : Seen trace s d) (hmoves : setup.RaceMoves (.live s d) e r) :
    ∃ t d', r = .live t d' ∧ Seen ((setup.observe (.live s d, e)).toList ++ trace) t d' := by
  cases hmoves with
  | start hmoves => exact ⟨_, _, rfl, hseen.start hmoves⟩
  | resolve hmoves => exact ⟨_, _, rfl, hseen.resolve hkeeps hmoves⟩
  | finish htask hmoves => exact ⟨_, _, rfl, hseen.finish htask hmoves⟩
  | finishDriver hmoves => exact ⟨_, _, rfl, hseen.finishDriver _ hmoves⟩
  | pending hpolls =>
    refine ⟨_, _, rfl, ?_⟩
    cases hseen with
    | racing => exact .racing
    | joining => exact .joining
    | unstarted | failed | dropped => exact nomatch hpolls
  | ready hmoves => exact ⟨_, _, rfl, hseen.ready hmoves⟩
  | panic hpolls =>
    cases hseen with
    | waiting | succeeded | failed | dropped => exact nomatch hpolls
  | wait hpolls =>
    refine ⟨_, _, rfl, ?_⟩
    cases hseen with
    | unstarted hidle => exact .unstarted hidle
    | waiting hdone => exact .waiting hdone
    | succeeded htrace => exact .succeeded htrace
    | failed => exact .failed
    | dropped => exact .dropped
    | racing | raced | joining | joined => exact nomatch hpolls
  | drop hmoves =>
    cases hmoves with
    | drop => exact ⟨_, _, rfl, .dropped⟩

end Seen

/-- Every state that a run gets to is one that its history accounts for. -/
theorem KeepsDriver.seen {h : List (Race σ α T × RaceEvent κ ν T)} {r : Race σ α T}
    (hkeeps : setup.KeepsDriver) (hrun : (setup.race (T := T)).Run h r) :
    ∃ s d, r = .live s d ∧ Seen (setup.observed h) s d := by
  induction hrun with
  | nil => exact ⟨_, _, rfl, .unstarted rfl⟩
  | cons _ hstep ih =>
    obtain ⟨s, d, rfl, hseen⟩ := ih
    rw [observed_cons]
    exact hseen.step hkeeps (raceMoves_of_step hstep)

/-- One poll, and no other, takes what the driver's handle yields. -/
structure ConsumesOnce (setup : Setup κ σ ν α) (h : List (Race σ α T × RaceEvent κ ν T))
    (r : Race σ α T) : Prop where
  polled : r ≠ .panicked
  answered : ∀ {s : Session σ α T} {driverRes : DriverResult T},
    r = .live s (.finished driverRes) → s.phase.pollsDriver = true →
    ∃ t, setup.raceStep r .poll = some (.live t .taken)
  succeeded : ∀ {output : α} {io : T} {w : World} {d : HandleState (DriverResult T)},
    r = .live ⟨.returned (.ok (output, io)), w⟩ d → d = .taken ∧
      (setup.observed h).Perm [.setup (.ok output), .driver (.ok (.ok io))]
  failed : ∀ {result : Except SessionError (α × T)} {w : World}
    {d : HandleState (DriverResult T)} {o : Observation α T},
    r = .live ⟨.returned result, w⟩ d → o ∈ setup.observed h → o.fails = true →
    ∃ e, result = .error e

theorem Seen.answered {trace : List (Observation α T)} {s : Session σ α T}
    {driverRes : DriverResult T} (hseen : Seen trace s (.finished driverRes))
    (hpolls : s.phase.pollsDriver = true) :
    ∃ t, setup.raceStep (.live s (.finished driverRes)) .poll = some (.live t .taken) := by
  suffices ∃ t, setup.step s (.driver driverRes) = some t by
    obtain ⟨t, ht⟩ := this
    exact ⟨t, by simp [raceStep, hpolls, HandleState.poll, ht]⟩
  cases hseen with
  | @raced w await _ hdone =>
    cases hest : w.established with
    | false => exact ⟨_, setup.step_eq_some.mpr (.early hdone hest)⟩
    | true => exact ⟨_, setup.step_eq_some.mpr (.late hdone hest)⟩
  | joined hdone => exact ⟨_, setup.step_eq_some.mpr (.join hdone)⟩
  | failed | dropped => exact nomatch hpolls

theorem Seen.perm_of_ok {trace : List (Observation α T)} {output : α} {io : T} {w : World}
    {d : HandleState (DriverResult T)}
    (hseen : Seen trace ⟨(.returned (.ok (output, io)) : Phase σ α T), w⟩ d) :
    d = .taken ∧ trace.Perm [.setup (.ok output), .driver (.ok (.ok io))] := by
  cases hseen with
  | succeeded htrace => exact ⟨rfl, htrace⟩

theorem Seen.error_of_fails {trace : List (Observation α T)} {result : Except SessionError (α × T)}
    {w : World} {d : HandleState (DriverResult T)} {o : Observation α T}
    (hseen : Seen trace ⟨(.returned result : Phase σ α T), w⟩ d) (ho : o ∈ trace)
    (hfails : o.fails = true) : ∃ e, result = .error e := by
  cases hseen with
  | failed => exact ⟨_, rfl⟩
  | @succeeded _ _ output io htrace =>
    have ho : o = .setup (.ok output) ∨ o = .driver (.ok (.ok io)) := by
      simpa using htrace.mem_iff.mp ho
    obtain rfl | rfl := ho
    · exact nomatch hfails
    · exact nomatch hfails

theorem KeepsDriver.consumesOnce {h : List (Race σ α T × RaceEvent κ ν T)} {r : Race σ α T}
    (hkeeps : setup.KeepsDriver) (hrun : (setup.race (T := T)).Run h r) :
    setup.ConsumesOnce h r := by
  obtain ⟨s, d, rfl, hseen⟩ := hkeeps.seen hrun
  constructor
  · exact nofun
  · rintro _ _ ⟨⟩ hpolls
    exact hseen.answered hpolls
  · rintro _ _ _ _ ⟨⟩
    exact hseen.perm_of_ok
  · rintro _ _ _ _ ⟨⟩ ho hfails
    exact hseen.error_of_fails ho hfails

end Setup

theorem verifierSetup_keepsDriver (display : Direction → String) :
    (verifierSetup display).KeepsDriver where
  tasks h := congrFun (VerifierSetup.resume_tasks h) .driver

theorem proverSetup_keepsDriver (S : Type) : (proverSetup S).KeepsDriver where
  tasks {await value w w' p} h := by
    change ProverSetup.resume await value w = some (w', p) at h
    have hspawn : ∀ task ≠ .driver, (w.spawn task).tasks .driver = w.tasks .driver :=
      fun _ hne => Function.update_of_ne hne.symm ..
    unfold ProverSetup.resume at h
    split at h
    case h_13 =>
      obtain ⟨rfl, -⟩ := Prod.mk.inj (Option.some.inj h)
      rfl
    all_goals grind

/-- Whatever the order in which setup and the driver finish, either session takes the
driver's result once, and returns it only if neither of the two has failed. -/
theorem race_consumes_once (S T : Type) (display : Direction → String) :
    (∀ h r, ((verifierSetup display).race (T := T)).Run h r →
      (verifierSetup display).ConsumesOnce h r) ∧
    ∀ h r, ((proverSetup S).race (T := T)).Run h r → (proverSetup S).ConsumesOnce h r :=
  ⟨fun _ _ => (verifierSetup_keepsDriver display).consumesOnce,
    fun _ _ => (proverSetup_keepsDriver S).consumesOnce⟩

theorem race_consumes_once_run :
    (∃ h r, ((verifierSetup fun _ => "").race (T := Unit)).Run h r ∧
      (∃ output w, r = .live ⟨.returned (.ok (output, ())), w⟩ .taken) ∧
      (verifierSetup fun _ => "").ConsumesOnce h r) ∧
    ∃ h r, ((proverSetup Unit).race (T := Unit)).Run h r ∧
      (∃ w, r = .live ⟨.returned (.error (driverFinishedEarly (.ok (.ok ())))), w⟩ .taken) ∧
      (proverSetup Unit).ConsumesOnce h r := by
  have honce := race_consumes_once Unit Unit fun _ => ""
  constructor
  · obtain ⟨h, hrun, -⟩ := Machine.Run.foldlM (m := (verifierSetup fun _ => "").race (T := Unit))
      [.start .ready, .resolve (.commit (.ok (.mpc ⟨maxSentData, maxRecvData⟩))),
        .resolve (.accept (.ok ())), .resolve (.run (.ok ⟨[], []⟩)),
        .finishDriver (.ok (.ok ())), .poll, .resolve (.verify (.ok ⟨true, none⟩)),
        .resolve (.acceptVerify (.ok ⟨some (.dns "example.com"), some (.unopened [] []), []⟩)),
        .resolve (.close (.ok ()))] .nil rfl
    exact ⟨h, _, hrun, ⟨_, _, rfl⟩, honce.1 h _ hrun⟩
  · obtain ⟨h, hrun, -⟩ := Machine.Run.foldlM (m := (proverSetup Unit).race (T := Unit))
      [.start .ready, .resolve (.commit (.ok ())), .poll, .finishDriver (.ok (.ok ())), .poll]
      .nil rfl
    exact ⟨h, _, hrun, ⟨_, rfl⟩, honce.2 h _ hrun⟩

end Libid.Tlsn
