import Libid.Base.Machine
import Libid.Transcript.Chunked

/-! What the two session functions share: a setup block raced against the session driver,
and the guards of the tasks they spawn. -/

namespace Libid.Tlsn

def maxSentData : Nat := 2 ^ 12

def maxRecvData : Nat := 2 ^ 15

inductive SessionError
  | mpcTlsFailed (detail : String)
  | unsupportedTlsVersion (detail : String)
  | io (error : String)
  | transcript (error : Transcript.Error)

inductive Task
  | driver
  | prover
  | conn
  deriving DecidableEq

/-- What the driver's handle resolves to: the socket, the driver's own error, or an error
of joining it. -/
abbrev DriverResult (T : Type) := Except String (Except String T)

def driverFinishedEarly {T : Type} : DriverResult T → SessionError
  | .ok (.ok _) => .mpcTlsFailed "driver task finished before the session completed"
  | .ok (.error e) => .mpcTlsFailed s!"driver task: {e}"
  | .error e => .mpcTlsFailed s!"driver task join: {e}"

structure AbortOnDrop where
  handle : Option (JoinHandle Task)
  deriving DecidableEq

namespace AbortOnDrop

def new (handle : JoinHandle Task) : AbortOnDrop := ⟨some handle⟩

/-- The handle, bare.  The guard is dropped without it. -/
def intoInner (guard : AbortOnDrop) : Option (JoinHandle Task) := guard.handle

def drop (guard : AbortOnDrop) (tasks : Tasks Task) : Tasks Task :=
  match guard.handle with
  | some handle => tasks.abort handle.task
  | none => tasks

end AbortOnDrop

/-- A variable that holds a task across an await. -/
inductive Local
  | guard (inner : AbortOnDrop)
  | handle (inner : JoinHandle Task)
  deriving DecidableEq

def Local.drop : Local → Tasks Task → Tasks Task
  | .guard inner, tasks => inner.drop tasks
  | .handle _, tasks => tasks

def dropAll (locals : List Local) (tasks : Tasks Task) : Tasks Task :=
  locals.foldl (fun tasks l => l.drop tasks) tasks

def guarded (task : Task) : Local := .guard (.new ⟨task⟩)

theorem dropAll_eq_running {locals : List Local} {tasks : Tasks Task} {task : Task} :
    dropAll locals tasks task = .running ↔ guarded task ∉ locals ∧ tasks task = .running := by
  induction locals generalizing tasks with
  | nil => simp [dropAll]
  | cons l locals ih =>
    rw [dropAll, List.foldl_cons, ← dropAll, ih, List.mem_cons, not_or]
    cases l with
    | handle handle => simp [Local.drop, guarded]
    | guard guard =>
      obtain ⟨handle⟩ := guard
      cases handle with
      | none => simp [Local.drop, AbortOnDrop.drop, guarded, AbortOnDrop.new]
      | some handle =>
        obtain ⟨other⟩ := handle
        simp only [Local.drop, AbortOnDrop.drop, Tasks.abort_eq_running, guarded, AbortOnDrop.new,
          Local.guard.injEq, AbortOnDrop.mk.injEq, Option.some.injEq, JoinHandle.mk.injEq, ne_eq]
        tauto

theorem dropAll_eq_finished {locals : List Local} {tasks : Tasks Task} {task : Task} :
    dropAll locals tasks task = .finished ↔ tasks task = .finished := by
  induction locals generalizing tasks with
  | nil => simp [dropAll]
  | cons l locals ih =>
    rw [dropAll, List.foldl_cons, ← dropAll, ih]
    cases l with
    | handle handle => rfl
    | guard guard =>
      obtain ⟨handle⟩ := guard
      cases handle with
      | none => rfl
      | some handle => exact Tasks.abort_eq_finished ..

/-- What the setup block shares with the function around it. -/
structure World where
  tasks : Tasks Task
  established : Bool

namespace World

def spawn (w : World) (task : Task) : World := { w with tasks := w.tasks.spawn task }

def drop (w : World) (locals : List Local) : World := { w with tasks := dropAll locals w.tasks }

end World

inductive Poll (σ α : Type)
  | pending (await : σ)
  | ready (result : Except SessionError α)

/-- The block's awaits are `σ`: `enter` is what comes before the first of them, on either
side of the driver's spawn, `resume` goes on from one that has resolved, and `locals` hold
tasks across it. -/
structure Setup (κ σ ν α : Type) where
  enter : κ → Except SessionError (Except SessionError σ)
  resume : σ → ν → World → Option (World × Poll σ α)
  locals : σ → List Local

inductive Phase (σ α T : Type)
  | unstarted
  /-- In the `select!`. -/
  | racing (await : σ)
  /-- In the driver's arm of it. -/
  | waiting (driverRes : DriverResult T) (await : σ)
  | joining (output : α)
  | returned (result : Except SessionError (α × T))
  | dropped

structure Session (σ α T : Type) where
  phase : Phase σ α T
  world : World

inductive Event (κ ν T : Type)
  | start (args : κ)
  | resolve (value : ν)
  | finish (task : Task)
  /-- The driver's handle is polled and ready. -/
  | driver (driverRes : DriverResult T)
  | drop

def Phase.ended {σ α T : Type} : Phase σ α T → Bool
  | .returned _ | .dropped => true
  | _ => false

def Phase.suspended {σ α T : Type} : Phase σ α T → Option σ
  | .racing await | .waiting _ await => some await
  | _ => none

namespace Setup

variable {κ σ ν α T : Type} (setup : Setup κ σ ν α)

def driverTask : AbortOnDrop := .new ⟨.driver⟩

def frame : Phase σ α T → List Local
  | .racing await | .waiting _ await => .guard driverTask :: setup.locals await
  | .joining _ => driverTask.intoInner.toList.map .handle
  | _ => []

/-- The recovered socket is the last part of the result. -/
def conclude (output : α) : DriverResult T → Except SessionError (α × T)
  | .error e => .error (.mpcTlsFailed s!"driver task join: {e}")
  | .ok (.error e) => .error (.mpcTlsFailed s!"driver task: {e}")
  | .ok (.ok io) => .ok (output, io)

def start (w : World) (k : κ) : Session σ α T :=
  match setup.enter k with
  | .error e => ⟨.returned (.error e), w⟩
  | .ok (.error e) => ⟨.returned (.error e), (w.spawn .driver).drop [.guard driverTask]⟩
  | .ok (.ok await) => ⟨.racing await, w.spawn .driver⟩

/-- The setup's arm of the `select!`, polled at `await`. -/
def afterRace (await : σ) : World × Poll σ α → Session σ α T
  | (w, .pending next) => ⟨.racing next, w⟩
  | (w, .ready (.ok output)) => ⟨.joining output, w.drop (setup.locals await)⟩
  | (w, .ready (.error e)) =>
    ⟨.returned (.error e), w.drop (.guard driverTask :: setup.locals await)⟩

def afterWait (driverRes : DriverResult T) (await : σ) : World × Poll σ α → Session σ α T
  | (w, .pending next) => ⟨.waiting driverRes next, w⟩
  | (w, .ready (.ok output)) =>
    ⟨.returned (conclude output driverRes), w.drop (.guard driverTask :: setup.locals await)⟩
  | (w, .ready (.error e)) =>
    ⟨.returned (.error e), w.drop (.guard driverTask :: setup.locals await)⟩

def step : Session σ α T → Event κ ν T → Option (Session σ α T)
  | ⟨.unstarted, w⟩, .start k => some (setup.start w k)
  | ⟨.racing await, w⟩, .resolve value =>
    (setup.resume await value w).map (setup.afterRace await)
  | ⟨.waiting driverRes await, w⟩, .resolve value =>
    (setup.resume await value w).map (setup.afterWait driverRes await)
  | ⟨.racing await, w⟩, .driver driverRes =>
    if w.tasks .driver ≠ .finished then none
    else if !w.established then
      some ⟨.returned (.error (driverFinishedEarly driverRes)),
        w.drop (.guard driverTask :: setup.locals await)⟩
    else some ⟨.waiting driverRes await, w⟩
  | ⟨.joining output, w⟩, .driver driverRes =>
    if w.tasks .driver ≠ .finished then none
    else some ⟨.returned (conclude output driverRes), w⟩
  | ⟨phase, w⟩, .finish task =>
    if phase.ended ∨ w.tasks task ≠ .running then none
    else some ⟨phase, { w with tasks := w.tasks.finish task }⟩
  | ⟨phase, w⟩, .drop =>
    if phase.ended then none else some ⟨.dropped, w.drop (setup.frame phase)⟩
  | _, _ => none

def machine : Machine (Session σ α T) (Event κ ν T) where
  start := ⟨.unstarted, ⟨fun _ => .unspawned, false⟩⟩
  step := setup.step

inductive Moves : Session σ α T → Event κ ν T → Session σ α T → Prop
  | start {w : World} {k : κ} : Moves ⟨.unstarted, w⟩ (.start k) (setup.start w k)
  | race {w : World} {await : σ} {value : ν} {p : World × Poll σ α} :
      setup.resume await value w = some p →
      Moves ⟨.racing await, w⟩ (.resolve value) (setup.afterRace await p)
  | wait {w : World} {await : σ} {value : ν} {p : World × Poll σ α}
      {driverRes : DriverResult T} : setup.resume await value w = some p →
      Moves ⟨.waiting driverRes await, w⟩ (.resolve value) (setup.afterWait driverRes await p)
  | early {w : World} {await : σ} {driverRes : DriverResult T} :
      w.tasks .driver = .finished → w.established = false →
      Moves ⟨.racing await, w⟩ (.driver driverRes)
        ⟨.returned (.error (driverFinishedEarly driverRes)),
          w.drop (.guard driverTask :: setup.locals await)⟩
  | late {w : World} {await : σ} {driverRes : DriverResult T} :
      w.tasks .driver = .finished → w.established = true →
      Moves ⟨.racing await, w⟩ (.driver driverRes) ⟨.waiting driverRes await, w⟩
  | join {w : World} {output : α} {driverRes : DriverResult T} :
      w.tasks .driver = .finished →
      Moves ⟨.joining output, w⟩ (.driver driverRes) ⟨.returned (conclude output driverRes), w⟩
  | finish {w : World} {phase : Phase σ α T} {task : Task} :
      phase.ended = false → w.tasks task = .running →
      Moves ⟨phase, w⟩ (.finish task) ⟨phase, { w with tasks := w.tasks.finish task }⟩
  | drop {w : World} {phase : Phase σ α T} : phase.ended = false →
      Moves ⟨phase, w⟩ .drop ⟨.dropped, w.drop (setup.frame phase)⟩

theorem step_eq_some {s t : Session σ α T} {e : Event κ ν T} :
    setup.step s e = some t ↔ setup.Moves s e t := by
  constructor
  · intro h
    unfold step at h
    split at h
    case h_1 => exact Option.some.inj h ▸ .start
    case h_2 =>
      obtain ⟨p, hp, rfl⟩ := Option.map_eq_some_iff.mp h
      exact .race hp
    case h_3 =>
      obtain ⟨p, hp, rfl⟩ := Option.map_eq_some_iff.mp h
      exact .wait hp
    case h_4 await w driverRes =>
      split at h
      case isTrue => simp at h
      case isFalse hdone =>
        cases hest : w.established with
        | false => exact Option.some.inj (by simpa [hest] using h) ▸ .early (not_not.mp hdone) hest
        | true => exact Option.some.inj (by simpa [hest] using h) ▸ .late (not_not.mp hdone) hest
    case h_5 =>
      split at h
      case isTrue => simp at h
      case isFalse hdone => exact Option.some.inj h ▸ .join (not_not.mp hdone)
    case h_6 =>
      split at h
      case isTrue => simp at h
      case isFalse hlive =>
        rw [not_or, Bool.not_eq_true, not_not] at hlive
        exact Option.some.inj h ▸ .finish hlive.1 hlive.2
    case h_7 =>
      split at h
      case isTrue => simp at h
      case isFalse hlive =>
        exact Option.some.inj h ▸ .drop (Bool.not_eq_true _ ▸ hlive)
    case h_8 => simp at h
  · intro h
    cases h with
    | start => rfl
    | race hp => simp [step, hp]
    | wait hp => simp [step, hp]
    | early hdone hest => simp [step, hdone, hest]
    | late hdone hest => simp [step, hdone, hest]
    | join hdone => simp [step, hdone]
    | finish hlive hrun => simp [step, hlive, hrun]
    | drop hlive => simp [step, hlive]

def Holds (locals : List Local) (task : Task) : Prop :=
  guarded task ∈ locals ∨ .handle ⟨task⟩ ∈ locals

/-- What a setup block owes: it holds every task it spawns, joins one it does not guard, and
is done only once none that it joins is running. -/
structure Sound : Prop where
  pending : ∀ {await next : σ} {value : ν} {w w' : World},
    setup.resume await value w = some (w', .pending next) →
    (∀ task, w.tasks task = .running → Holds (.guard driverTask :: setup.locals await) task) →
    ∀ task, w'.tasks task = .running → Holds (.guard driverTask :: setup.locals next) task
  ready : ∀ {await : σ} {value : ν} {w w' : World} {result : Except SessionError α},
    setup.resume await value w = some (w', .ready result) → w'.tasks = w.tasks ∧
      ∀ task, .handle ⟨task⟩ ∈ setup.locals await → w.tasks task ≠ .running
  bare : ∀ {await : σ} {task : Task}, .handle ⟨task⟩ ∈ setup.locals await →
    guarded task ∉ Local.guard driverTask :: setup.locals await

def Held (s : Session σ α T) : Prop :=
  s.phase.ended = false → ∀ task, s.world.tasks task = .running →
    Holds (setup.frame s.phase) task

def Settled (tasks : Tasks Task) : Prop := ∀ task, tasks task ≠ .running

/-- The call ends while it is suspended on joining a task that still runs: the caller drops
it, or the driver is found to have finished too early. -/
inductive Detaches : Session σ α T → Event κ ν T → Prop
  | drop {s : Session σ α T} {task : Task} : .handle ⟨task⟩ ∈ setup.frame s.phase →
      s.world.tasks task = .running → Detaches s .drop
  | early {w : World} {await : σ} {task : Task} {driverRes : DriverResult T} :
      w.established = false → .handle ⟨task⟩ ∈ setup.locals await →
      w.tasks task = .running → Detaches ⟨.racing await, w⟩ (.driver driverRes)

theorem settled_dropAll {locals : List Local} {tasks : Tasks Task}
    (hheld : ∀ task, tasks task = .running → Holds locals task)
    (hbare : ∀ task, .handle ⟨task⟩ ∈ locals → guarded task ∉ locals) :
    Settled (dropAll locals tasks) ↔
      ∀ task, .handle ⟨task⟩ ∈ locals → tasks task ≠ .running := by
  simp only [Settled, ne_eq, dropAll_eq_running, not_and]
  constructor
  · intro h task hmem
    exact h task (hbare task hmem)
  · intro h task hguard hrun
    exact h task ((hheld task hrun).resolve_left hguard) hrun

variable {setup} {s t : Session σ α T} {e : Event κ ν T}

theorem Sound.frame_bare (hs : setup.Sound) {phase : Phase σ α T} {task : Task}
    (hmem : .handle ⟨task⟩ ∈ setup.frame phase) : guarded task ∉ setup.frame phase := by
  cases phase with
  | unstarted => simp [frame]
  | racing await => exact hs.bare (by simpa [frame] using hmem)
  | waiting driverRes await => exact hs.bare (by simpa [frame] using hmem)
  | joining output => simp [frame, driverTask, AbortOnDrop.intoInner, AbortOnDrop.new, guarded]
  | returned result => simp [frame]
  | dropped => simp [frame]

theorem handle_mem_frame {locals : List Local} {handle : JoinHandle Task} :
    .handle handle ∈ Local.guard driverTask :: locals ↔ .handle handle ∈ locals := by
  simp

theorem handle_mem_joining {output : α} {task : Task} :
    .handle ⟨task⟩ ∈ setup.frame (T := T) (.joining output) ↔ task = .driver := by
  simp [frame, driverTask, AbortOnDrop.intoInner, AbortOnDrop.new]

theorem Held.settled_drop (hs : setup.Sound) (hheld : setup.Held s)
    (hlive : s.phase.ended = false) :
    Settled (dropAll (setup.frame s.phase) s.world.tasks) ↔
      ∀ task, .handle ⟨task⟩ ∈ setup.frame s.phase → s.world.tasks task ≠ .running :=
  settled_dropAll (hheld hlive) fun _ => hs.frame_bare

theorem Sound.settled_ready (hs : setup.Sound) {await : σ} {value : ν} {w w' : World}
    {result : Except SessionError α} (hp : setup.resume await value w = some (w', .ready result))
    (hheld : ∀ task, w.tasks task = .running →
      Holds (.guard driverTask :: setup.locals await) task) :
    Settled (dropAll (.guard driverTask :: setup.locals await) w'.tasks) := by
  obtain ⟨htasks, hjoined⟩ := hs.ready hp
  rw [htasks, settled_dropAll hheld fun _ hmem => hs.bare (handle_mem_frame.mp hmem)]
  intro task hmem
  exact hjoined task (handle_mem_frame.mp hmem)

theorem Held.joining (hs : setup.Sound) {await : σ} {value : ν} {w w' : World} {output : α}
    (hp : setup.resume await value w = some (w', .ready (.ok output)))
    (hheld : ∀ task, w.tasks task = .running →
      Holds (.guard driverTask :: setup.locals await) task) :
    setup.Held (T := T) ⟨.joining output, w'.drop (setup.locals await)⟩ := by
  intro _ task hrun
  obtain ⟨htasks, hjoined⟩ := hs.ready hp
  simp only [World.drop, htasks, dropAll_eq_running] at hrun
  obtain hguard | hhandle := hheld task hrun.2
  · obtain hdriver | hmem := List.mem_cons.mp hguard
    · obtain rfl : task = .driver := by simpa [guarded, driverTask, AbortOnDrop.new] using hdriver
      exact Or.inr List.mem_cons_self
    · exact absurd hmem hrun.1
  · exact absurd hrun.2 (hjoined task (handle_mem_frame.mp hhandle))

theorem Held.step (hs : setup.Sound) (hheld : setup.Held s) (hstep : setup.step s e = some t) :
    setup.Held t := by
  cases (setup.step_eq_some).mp hstep with
  | @start w k =>
    rw [start]
    split
    case h_1 | h_2 => exact nofun
    case h_3 await _ =>
      intro _ task hrun
      obtain rfl | hrun := (Tasks.spawn_eq_running ..).mp hrun
      · exact Or.inl List.mem_cons_self
      · exact absurd (hheld rfl task hrun) (by simp [Holds, frame])
  | @race w await value p hp =>
    match p with
    | (w', .pending next) => exact fun _ => hs.pending hp (hheld rfl)
    | (w', .ready (.ok output)) => exact .joining hs hp (hheld rfl)
    | (w', .ready (.error e)) => exact nofun
  | @wait w await value p driverRes hp =>
    match p with
    | (w', .pending next) => exact fun _ => hs.pending hp (hheld rfl)
    | (w', .ready (.ok output)) | (w', .ready (.error e)) => exact nofun
  | late => exact fun _ => hheld rfl
  | finish hlive =>
    intro _ task hrun
    exact hheld hlive task ((Tasks.finish_eq_running ..).mp hrun).2
  | early | join | drop => exact nofun

theorem settled_iff_of_step (hs : setup.Sound) (hheld : setup.Held s)
    (hstep : setup.step s e = some t) (hend : t.phase.ended = true) :
    Settled t.world.tasks ↔ ¬ setup.Detaches s e := by
  cases (setup.step_eq_some).mp hstep with
  | @start w k =>
    have hidle : Settled w.tasks := fun task hrun =>
      absurd (hheld rfl task hrun) (by simp [Holds, frame])
    refine iff_of_true ?_ nofun
    rw [start] at hend ⊢
    split at hend
    case h_1 => exact hidle
    case h_2 =>
      intro task hrun
      obtain ⟨hguard, hrun⟩ := dropAll_eq_running.mp hrun
      obtain rfl | hrun := (Tasks.spawn_eq_running ..).mp hrun
      · exact hguard List.mem_cons_self
      · exact hidle task hrun
    case h_3 => simp [Phase.ended] at hend
  | @race w await value p hp =>
    refine iff_of_true ?_ nofun
    match p with
    | (w', .pending next) | (w', .ready (.ok output)) => simp [afterRace, Phase.ended] at hend
    | (w', .ready (.error e)) => exact hs.settled_ready hp (hheld rfl)
  | @wait w await value p driverRes hp =>
    refine iff_of_true ?_ nofun
    match p with
    | (w', .pending next) => simp [afterWait, Phase.ended] at hend
    | (w', .ready (.ok output)) | (w', .ready (.error e)) => exact hs.settled_ready hp (hheld rfl)
  | @early w await driverRes hdone hest =>
    apply (hheld.settled_drop hs rfl).trans
    constructor
    · intro h hdetaches
      cases hdetaches with
      | early _ hmem hrun => exact h _ (handle_mem_frame.mpr hmem) hrun
    · intro h task hmem hrun
      exact h (.early hest (handle_mem_frame.mp hmem) hrun)
  | late => simp [Phase.ended] at hend
  | join hdone =>
    refine iff_of_true (fun task hrun => ?_) nofun
    obtain hguard | hhandle := hheld rfl task hrun
    · simp [frame, driverTask, AbortOnDrop.intoInner, AbortOnDrop.new, guarded] at hguard
    · obtain rfl := handle_mem_joining.mp hhandle
      exact nomatch hdone.symm.trans hrun
  | finish hlive => exact absurd hend (by simp [hlive])
  | @drop w phase hlive =>
    apply (hheld.settled_drop hs hlive).trans
    constructor
    · intro h hdetaches
      cases hdetaches with
      | drop hmem hrun => exact h _ hmem hrun
    · intro h task hmem hrun
      exact h (.drop hmem hrun)

theorem detaches_iff : setup.Detaches s e ↔
    (e = .drop ∧ (∃ output, s.phase = .joining output) ∧ s.world.tasks .driver = .running) ∨
      ∃ await task, .handle ⟨task⟩ ∈ setup.locals await ∧ s.world.tasks task = .running ∧
        ((s.phase.suspended = some await ∧ e = .drop) ∨
          (s.phase = .racing await ∧ s.world.established = false ∧
            ∃ driverRes, e = .driver driverRes)) := by
  obtain ⟨phase, w⟩ := s
  constructor
  · intro h
    cases h with
    | drop hmem hrun =>
      cases phase with
      | racing await | waiting driverRes await =>
        exact .inr ⟨await, _, handle_mem_frame.mp hmem, hrun, .inl ⟨rfl, rfl⟩⟩
      | joining output =>
        obtain rfl := handle_mem_joining.mp hmem
        exact .inl ⟨rfl, ⟨output, rfl⟩, hrun⟩
      | unstarted | returned | dropped => simp [frame] at hmem
    | early hest hmem hrun =>
      exact .inr ⟨_, _, hmem, hrun, .inr ⟨rfl, hest, _, rfl⟩⟩
  · rintro (⟨rfl, ⟨output, rfl⟩, hrun⟩ | ⟨await, task, hmem, hrun, ⟨hawait, rfl⟩ |
      ⟨rfl, hest, driverRes, rfl⟩⟩)
    · exact .drop (handle_mem_joining.mpr rfl) hrun
    · have hframe : .handle ⟨task⟩ ∈ setup.frame phase := by
        cases phase with
        | racing await' | waiting driverRes await' =>
          obtain rfl := Option.some.inj hawait
          exact handle_mem_frame.mpr hmem
        | unstarted | joining | returned | dropped => exact nomatch hawait
      exact .drop hframe hrun
    · exact .early hest hmem hrun

theorem ended_of_detaches (hstep : setup.step s e = some t) (h : setup.Detaches s e) :
    t.phase.ended = true := by
  cases (setup.step_eq_some).mp hstep with
  | start | race | wait | finish => exact nomatch h
  | early | join | drop => rfl
  | late hdone hest =>
    cases h with
    | early hest' => simp [hest] at hest'

theorem live_of_step (hstep : setup.step s e = some t) : s.phase.ended = false := by
  cases (setup.step_eq_some).mp hstep with
  | start | race | wait | early | late | join => rfl
  | finish hlive | drop hlive => exact hlive

/-- A call that has ended left no task running exactly when no step of it detached one. -/
theorem Sound.settled_iff (hs : setup.Sound) {h : List (Session σ α T × Event κ ν T)}
    (hrun : (setup.machine (T := T)).Run h t) (hend : t.phase.ended = true) :
    Settled t.world.tasks ↔ ∀ p ∈ h, ¬ setup.Detaches p.1 p.2 := by
  cases hrun with
  | nil => simp [machine, Phase.ended] at hend
  | @cons h s _ e hrun hstep =>
    have hstart : setup.Held (setup.machine (T := T)).start := fun _ task hrun => by
      simp [machine] at hrun
    have hheld : setup.Held s := hrun.invariant hstart
      (fun _ _ _ hheld (_ : True) => hheld.step hs) (fun _ _ => trivial) s List.mem_cons_self
    rw [List.forall_mem_cons, settled_iff_of_step hs hheld hstep hend, and_iff_left]
    -- A step that detaches a task ends the call, and another came after it.
    intro p hp hdetaches
    obtain ⟨u, hu, hpu⟩ := hrun.exists_step hp
    have hended := ended_of_detaches hpu hdetaches
    obtain rfl | hu := List.mem_cons.mp hu
    · simp [live_of_step hstep] at hended
    · obtain ⟨⟨_, e'⟩, hmem, rfl⟩ := List.mem_map.mp hu
      obtain ⟨v, -, hv⟩ := hrun.exists_step hmem
      simp [live_of_step hv] at hended

end Setup

end Libid.Tlsn
