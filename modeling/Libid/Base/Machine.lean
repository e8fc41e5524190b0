import Mathlib.Logic.Function.Basic

/-! Machines driven by events, their runs, and the tasks of a runtime. -/

namespace Libid

structure Machine (σ ε : Type) where
  start : σ
  step : σ → ε → Option σ

namespace Machine

variable {σ ε : Type} {m : Machine σ ε} {h : List (σ × ε)} {s t : σ} {e : ε}

/-- The machine gets to a state by these steps, the latest first. -/
inductive Run (m : Machine σ ε) : List (σ × ε) → σ → Prop
  | nil : Run m [] m.start
  | cons {h : List (σ × ε)} {s t : σ} {e : ε} :
      Run m h s → m.step s e = some t → Run m ((s, e) :: h) t

def visited (h : List (σ × ε)) (t : σ) : List σ := t :: h.map Prod.fst

theorem visited_cons : visited ((s, e) :: h) t = t :: visited h s := rfl

theorem Run.invariant {inv : σ → Prop} {may : σ → ε → Prop} (hstart : inv m.start)
    (hstep : ∀ s e t, inv s → may s e → m.step s e = some t → inv t) (hrun : m.Run h t)
    (hmay : ∀ p ∈ h, may p.1 p.2) : ∀ s ∈ visited h t, inv s := by
  induction hrun with
  | nil => simpa [visited] using hstart
  | cons _ hs ih =>
    rw [List.forall_mem_cons] at hmay
    have hinv := ih hmay.2
    rw [visited_cons, List.forall_mem_cons]
    exact ⟨hstep _ _ _ (hinv _ List.mem_cons_self) hmay.1 hs, hinv⟩

theorem Run.exists_step (hrun : m.Run h t) (hmem : (s, e) ∈ h) :
    ∃ u ∈ visited h t, m.step s e = some u := by
  induction hrun with
  | nil => nomatch hmem
  | cons _ hs ih =>
    rw [visited_cons]
    cases hmem with
    | head => exact ⟨_, List.mem_cons_self, hs⟩
    | tail _ hmem =>
      obtain ⟨u, hu, hstep⟩ := ih hmem
      exact ⟨u, List.mem_cons_of_mem _ hu, hstep⟩

theorem Run.foldlM (es : List ε) (hrun : m.Run h s) (hes : es.foldlM m.step s = some t) :
    ∃ k, m.Run k t ∧ k.map Prod.snd = es.reverse ++ h.map Prod.snd := by
  induction es generalizing h s with
  | nil => exact ⟨h, Option.some.inj hes ▸ hrun, rfl⟩
  | cons e es ih =>
    rw [List.foldlM_cons, Option.bind_eq_bind, Option.bind_eq_some_iff] at hes
    obtain ⟨u, hu, hes⟩ := hes
    obtain ⟨k, hk, hevents⟩ := ih (hrun.cons hu) hes
    exact ⟨k, hk, by simpa using hevents⟩

end Machine

inductive TaskStatus
  | unspawned
  | running
  | finished
  | aborted
  deriving DecidableEq

/-- What the runtime knows of each task.  A task that was asked to abort counts as aborted,
whether or not it has stopped. -/
abbrev Tasks (ι : Type) := ι → TaskStatus

/-- Dropping it leaves its task as it is. -/
structure JoinHandle (ι : Type) where
  task : ι
  deriving DecidableEq

namespace Tasks

variable {ι : Type} [DecidableEq ι] (ts : Tasks ι) (t u : ι)

def spawn : Tasks ι := Function.update ts t .running

def finish : Tasks ι := Function.update ts t .finished

def abort : Tasks ι := if ts t = .running then Function.update ts t .aborted else ts

@[simp] theorem spawn_eq_running : ts.spawn t u = .running ↔ u = t ∨ ts u = .running := by
  by_cases h : u = t
  · simp [spawn, h]
  · simp [spawn, h]

@[simp] theorem finish_eq_running : ts.finish t u = .running ↔ u ≠ t ∧ ts u = .running := by
  by_cases h : u = t
  · simp [finish, h]
  · simp [finish, h]

@[simp] theorem finish_eq_finished : ts.finish t u = .finished ↔ u = t ∨ ts u = .finished := by
  by_cases h : u = t
  · simp [finish, h]
  · simp [finish, h]

@[simp] theorem abort_eq_running : ts.abort t u = .running ↔ u ≠ t ∧ ts u = .running := by
  by_cases hu : u = t
  · subst hu
    by_cases h : ts u = .running
    · simp [abort, h]
    · simp [abort, h]
  · by_cases h : ts t = .running
    · simp [abort, h, hu]
    · simp [abort, h, hu]

@[simp] theorem abort_eq_finished : ts.abort t u = .finished ↔ ts u = .finished := by
  by_cases h : ts t = .running
  · by_cases hu : u = t
    · subst hu
      simp [abort, h]
    · simp [abort, h, hu]
  · simp [abort, h]

end Tasks

/-- What the handle of a task holds.  The poll that finds an output takes it. -/
inductive HandleState (ρ : Type)
  | running
  | finished (output : ρ)
  | taken
  deriving DecidableEq

inductive HandlePoll (ρ : Type)
  | pending
  | ready (output : ρ)
  | panicked
  deriving DecidableEq

/-- A handle must not be polled once its output is taken. -/
def HandleState.poll {ρ : Type} : HandleState ρ → HandlePoll ρ
  | .running => .pending
  | .finished output => .ready output
  | .taken => .panicked

end Libid
