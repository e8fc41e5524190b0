import Libid.Tlsn.Bounds
import Libid.Tlsn.Race

/-! What a call returns, from what its setup block is handed: whatever the scheduler does,
the block answers as it would by itself. -/

namespace Libid.Tlsn

def Event.value {κ ν T : Type} : Event κ ν T → Option ν
  | .resolve value => some value
  | _ => none

def Event.driverResult {κ ν T : Type} : Event κ ν T → Option (DriverResult T)
  | .driver driverRes => some driverRes
  | _ => none

/-- What the awaits of setup resolved to, the latest first. -/
def handed {κ ν σ α T : Type} (h : List (Session σ α T × Event κ ν T)) : List ν :=
  h.filterMap (·.2.value)

/-- What the driver's handle was found to hold, the latest first. -/
def driverResults {κ ν σ α T : Type} (h : List (Session σ α T × Event κ ν T)) :
    List (DriverResult T) :=
  h.filterMap (·.2.driverResult)

namespace Setup

variable {κ σ ν α T : Type} (setup : Setup κ σ ν α)

/-- The block on its own, one await after the other. -/
inductive Comes : List ν → Poll σ α → Prop
  | enter {k : κ} {await : σ} : setup.enter k = .ok (.ok await) → Comes [] (.pending await)
  | resume {values : List ν} {await : σ} {value : ν} {poll : Poll σ α} {w w' : World} :
      Comes values (.pending await) → setup.resume await value w = some (w', poll) →
      Comes (value :: values) poll

/-- What the function may return once setup has been handed `values` and the driver's handle
has been found to hold `driverResults`. -/
inductive Returns : List ν → List (DriverResult T) → Except SessionError (α × T) → Prop
  | unspawned {k : κ} {e : SessionError} : setup.enter k = .error e → Returns [] [] (.error e)
  | refused {k : κ} {e : SessionError} : setup.enter k = .ok (.error e) →
      Returns [] [] (.error e)
  | failed {values : List ν} {driverResults : List (DriverResult T)} {e : SessionError} :
      setup.Comes values (.ready (.error e)) → driverResults.length ≤ 1 →
      Returns values driverResults (.error e)
  | early {values : List ν} {await : σ} {driverRes : DriverResult T} :
      setup.Comes values (.pending await) →
      Returns values [driverRes] (.error (driverFinishedEarly driverRes))
  | finished {values : List ν} {driverRes : DriverResult T} {output : α} :
      setup.Comes values (.ready (.ok output)) →
      Returns values [driverRes] (conclude output driverRes)

def At (values : List ν) (driverResults : List (DriverResult T)) : Phase σ α T → Prop
  | .unstarted => values = [] ∧ driverResults = []
  | .racing await => setup.Comes values (.pending await) ∧ driverResults = []
  | .waiting driverRes await => setup.Comes values (.pending await) ∧ driverResults = [driverRes]
  | .joining output => setup.Comes values (.ready (.ok output)) ∧ driverResults = []
  | .returned result => setup.Returns values driverResults result
  | .dropped => driverResults = [] ∨ ∃ await, setup.Comes values (.pending await)

variable {setup} {s t : Session σ α T} {e : Event κ ν T}

theorem At.step {values : List ν} {driverResults : List (DriverResult T)}
    (h : setup.At values driverResults s.phase) (hstep : setup.step s e = some t) :
    setup.At (e.value.toList ++ values) (e.driverResult.toList ++ driverResults) t.phase := by
  cases (setup.step_eq_some).mp hstep with
  | @start w k =>
    obtain ⟨rfl, rfl⟩ := h
    rw [start]
    split
    case h_1 herror => exact .unspawned herror
    case h_2 herror => exact .refused herror
    case h_3 hready => exact ⟨.enter hready, rfl⟩
  | @race w await value p hp =>
    obtain ⟨hcomes, rfl⟩ := h
    obtain ⟨w', next | (e | output)⟩ := p
    · exact ⟨.resume hcomes hp, rfl⟩
    · exact .failed (.resume hcomes hp) (by simp [Event.driverResult])
    · exact ⟨.resume hcomes hp, rfl⟩
  | @wait w await value p driverRes hp =>
    obtain ⟨hcomes, rfl⟩ := h
    obtain ⟨w', next | (e | output)⟩ := p
    · exact ⟨.resume hcomes hp, rfl⟩
    · exact .failed (.resume hcomes hp) (by simp [Event.driverResult])
    · exact .finished (.resume hcomes hp)
  | early =>
    obtain ⟨hcomes, rfl⟩ := h
    exact .early hcomes
  | late =>
    obtain ⟨hcomes, rfl⟩ := h
    exact ⟨hcomes, rfl⟩
  | join =>
    obtain ⟨hcomes, rfl⟩ := h
    exact .finished hcomes
  | finish => exact h
  | @drop w phase hlive =>
    cases phase with
    | unstarted | racing | joining => exact .inl h.2
    | waiting => exact .inr ⟨_, h.1⟩
    | returned | dropped => cases hlive

theorem handed_cons (h : List (Session σ α T × Event κ ν T)) (s : Session σ α T)
    (e : Event κ ν T) : handed ((s, e) :: h) = e.value.toList ++ handed h := by
  cases e <;> rfl

/-- The race refines the block. -/
theorem at_of_run {h : List (Session σ α T × Event κ ν T)}
    (hrun : (setup.machine (T := T)).Run h t) :
    setup.At (handed h) (driverResults h) t.phase := by
  induction hrun with
  | nil => exact ⟨rfl, rfl⟩
  | @cons h s t e _ hstep ih =>
    have hat := ih.step hstep
    have hdriver : driverResults ((s, e) :: h) = e.driverResult.toList ++ driverResults h := by
      cases e <;> rfl
    rwa [handed_cons, hdriver]

theorem Returns.eq_ok {values : List ν} {driverResults : List (DriverResult T)} {output : α}
    {io : T} (h : setup.Returns values driverResults (.ok (output, io))) :
    setup.Comes values (.ready (.ok output)) ∧ driverResults = [.ok (.ok io)] := by
  generalize hresult : (.ok (output, io) : Except SessionError (α × T)) = result at h
  cases h with
  | unspawned | refused | failed | early => cases hresult
  | @finished _ driverRes output' hcomes =>
    rcases driverRes with e | e | io'
    · cases hresult
    · cases hresult
    · cases hresult
      exact ⟨hcomes, rfl⟩

/-- A step that does not cost the call the result it would have with the socket `io`. -/
def Spares (setup : Setup κ σ ν α) (io : T) (s : Session σ α T) : Event κ ν T → Prop
  | .start k => ∃ await, setup.enter k = .ok (.ok await)
  | .driver driverRes => driverRes = .ok (.ok io) ∧
      ∀ await, s.phase = .racing await → s.world.established = true
  | .drop => False
  | .resolve _ | .finish _ => True

def Live (w : World) (task : Task) : Prop :=
  w.tasks task = .running ∨ w.tasks task = .finished

/-- A block of one first await.  What an await resolves to decides how it goes on, once the
tasks it joins have finished, and the tasks it holds are there. -/
structure Answers (setup : Setup κ σ ν α) : Prop where
  sound : setup.Sound
  entered : ∀ {k k' : κ} {await await' : σ}, setup.enter k = .ok (.ok await) →
    setup.enter k' = .ok (.ok await') → await = await'
  fresh : ∀ {k : κ} {await : σ} {task : Task}, setup.enter k = .ok (.ok await) →
    ¬ Holds (setup.locals await) task
  unguarded : ∀ {await : σ}, guarded .driver ∉ setup.locals await
  resume : ∀ {await : σ} {value : ν} {w w' : World} {poll : Poll σ α} (v : World),
    setup.resume await value w = some (w', poll) →
    (∀ task, .handle ⟨task⟩ ∈ setup.locals await → v.tasks task = .finished) →
    ∃ v', setup.resume await value v = some (v', poll)
  live : ∀ {await next : σ} {value : ν} {w w' : World},
    setup.resume await value w = some (w', .pending next) →
    (∀ task, Holds (.guard driverTask :: setup.locals await) task → Live w task) →
    ∀ task, Holds (.guard driverTask :: setup.locals next) task → Live w' task

section Comes

variable {values : List ν} {await : σ} {poll poll' : Poll σ α} {result : Except SessionError α}

theorem Answers.unique (ha : setup.Answers) (h : setup.Comes values poll)
    (h' : setup.Comes values poll') : poll = poll' := by
  induction h generalizing poll' with
  | enter hk =>
    cases h' with
    | enter hk' => rw [ha.entered hk hk']
  | resume _ hp ih =>
    cases h' with
    | resume hcomes hp' =>
      cases ih hcomes
      let idle : World := ⟨fun _ => .finished, true⟩
      obtain ⟨v, hv⟩ := ha.resume idle hp fun _ _ => rfl
      obtain ⟨v', hv'⟩ := ha.resume idle hp' fun _ _ => rfl
      exact (Prod.mk.inj (Option.some.inj (hv.symm.trans hv'))).2

theorem Comes.before {later : List ν} {value : ν}
    (h : setup.Comes (value :: (later ++ values)) poll) :
    ∃ await, setup.Comes values (.pending await) := by
  induction later generalizing value poll with
  | nil =>
    cases h with
    | resume hcomes => exact ⟨_, hcomes⟩
  | cons _ _ ih =>
    cases h with
    | resume hcomes => exact ih hcomes

theorem Answers.eq_nil_of_ready (ha : setup.Answers) {later : List ν}
    (h : setup.Comes (later ++ values) poll) (hready : setup.Comes values (.ready result)) :
    later = [] := by
  cases later with
  | nil => rfl
  | cons =>
    obtain ⟨await, hpending⟩ := h.before
    cases ha.unique hpending hready

theorem Answers.eq_of_comes (ha : setup.Answers) {result : Except SessionError (α × T)}
    {output : α} {io : T} (hcomes : setup.Comes values (.ready (.ok output)))
    (h : setup.Returns values [.ok (.ok io)] result) : result = .ok (output, io) := by
  cases h with
  | failed herror => cases ha.unique hcomes herror
  | early hpending => cases ha.unique hcomes hpending
  | finished hok =>
    cases ha.unique hcomes hok
    rfl

end Comes

section Runs

variable {h : List (Session σ α T × Event κ ν T)} {p : Session σ α T × Event κ ν T} {output : α}
  {io : T}

theorem eq_of_ended (hrun : (setup.machine (T := T)).Run h t) (hp : p ∈ h)
    (hstep : setup.step p.1 p.2 = some s) (hend : s.phase.ended = true) : s = t := by
  obtain ⟨u, hu, hpu⟩ := hrun.exists_step hp
  obtain rfl := Option.some.inj (hstep.symm.trans hpu)
  obtain rfl | hu := List.mem_cons.mp hu
  · rfl
  · obtain ⟨⟨_, e⟩, hmem, rfl⟩ := List.mem_map.mp hu
    obtain ⟨v, -, hv⟩ := hrun.exists_step hmem
    simp [live_of_step hv] at hend

theorem Answers.returned_iff (ha : setup.Answers) (hrun : (setup.machine (T := T)).Run h t) :
    t.phase = .returned (.ok (output, io)) ↔
      setup.Comes (handed h) (.ready (.ok output)) ∧ driverResults h = [.ok (.ok io)] := by
  have hat := at_of_run hrun
  constructor
  · intro hphase
    rw [hphase] at hat
    exact hat.eq_ok
  · rintro ⟨hcomes, hdriver⟩
    rw [hdriver] at hat
    cases hphase : t.phase with
    | unstarted | racing | joining =>
      rw [hphase] at hat
      cases hat.2
    | waiting =>
      rw [hphase] at hat
      cases ha.unique hcomes hat.1
    | dropped =>
      rw [hphase] at hat
      obtain hnone | ⟨await, hpending⟩ := hat
      · cases hnone
      · cases ha.unique hcomes hpending
    | returned result =>
      rw [hphase] at hat
      rw [ha.eq_of_comes hcomes hat]

theorem mem_driverResults {driverRes : DriverResult T} (hp : p ∈ h)
    (hevent : p.2 = .driver driverRes) : driverRes ∈ driverResults h :=
  List.mem_filterMap.mpr ⟨p, hp, by rw [hevent]; rfl⟩

theorem Answers.spares_of_returned (ha : setup.Answers)
    (hrun : (setup.machine (T := T)).Run h t) (hphase : t.phase = .returned (.ok (output, io))) :
    ∀ p ∈ h, setup.Spares io p.1 p.2 := by
  rintro ⟨s, e⟩ hp
  obtain ⟨u, hu, hstep⟩ := hrun.exists_step hp
  have hlast : u.phase.ended = true → u.phase = .returned (.ok (output, io)) := by
    intro hend
    rw [eq_of_ended hrun hp hstep hend, hphase]
  cases e with
  | resolve | finish => trivial
  | drop =>
    cases setup.step_eq_some.mp hstep with
    | drop => cases hlast rfl
  | start k =>
    cases setup.step_eq_some.mp hstep with
    | start =>
      rw [start] at hlast
      split at hlast
      case h_1 | h_2 => cases hlast rfl
      case h_3 await hk => exact ⟨await, hk⟩
  | driver driverRes =>
    constructor
    · have hmem := mem_driverResults hp rfl
      rw [((ha.returned_iff hrun).mp hphase).2] at hmem
      exact List.mem_singleton.mp hmem
    · rintro await hracing
      cases setup.step_eq_some.mp hstep with
      | early => cases hlast rfl
      | late _ hest => exact hest
      | join => cases hracing

end Runs

def Standing (setup : Setup κ σ ν α) (s : Session σ α T) : Prop :=
  ∀ task, Holds (setup.frame s.phase) task → Live s.world task

theorem Live.finish {w : World} {task : Task} (other : Task) (h : Live w task) :
    Live { w with tasks := w.tasks.finish other } task := by
  by_cases heq : task = other
  · exact .inr ((Tasks.finish_eq_finished ..).mpr (.inl heq))
  · exact h.imp (fun h => (Tasks.finish_eq_running ..).mpr ⟨heq, h⟩)
      fun h => (Tasks.finish_eq_finished ..).mpr (.inr h)

theorem Live.spawned (w : World) (task : Task) : Live (w.spawn task) task :=
  .inl ((Tasks.spawn_eq_running ..).mpr (.inl rfl))

theorem Live.spawn {w : World} {task : Task} (other : Task) (h : Live w task) :
    Live (w.spawn other) task := by
  by_cases heq : task = other
  · exact .inl ((Tasks.spawn_eq_running ..).mpr (.inl heq))
  · exact h.imp (fun h => (Tasks.spawn_eq_running ..).mpr (.inr h))
      fun h => (Function.update_of_ne heq ..).trans h

theorem Standing.joining (ha : setup.Answers) {await : σ} {value : ν} {w w' : World}
    {result : Except SessionError α} {output : α}
    (hp : setup.resume await value w = some (w', .ready result))
    (h : ∀ task, Holds (.guard driverTask :: setup.locals await) task → Live w task) :
    setup.Standing (T := T) ⟨.joining output, w'.drop (setup.locals await)⟩ := by
  rintro task (hguard | hhandle)
  · simp [frame, driverTask, AbortOnDrop.intoInner, AbortOnDrop.new, guarded] at hguard
  · obtain rfl := handle_mem_joining.mp hhandle
    have hlive := h .driver (.inl List.mem_cons_self)
    rw [Live, World.drop, (ha.sound.ready hp).1, dropAll_eq_running, dropAll_eq_finished]
    exact hlive.imp_left fun hrun => ⟨ha.unguarded, hrun⟩

theorem Standing.step (ha : setup.Answers) (h : setup.Standing s)
    (hstep : setup.step s e = some t) : setup.Standing t := by
  have hnone {phase : Phase σ α T} {w : World} (hframe : setup.frame phase = []) :
      setup.Standing ⟨phase, w⟩ := fun _ hholds => by simp [Holds, hframe] at hholds
  cases (setup.step_eq_some).mp hstep with
  | @start w k =>
    rw [start]
    split
    case h_1 | h_2 => exact hnone rfl
    case h_3 hk =>
      rintro task hholds
      have hdriver : task = .driver := by
        obtain hguard | hhandle := hholds
        · obtain heq | hguard := List.mem_cons.mp hguard
          · simpa [guarded, driverTask, AbortOnDrop.new] using heq
          · exact absurd (.inl hguard) (ha.fresh hk)
        · exact absurd (.inr (handle_mem_frame.mp hhandle)) (ha.fresh hk)
      exact hdriver ▸ .spawned w _
  | @race w await value p hp =>
    obtain ⟨w', next | (e | output)⟩ := p
    · exact ha.live hp h
    · exact hnone rfl
    · exact .joining ha hp h
  | @wait w await value p driverRes hp =>
    obtain ⟨w', next | (e | output)⟩ := p
    · exact ha.live hp h
    · exact hnone rfl
    · exact hnone rfl
  | late => exact h
  | finish => exact fun task hholds => (h task hholds).finish _
  | early | join | drop => exact hnone rfl

section Runs

variable {h : List (Session σ α T × Event κ ν T)} {await : σ} {w : World} {values : List ν}
  {phase : Phase σ α T} {output : α} {io : T}

theorem Answers.standing (ha : setup.Answers) (hrun : (setup.machine (T := T)).Run h t) :
    setup.Standing t := by
  induction hrun with
  | nil => exact fun _ hholds => by simp [Holds, machine, frame] at hholds
  | cons _ hstep ih => exact ih.step ha hstep

theorem exists_finished (hrun : (setup.machine (T := T)).Run h ⟨phase, w⟩)
    (hlive : phase.ended = false) : ∃ k w', (setup.machine (T := T)).Run (k ++ h) ⟨phase, w'⟩ ∧
      ∀ task, Live w task → w'.tasks task = .finished := by
  suffices ∀ ts : List Task, ∃ k w', (setup.machine (T := T)).Run (k ++ h) ⟨phase, w'⟩ ∧
      (∀ task, Live w task → Live w' task) ∧
      ∀ task ∈ ts, Live w task → w'.tasks task = .finished by
    obtain ⟨k, w', hk, -, hdone⟩ := this [.driver, .prover, .conn]
    refine ⟨k, w', hk, fun task => hdone task ?_⟩
    cases task <;> decide
  intro ts
  induction ts with
  | nil => exact ⟨[], w, hrun, fun _ => id, nofun⟩
  | cons other ts ih =>
    obtain ⟨k, w', hk, hkeeps, hdone⟩ := ih
    by_cases hother : w'.tasks other = .running
    · refine ⟨(⟨phase, w'⟩, .finish other) :: k, { w' with tasks := w'.tasks.finish other },
        hk.cons (setup.step_eq_some.mpr (.finish hlive hother)),
        fun task htask => (hkeeps task htask).finish other, fun task hmem htask => ?_⟩
      rw [Tasks.finish_eq_finished]
      exact (List.mem_cons.mp hmem).imp_right fun hmem => hdone task hmem htask
    · refine ⟨k, w', hk, hkeeps, fun task hmem htask => ?_⟩
      obtain rfl | hmem := List.mem_cons.mp hmem
      · exact (hkeeps task htask).resolve_left hother
      · exact hdone task hmem htask

theorem Answers.exists_joined (ha : setup.Answers)
    (hrun : (setup.machine (T := T)).Run h ⟨.joining output, w⟩) (io : T) :
    ∃ k u, (setup.machine (T := T)).Run (k ++ h) u ∧
      u.phase = .returned (.ok (output, io)) := by
  obtain ⟨k, w', hk, hdone⟩ := exists_finished hrun rfl
  have hdriver := hdone .driver (ha.standing hrun .driver (.inr (handle_mem_joining.mpr rfl)))
  have hjoin : (setup.machine (T := T)).step ⟨.joining output, w'⟩ (.driver (.ok (.ok io))) =
      some ⟨.returned (.ok (output, io)), w'⟩ := setup.step_eq_some.mpr (.join hdriver)
  exact ⟨_ :: k, _, hk.cons hjoin, rfl⟩

/-- Whether the driver has been found or not, the awaits that are left lead to the result. -/
theorem Answers.exists_returned (ha : setup.Answers) {rest : List ν}
    (hrun : (setup.machine (T := T)).Run h ⟨phase, w⟩)
    (hphase : phase = .racing await ∨ phase = .waiting (.ok (.ok io)) await)
    (hcomes : setup.Comes values (.pending await))
    (hrest : setup.Comes (rest ++ values) (.ready (.ok output))) :
    ∃ k u, (setup.machine (T := T)).Run (k ++ h) u ∧
      u.phase = .returned (.ok (output, io)) := by
  induction rest using List.reverseRecOn generalizing h phase w await values with
  | nil => cases ha.unique hcomes hrest
  | append_singleton rest value ih =>
    rw [List.append_assoc, List.singleton_append] at hrest
    obtain ⟨poll, hpoll⟩ : ∃ poll, setup.Comes (value :: values) poll := by
      cases rest with
      | nil => exact ⟨_, hrest⟩
      | cons =>
        obtain ⟨next, hnext⟩ := hrest.before
        exact ⟨_, hnext⟩
    have hlive : phase.ended = false := by rcases hphase with rfl | rfl <;> rfl
    obtain ⟨k, w', hk, hdone⟩ := exists_finished hrun hlive
    obtain ⟨v, hv⟩ : ∃ v, setup.resume await value w' = some (v, poll) := by
      cases hpoll with
      | resume hbefore hp =>
        cases ha.unique hcomes hbefore
        refine ha.resume w' hp fun task hmem => hdone task (ha.standing hrun task ?_)
        rcases hphase with rfl | rfl <;> exact .inr (handle_mem_frame.mpr hmem)
    -- The next await, or the end of the block.
    cases poll with
    | pending next =>
      obtain ⟨phase', hstep, hphase'⟩ : ∃ phase',
          setup.step ⟨phase, w'⟩ (.resolve value) = some ⟨phase', v⟩ ∧
          (phase' = .racing next ∨ phase' = .waiting (.ok (.ok io)) next) := by
        rcases hphase with rfl | rfl
        · exact ⟨_, setup.step_eq_some.mpr (.race hv), .inl rfl⟩
        · exact ⟨_, setup.step_eq_some.mpr (.wait hv), .inr rfl⟩
      obtain ⟨k', u, hu, hreturned⟩ := ih (hk.cons hstep) hphase' hpoll hrest
      exact ⟨k' ++ (_ :: k), u, by simpa using hu, hreturned⟩
    | ready result =>
      obtain rfl := ha.eq_nil_of_ready hrest hpoll
      cases ha.unique hpoll hrest
      rcases hphase with rfl | rfl
      · obtain ⟨k', u, hu, hreturned⟩ :=
          ha.exists_joined (hk.cons (setup.step_eq_some.mpr (.race hv))) io
        exact ⟨k' ++ (_ :: k), u, by simpa using hu, hreturned⟩
      · exact ⟨_ :: k, _, hk.cons (setup.step_eq_some.mpr (.wait hv)), rfl⟩

theorem Comes.entered {poll : Poll σ α} (h : setup.Comes values poll) :
    ∃ k await, setup.enter k = .ok (.ok await) := by
  induction h with
  | enter hk => exact ⟨_, _, hk⟩
  | resume _ _ ih => exact ih

theorem eq_of_spares {driverRes : DriverResult T} (hspares : ∀ p ∈ h, setup.Spares io p.1 p.2)
    (hmem : driverRes ∈ driverResults h) : driverRes = .ok (.ok io) := by
  obtain ⟨⟨s, e⟩, hp, he⟩ := List.mem_filterMap.mp hmem
  cases e with
  | driver found =>
    obtain rfl := Option.some.inj he
    exact (hspares _ hp).1
  | start | resolve | finish | drop => cases he

theorem Answers.eq_of_step (ha : setup.Answers) {driverResults : List (DriverResult T)}
    {rest : List ν} (hat : setup.At values driverResults s.phase)
    (hstep : setup.step s e = some t) (hend : t.phase.ended = true) (hspares : setup.Spares io s e)
    (hwaiting : ∀ driverRes await, s.phase = .waiting driverRes await → driverRes = .ok (.ok io))
    (hrest : setup.Comes (rest ++ (e.value.toList ++ values)) (.ready (.ok output))) :
    t.phase = .returned (.ok (output, io)) := by
  cases setup.step_eq_some.mp hstep with
  | @start w k =>
    obtain ⟨await, hk⟩ := hspares
    rw [start, hk] at hend
    cases hend
  | @race w await value p hp =>
    obtain ⟨w', next | (error | found)⟩ := p
    · cases hend
    · have herror := Comes.resume hat.1 hp
      obtain rfl := ha.eq_nil_of_ready hrest herror
      cases ha.unique hrest herror
    · cases hend
  | @wait w await value p driverRes hp =>
    obtain rfl := hwaiting _ _ rfl
    obtain ⟨w', next | result⟩ := p
    · cases hend
    · have hready := Comes.resume hat.1 hp
      obtain rfl := ha.eq_nil_of_ready hrest hready
      cases ha.unique hrest hready
      rfl
  | early _ hest =>
    rw [hspares.2 _ rfl] at hest
    cases hest
  | late | drop => cases hend <;> exact hspares.elim
  | @join w found driverRes =>
    obtain rfl := hspares.1
    obtain rfl := ha.eq_nil_of_ready hrest hat.1
    cases ha.unique hrest hat.1
    rfl
  | finish hlive =>
    have hboth := hlive.symm.trans hend
    cases hboth

/-- A run may still return the result exactly when what was handed over begins what the
result comes of, and no step has cost it. -/
theorem Answers.returns_iff (ha : setup.Answers) (hrun : (setup.machine (T := T)).Run h t) :
    (∃ k u, (setup.machine (T := T)).Run (k ++ h) u ∧ u.phase = .returned (.ok (output, io))) ↔
      (∃ rest, setup.Comes (rest ++ handed h) (.ready (.ok output))) ∧
        ∀ p ∈ h, setup.Spares io p.1 p.2 := by
  constructor
  · rintro ⟨k, u, hu, hreturned⟩
    have hcomes := ((ha.returned_iff hu).mp hreturned).1
    rw [handed, List.filterMap_append] at hcomes
    exact ⟨⟨_, hcomes⟩, fun p hp =>
      ha.spares_of_returned hu hreturned p (List.mem_append_right k hp)⟩
  · rintro ⟨⟨rest, hrest⟩, hspares⟩
    obtain ⟨phase, w⟩ := t
    have hat := at_of_run hrun
    cases phase with
    | unstarted =>
      obtain ⟨k, await, hk⟩ := hrest.entered
      have hstart : (setup.machine (T := T)).step ⟨.unstarted, w⟩ (.start k) =
          some ⟨.racing await, w.spawn .driver⟩ := by
        have hmoves := setup.step_eq_some.mpr (.start (w := w) (k := k) (T := T))
        rw [start, hk] at hmoves
        exact hmoves
      rw [hat.1] at hrest
      obtain ⟨k', u, hu, hreturned⟩ :=
        ha.exists_returned (hrun.cons hstart) (.inl rfl) (.enter hk) hrest
      exact ⟨k' ++ [_], u, by simpa using hu, hreturned⟩
    | racing await => exact ha.exists_returned hrun (.inl rfl) hat.1 hrest
    | waiting driverRes await =>
      obtain rfl : driverRes = .ok (.ok io) := eq_of_spares hspares (by simp [hat.2])
      exact ha.exists_returned hrun (.inr rfl) hat.1 hrest
    | joining found =>
      obtain rfl := ha.eq_nil_of_ready hrest hat.1
      cases ha.unique hrest hat.1
      exact ha.exists_joined hrun io
    | returned | dropped =>
      cases hrun with
      | @cons h s _ e hrun' hstep =>
        rw [List.forall_mem_cons] at hspares
        rw [handed_cons] at hrest
        have hwaiting : ∀ driverRes await, s.phase = .waiting driverRes await →
            driverRes = .ok (.ok io) := by
          intro driverRes await hphase
          have hbefore := at_of_run hrun'
          rw [hphase] at hbefore
          exact eq_of_spares hspares.2 (by simp [hbefore.2])
        exact ⟨[], _, hrun'.cons hstep,
          ha.eq_of_step (at_of_run hrun') hstep rfl hspares.1 hwaiting hrest⟩

end Runs

end Setup

namespace VerifierSetup

variable {display : Direction → String} {values : List VerifierValue}

theorem overrun_eq_none_iff {tlsTranscript : TlsTranscript} {request : ProveRequest} :
    overrun tlsTranscript request = none ↔ ∀ direction idx, request.Commits direction idx →
      ∀ r ∈ idx.ranges, r.stop ≤ tlsTranscript.dataLen direction := by
  constructor
  · intro h direction idx hidx
    exact stop_le_of_overrun_eq_none h hidx
  · intro h
    rw [Option.eq_none_iff_forall_ne_some]
    rintro ⟨direction, stop, len⟩ hsome
    obtain ⟨rfl, hlt, idx, hidx, r, hr, rfl⟩ := overrun_eq_some hsome
    exact absurd (h direction idx hidx r hr) (Nat.not_le.mpr hlt)

structure Allows (config : MpcTlsConfig) : Prop where
  sent : config.maxSentData ≤ maxSentData
  recv : config.maxRecvData ≤ maxRecvData

/-- The request shows the server's identity, and commits to nothing past the session. -/
structure Admits (tlsTranscript : TlsTranscript) (request : ProveRequest) : Prop where
  identity : request.serverIdentity = true
  within : ∀ direction idx, request.Commits direction idx →
    ∀ r ∈ idx.ranges, r.stop ≤ tlsTranscript.dataLen direction

structure Unpacks (tlsTranscript : TlsTranscript) (output : VerifierOutput)
    (session : VerifierSession) : Prop where
  serverName : output.serverName = some session.serverName
  transcript : output.transcript = some session.transcript
  tlsTranscript : session.tlsTranscript = tlsTranscript
  commitments : session.transcriptCommitments = output.transcriptCommitments

inductive Went : List VerifierValue → VerifierAwait → Prop
  | commit : Went [] .commit
  | accept {config : MpcTlsConfig} : Allows config →
      Went [.commit (.ok (.mpc config))] .accept
  | run {values : List VerifierValue} : Went values .accept →
      Went (.accept (.ok ()) :: values) .run
  | verify {values : List VerifierValue} {tlsTranscript : TlsTranscript} : Went values .run →
      Went (.run (.ok tlsTranscript) :: values) (.verify tlsTranscript)
  | acceptVerify {values : List VerifierValue} {tlsTranscript : TlsTranscript}
      {request : ProveRequest} : Went values (.verify tlsTranscript) →
      Admits tlsTranscript request →
      Went (.verify (.ok request) :: values) (.acceptVerify tlsTranscript)
  | close {values : List VerifierValue} {tlsTranscript : TlsTranscript}
      {output : VerifierOutput} {session : VerifierSession} :
      Went values (.acceptVerify tlsTranscript) → Unpacks tlsTranscript output session →
      Went (.acceptVerify (.ok output) :: values) (.close session)

variable {await next : VerifierAwait} {value : VerifierValue} {w w' : World}
  {session : VerifierSession}

def rejects : VerifierAwait → Bool
  | .rejectLimits | .rejectIdentity | .rejectRange .. => true
  | _ => false

theorem Went.examine {tlsTranscript : TlsTranscript} {request : ProveRequest}
    (h : Went values (.verify tlsTranscript))
    (hgo : rejects (examine tlsTranscript request) = false) :
    Went (.verify (.ok request) :: values) (examine tlsTranscript request) := by
  rw [VerifierSetup.examine] at hgo ⊢
  split at hgo
  case isTrue => cases hgo
  case isFalse hidentity =>
    rw [if_neg hidentity]
    split at hgo
    case h_1 => cases hgo
    case h_2 hnone =>
      exact .acceptVerify h ⟨by simpa using hidentity, overrun_eq_none_iff.mp hnone⟩

theorem Went.unpack {tlsTranscript : TlsTranscript} {output : VerifierOutput}
    (h : Went values (.acceptVerify tlsTranscript))
    (hnext : unpack tlsTranscript output = .pending next) :
    Went (.acceptVerify (.ok output) :: values) next := by
  rw [VerifierSetup.unpack] at hnext
  split at hnext
  case h_1 | h_2 => cases hnext
  case h_3 hserver htranscript =>
    cases hnext
    exact .close h ⟨hserver, htranscript, rfl, rfl⟩

theorem Went.resume (h : Went values await)
    (hp : VerifierSetup.resume display await value w = some (w', .pending next))
    (hgo : rejects next = false) : Went (value :: values) next := by
  unfold VerifierSetup.resume at hp
  split at hp
  case h_2 =>
    cases h
    split at hp
    case isTrue =>
      cases hp
      exact nomatch hgo
    case isFalse hlimits =>
      cases hp
      rw [not_or, Nat.not_lt, Nat.not_lt] at hlimits
      exact .accept ⟨hlimits.1, hlimits.2⟩
  case h_7 =>
    cases hp
    exact .run h
  case h_9 =>
    cases hp
    exact .verify h
  case h_11 =>
    cases hp
    exact h.examine hgo
  case h_17 =>
    rw [Option.some.injEq, Prod.mk.injEq] at hp
    exact h.unpack hp.2
  all_goals cases hp

theorem went_of_comes (h : (verifierSetup display).Comes values (.pending await))
    (hgo : rejects await = false) : Went values await := by
  generalize hpoll : (.pending await : Poll VerifierAwait VerifierSession) = poll at h
  induction h generalizing await with
  | @enter k await' hk =>
    cases hpoll
    cases k with
    | config | newVerifier => exact nomatch Except.ok.inj hk
    | ready =>
      cases hk
      exact .commit
  | @resume values before value _ w w' _ hp ih =>
    subst hpoll
    -- A step that turns the session down is the last one.
    have hbefore : rejects before = false := by
      have hpeer := (resume_pending hp).1
      cases before <;> first | rfl | exact nomatch hpeer
    exact (ih hbefore rfl).resume hp hgo

theorem resume_ready_ok (h : VerifierSetup.resume display await value w =
    some (w', .ready (.ok session))) : await = .close session ∧ value = .close (.ok ()) := by
  unfold VerifierSetup.resume at h
  split at h
  case h_2 => split at h <;> cases h
  case h_17 =>
    rw [Option.some.injEq, Prod.mk.injEq, VerifierSetup.unpack] at h
    split at h
    case h_1 | h_2 | h_3 => cases h.2
  case h_19 =>
    cases h
    exact ⟨rfl, rfl⟩
  all_goals cases h

/-- The values of a session that goes well, the first first. -/
inductive Notarizes : List VerifierValue → VerifierSession → Prop
  | intro {config : MpcTlsConfig} {tlsTranscript : TlsTranscript} {request : ProveRequest}
      {output : VerifierOutput} {session : VerifierSession} :
      Allows config → Admits tlsTranscript request → Unpacks tlsTranscript output session →
      Notarizes [.commit (.ok (.mpc config)), .accept (.ok ()), .run (.ok tlsTranscript),
        .verify (.ok request), .acceptVerify (.ok output), .close (.ok ())] session

theorem Went.notarizes (h : Went values (.close session)) :
    Notarizes (.close (.ok ()) :: values).reverse session := by
  cases h with
  | close h hunpacks =>
    cases h with
    | acceptVerify h hadmits =>
      cases h with
      | verify h =>
        cases h with
        | run h =>
          cases h with
          | accept hallows => exact .intro hallows hadmits hunpacks

theorem notarizes_of_comes (h : (verifierSetup display).Comes values (.ready (.ok session))) :
    Notarizes values.reverse session := by
  cases h with
  | resume hcomes hp =>
    obtain ⟨rfl, rfl⟩ := resume_ready_ok hp
    exact (went_of_comes hcomes rfl).notarizes

theorem resume_of_allows {config : MpcTlsConfig} (h : Allows config) :
    (verifierSetup display).resume .commit (.commit (.ok (.mpc config))) w =
      some (w, .pending .accept) := by
  have hsent := h.sent
  have hrecv := h.recv
  exact if_neg (by omega)

theorem examine_of_admits {tlsTranscript : TlsTranscript} {request : ProveRequest}
    (h : Admits tlsTranscript request) :
    VerifierSetup.examine tlsTranscript request = .acceptVerify tlsTranscript := by
  simp only [VerifierSetup.examine, h.identity, overrun_eq_none_iff.mpr h.within, Bool.not_true,
    Bool.false_eq_true, if_false]

theorem resume_of_admits {tlsTranscript : TlsTranscript} {request : ProveRequest}
    (h : Admits tlsTranscript request) :
    (verifierSetup display).resume (.verify tlsTranscript) (.verify (.ok request)) w =
      some (w, .pending (.acceptVerify tlsTranscript)) := by
  simp only [verifierSetup, VerifierSetup.resume, examine_of_admits h]

theorem resume_of_unpacks {tlsTranscript : TlsTranscript} {output : VerifierOutput}
    (h : Unpacks tlsTranscript output session) :
    (verifierSetup display).resume (.acceptVerify tlsTranscript) (.acceptVerify (.ok output)) w =
      some (w, .pending (.close session)) := by
  simp only [verifierSetup, VerifierSetup.resume, VerifierSetup.unpack, h.serverName,
    h.transcript, ← h.tlsTranscript, ← h.commitments]

theorem Notarizes.comes (h : Notarizes values session) :
    (verifierSetup display).Comes values.reverse (.ready (.ok session)) := by
  obtain @⟨config, tlsTranscript, request, output, session, hallows, hadmits, hunpacks⟩ := h
  let w : World := ⟨fun _ => .finished, true⟩
  have hcommit : (verifierSetup display).Comes [] (.pending .commit) := .enter (k := .ready) rfl
  have haccept := hcommit.resume (w := w) (resume_of_allows hallows)
  have hrun : (verifierSetup display).Comes [.accept (.ok ()), .commit (.ok (.mpc config))]
      (.pending .run) := haccept.resume (w := w) rfl
  have hverify : (verifierSetup display).Comes
      [.run (.ok tlsTranscript), .accept (.ok ()), .commit (.ok (.mpc config))]
      (.pending (.verify tlsTranscript)) := hrun.resume (w := w) rfl
  have hproof := hverify.resume (w := w) (resume_of_admits hadmits)
  have hclose := hproof.resume (w := w) (resume_of_unpacks hunpacks)
  exact hclose.resume (w := w) rfl

theorem comes_iff : (verifierSetup display).Comes values (.ready (.ok session)) ↔
    Notarizes values.reverse session := by
  constructor
  · exact notarizes_of_comes
  · intro h
    rw [← List.reverse_reverse values]
    exact h.comes

theorem resume_world (v : World) {poll : Poll VerifierAwait VerifierSession}
    (h : VerifierSetup.resume display await value w = some (w', poll)) :
    ∃ v', VerifierSetup.resume display await value v = some (v', poll) := by
  unfold VerifierSetup.resume at h
  split at h
  case h_2 =>
    split at h
    case isTrue hlimits =>
      cases h
      exact ⟨v, if_pos hlimits⟩
    case isFalse hlimits =>
      cases h
      exact ⟨v, if_neg hlimits⟩
  case h_20 => cases h
  all_goals
    cases h
    exact ⟨_, rfl⟩

theorem answers (display : Direction → String) : (verifierSetup display).Answers where
  sound := verifierSetup_sound display
  entered {k k'} _ _ h h' := by
    cases k with
    | config | newVerifier => cases Except.ok.inj h
    | ready =>
      cases k' with
      | config | newVerifier => cases Except.ok.inj h'
      | ready =>
        cases h
        cases h'
        rfl
  fresh _ hholds := by simp [Setup.Holds, verifierSetup] at hholds
  unguarded := nofun
  resume v h _ := resume_world v h
  live h hlive task hholds := by
    have htasks := VerifierSetup.resume_tasks h
    rw [Setup.Live, htasks]
    exact hlive task hholds

end VerifierSetup

/-- Whatever the scheduler has done: the verifier has returned a session exactly when its awaits
resolved to one that meets the code's terms and the driver was found to have handed back the
socket; and it may still return one exactly when the values so far begin such a session's and
no step has cost it. -/
theorem verifier_returns_iff (display : Direction → String) {T : Type}
    {h : List (VerifierState T × VerifierEvent T)} {t : VerifierState T}
    (hrun : (verifier display).Run h t) (session : VerifierSession) (io : T) :
    (t.phase = .returned (.ok (session, io)) ↔
      VerifierSetup.Notarizes (handed h).reverse session ∧ driverResults h = [.ok (.ok io)]) ∧
    ((∃ k u, (verifier display).Run (k ++ h) u ∧ u.phase = .returned (.ok (session, io))) ↔
      (∃ rest, VerifierSetup.Notarizes ((handed h).reverse ++ rest) session) ∧
        ∀ p ∈ h, (verifierSetup display).Spares io p.1 p.2) := by
  have ha := VerifierSetup.answers display
  constructor
  · rw [ha.returned_iff hrun, VerifierSetup.comes_iff]
  · apply (ha.returns_iff hrun).trans
    apply and_congr_left
    intro _
    constructor
    · rintro ⟨rest, hrest⟩
      exact ⟨rest.reverse, by simpa using VerifierSetup.comes_iff.mp hrest⟩
    · rintro ⟨rest, hrest⟩
      exact ⟨rest.reverse, VerifierSetup.comes_iff.mpr (by simpa using hrest)⟩

/-- The driver ends well while the proof is awaited. -/
theorem verifier_returns_iff_run :
    let session : VerifierSession := ⟨.dns "example.com", .unopened [] [], ⟨[], []⟩, []⟩
    ∃ h, ∃ t : VerifierState Unit, (verifier fun _ => "").Run h t ∧
      t.phase = .waiting (.ok (.ok ())) (.verify ⟨[], []⟩) ∧
      ∃ k u, (verifier fun _ => "").Run (k ++ h) u ∧
        u.phase = .returned (.ok (session, ())) := by
  intro session
  let tasks : Tasks Task := Tasks.spawn (fun _ => .unspawned) .driver
  let h : List (VerifierState Unit × VerifierEvent Unit) :=
    [(⟨.racing (.verify ⟨[], []⟩), ⟨tasks.finish .driver, true⟩⟩, .driver (.ok (.ok ()))),
    (⟨.racing (.verify ⟨[], []⟩), ⟨tasks, true⟩⟩, .finish .driver),
    (⟨.racing .run, ⟨tasks, false⟩⟩, .resolve (.run (.ok ⟨[], []⟩))),
    (⟨.racing .accept, ⟨tasks, false⟩⟩, .resolve (.accept (.ok ()))),
    (⟨.racing .commit, ⟨tasks, false⟩⟩,
      .resolve (.commit (.ok (.mpc ⟨maxSentData, maxRecvData⟩)))),
    (⟨.unstarted, ⟨fun _ => .unspawned, false⟩⟩, .start .ready)]
  let t : VerifierState Unit :=
    ⟨.waiting (.ok (.ok ())) (.verify ⟨[], []⟩), ⟨tasks.finish .driver, true⟩⟩
  have hrun : (verifier fun _ => "").Run h t :=
    .cons (.cons (.cons (.cons (.cons (.cons .nil rfl) rfl) rfl) rfl) rfl) rfl
  have hadmits : VerifierSetup.Admits ⟨[], []⟩ ⟨true, none⟩ :=
    ⟨rfl, fun _ _ hcommits => by simp [ProveRequest.Commits] at hcommits⟩
  let output : VerifierOutput := ⟨some (.dns "example.com"), some (.unopened [] []), []⟩
  have hunpacks : VerifierSetup.Unpacks ⟨[], []⟩ output session := ⟨rfl, rfl, rfl, rfl⟩
  have hspares : ∀ p ∈ h, (verifierSetup fun _ => "").Spares () p.1 p.2 := by
    simp [h, Setup.Spares, verifierSetup, VerifierSetup.enter]
  exact ⟨h, t, hrun, rfl, ((verifier_returns_iff _ hrun session ()).2).mpr
    ⟨⟨[.verify (.ok ⟨true, none⟩), .acceptVerify (.ok output), .close (.ok ())],
      .intro ⟨le_rfl, le_rfl⟩ hadmits hunpacks⟩, hspares⟩⟩

end Libid.Tlsn
