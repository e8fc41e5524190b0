import Libid.Base.Tiling
import Mathlib.Data.List.MinMax

namespace Libid

def joinRun (pos : Nat) : List Range → List Range
  | [] => [⟨pos, pos + 1⟩]
  | r :: rs => if r.start = pos + 1 then ⟨pos, r.stop⟩ :: rs else ⟨pos, pos + 1⟩ :: r :: rs

/-- The runs of offsets in `[pos, pos + n)` that `p` holds of. -/
def runsFrom (p : Nat → Bool) : Nat → Nat → List Range
  | _, 0 => []
  | pos, n + 1 =>
    if p pos then joinRun pos (runsFrom p (pos + 1) n) else runsFrom p (pos + 1) n

structure RunsFrom (pos : Nat) (rs : List Range) : Prop where
  nonempty : ∀ r ∈ rs, r.start < r.stop
  maximal : rs.Pairwise fun a b => a.stop < b.start
  start : ∀ r ∈ rs, pos ≤ r.start

theorem RunsFrom.mono {pos pos' : Nat} {rs : List Range} (h : RunsFrom pos rs)
    (hle : pos' ≤ pos) : RunsFrom pos' rs :=
  ⟨h.nonempty, h.maximal, fun r hr => hle.trans (h.start r hr)⟩

theorem RunsFrom.joinRun {pos : Nat} {rs : List Range} (h : RunsFrom (pos + 1) rs) :
    RunsFrom pos (joinRun pos rs) := by
  cases rs with
  | nil => exact ⟨by simp [Libid.joinRun], List.pairwise_singleton .., by simp [Libid.joinRun]⟩
  | cons r rs =>
    have hne := h.nonempty r List.mem_cons_self
    have hstart := h.start r List.mem_cons_self
    obtain ⟨hlt, hmax⟩ := List.pairwise_cons.mp h.maximal
    rw [Libid.joinRun]
    split
    case isTrue hnext =>
      refine ⟨?_, List.pairwise_cons.mpr ⟨hlt, hmax⟩, ?_⟩
      · rw [List.forall_mem_cons]
        exact ⟨by simp only; omega, fun t ht => h.nonempty t (List.mem_cons_of_mem _ ht)⟩
      · rw [List.forall_mem_cons]
        exact ⟨le_rfl, fun t ht => (Nat.le_succ pos).trans (h.start t (List.mem_cons_of_mem _ ht))⟩
    case isFalse hgap =>
      refine ⟨?_, List.pairwise_cons.mpr ⟨?_, h.maximal⟩, ?_⟩
      · rw [List.forall_mem_cons]
        exact ⟨Nat.lt_succ_self pos, h.nonempty⟩
      · rw [List.forall_mem_cons]
        refine ⟨by simp only; omega, fun t ht => ?_⟩
        have := hlt t ht
        simp only
        omega
      · rw [List.forall_mem_cons]
        exact ⟨le_rfl, fun t ht => (Nat.le_succ pos).trans (h.start t ht)⟩

theorem RunsFrom.covers_joinRun {pos : Nat} {rs : List Range} (h : RunsFrom (pos + 1) rs)
    (i : Nat) : Covers (Libid.joinRun pos rs) i ↔ i = pos ∨ Covers rs i := by
  have hsingle : i ∈ (⟨pos, pos + 1⟩ : Range) ↔ i = pos := by
    simp only [Range.mem_iff]
    omega
  cases rs with
  | nil => rw [Libid.joinRun, covers_cons, hsingle]
  | cons r rs =>
    have hne := h.nonempty r List.mem_cons_self
    rw [Libid.joinRun]
    split
    case isTrue hnext =>
      have hjoined : i ∈ (⟨pos, r.stop⟩ : Range) ↔ i = pos ∨ i ∈ r := by
        simp only [Range.mem_iff]
        omega
      rw [covers_cons, covers_cons, hjoined, or_assoc]
    case isFalse => rw [covers_cons, hsingle]

theorem runsFrom_spec (p : Nat → Bool) (pos n : Nat) :
    RunsFrom pos (runsFrom p pos n) ∧
      ∀ i, Covers (runsFrom p pos n) i ↔ pos ≤ i ∧ i < pos + n ∧ p i = true := by
  induction n generalizing pos with
  | zero => exact ⟨⟨by simp [runsFrom], .nil, by simp [runsFrom]⟩, by simp [runsFrom]; omega⟩
  | succ n ih =>
    obtain ⟨hruns, hcovers⟩ := ih (pos + 1)
    rw [runsFrom]
    split
    case isTrue hp =>
      refine ⟨hruns.joinRun, fun i => ?_⟩
      rw [hruns.covers_joinRun, hcovers]
      constructor
      · rintro (rfl | ⟨hle, hlt, hi⟩)
        · exact ⟨le_rfl, by omega, hp⟩
        · exact ⟨by omega, by omega, hi⟩
      · rintro ⟨hle, hlt, hi⟩
        by_cases heq : i = pos
        · exact .inl heq
        · exact .inr ⟨by omega, by omega, hi⟩
    case isFalse hp =>
      refine ⟨hruns.mono (Nat.le_succ pos), fun i => ?_⟩
      rw [hcovers]
      constructor
      · rintro ⟨hle, hlt, hi⟩
        exact ⟨by omega, by omega, hi⟩
      · rintro ⟨hle, hlt, hi⟩
        have hne : i ≠ pos := by
          rintro rfl
          exact hp hi
        exact ⟨by omega, by omega, hi⟩

def lastStop (rs : List Range) : Nat := (rs.map Range.stop).foldr max 0

theorem stop_le_lastStop {rs : List Range} {r : Range} (hr : r ∈ rs) : r.stop ≤ lastStop rs := by
  induction rs with
  | nil => cases hr
  | cons t rs ih =>
    rw [lastStop, List.map_cons, List.foldr_cons, ← lastStop]
    rcases List.mem_cons.mp hr with rfl | hr
    · exact le_max_left ..
    · exact (ih hr).trans (le_max_right ..)

namespace RangeSet

def ofRanges (rs : List Range) : RangeSet where
  ranges := runsFrom (fun i => rs.any fun r => decide (i ∈ r)) 0 (lastStop rs)
  nonempty := (runsFrom_spec ..).1.nonempty
  maximal := (runsFrom_spec ..).1.maximal

theorem ofRanges_isUnion (rs : List Range) : (ofRanges rs).IsUnion rs := by
  intro i
  rw [ofRanges, (runsFrom_spec ..).2 i, List.any_eq_true]
  constructor
  · rintro ⟨-, -, r, hr, hi⟩
    exact ⟨r, hr, of_decide_eq_true hi⟩
  · rintro ⟨r, hr, hi⟩
    have hstop := stop_le_lastStop hr
    have hlt := hi.2
    exact ⟨Nat.zero_le i, by omega, r, hr, decide_eq_true hi⟩

end RangeSet

def walk : Nat → List Range → Option Nat
  | pos, [] => some pos
  | pos, r :: rs => if r.start = pos ∧ pos < r.stop then walk r.stop rs else none

theorem walk_eq_some_iff {pos stop : Nat} {rs : List Range} :
    walk pos rs = some stop ↔
      pos ≤ stop ∧ Ascending rs ∧ ∀ i, Covers rs i ↔ pos ≤ i ∧ i < stop := by
  induction rs generalizing pos with
  | nil =>
    simp only [walk, Option.some.injEq, Ascending.nil, true_and, covers_nil, false_iff]
    constructor
    · rintro rfl
      exact ⟨le_rfl, fun i => by omega⟩
    · rintro ⟨hle, hnone⟩
      have := hnone pos
      omega
  | cons r rs ih =>
    rw [walk]
    split
    case isTrue hr =>
      obtain ⟨rfl, hne⟩ := hr
      rw [ih, Ascending.cons_iff]
      constructor
      · rintro ⟨hle, hasc, hcovers⟩
        refine ⟨by omega, ⟨hne, fun t ht => ?_, hasc⟩, fun i => ?_⟩
        · exact ((hcovers t.start).mp ⟨t, ht, le_rfl, hasc.nonempty t ht⟩).1
        · rw [covers_cons, hcovers, Range.mem_iff]
          omega
      · rintro ⟨hle, ⟨-, hlt, hasc⟩, hcovers⟩
        have hlast := (hcovers (r.stop - 1)).mp
          ((covers_cons ..).mpr (.inl ⟨by omega, by omega⟩))
        refine ⟨by omega, hasc, fun i => ?_⟩
        constructor
        · rintro ⟨t, ht, hi⟩
          have hge := hlt t ht
          have := (hcovers i).mp ((covers_cons ..).mpr (.inr ⟨t, ht, hi⟩))
          have := hi.1
          omega
        · rintro ⟨hge, hlt'⟩
          have hi := (covers_cons ..).mp ((hcovers i).mpr ⟨by omega, hlt'⟩)
          exact hi.resolve_left fun hmem => by have := hmem.2; omega
    case isFalse hr =>
      refine iff_of_false (by simp) ?_
      rintro ⟨hle, hasc, hcovers⟩
      obtain ⟨hne, hlt, -⟩ := Ascending.cons_iff.mp hasc
      have hstart := (hcovers r.start).mp ((covers_cons ..).mpr (.inl ⟨le_rfl, hne⟩))
      -- Whatever covers the cursor's own offset comes no earlier than `r`.
      have hpos := hasc.head_le ((hcovers pos).mpr ⟨le_rfl, by omega⟩)
      exact hr ⟨by omega, by omega⟩

theorem Tiles.perm {len : Nat} {rs ts : List Range} (h : Tiles len rs) (hp : rs.Perm ts) :
    Tiles len ts where
  nonempty r hr := h.nonempty r (hp.mem_iff.mpr hr)
  inside r hr := h.inside r (hp.mem_iff.mpr hr)
  disjoint := hp.pairwise h.disjoint Range.Disjoint.symm
  covers i hi := (covers_perm hp i).mp (h.covers i hi)

theorem walk_zero_iff {len : Nat} {rs : List Range}
    (hsorted : rs.Pairwise fun a b => a.start ≤ b.start) :
    walk 0 rs = some len ↔ Tiles len rs := by
  rw [walk_eq_some_iff]
  constructor
  · rintro ⟨-, hasc, hcovers⟩
    refine ⟨hasc.nonempty, fun r hr => ?_, hasc.disjoint, fun i hi => ?_⟩
    · have hne := hasc.nonempty r hr
      have hlast := (hcovers (r.stop - 1)).mp ⟨r, hr, by simp only [Range.mem_iff]; omega⟩
      omega
    · exact (hcovers i).mpr ⟨Nat.zero_le i, hi⟩
  · intro h
    refine ⟨Nat.zero_le len, .of_sorted h.nonempty h.disjoint hsorted, fun i => ?_⟩
    constructor
    · rintro ⟨r, hr, hi⟩
      have := h.inside r hr
      have := hi.2
      omega
    · rintro ⟨-, hi⟩
      exact h.covers i hi

end Libid
