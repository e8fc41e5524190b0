import Libid.Base.Bytes
import Mathlib.Data.List.Perm.Basic
import Mathlib.Data.List.Pairwise
import Mathlib.Order.Basic

/-! Ranges of offsets and the ways a list of them can cover an interval. -/

namespace Libid

namespace Range

instance : Membership Nat Range := ⟨fun r i => r.start ≤ i ∧ i < r.stop⟩

instance (i : Nat) (r : Range) : Decidable (i ∈ r) :=
  inferInstanceAs (Decidable (r.start ≤ i ∧ i < r.stop))

@[simp] theorem mem_iff {r : Range} {i : Nat} : i ∈ r ↔ r.start ≤ i ∧ i < r.stop := Iff.rfl

def shift (n : Nat) (r : Range) : Range := ⟨n + r.start, n + r.stop⟩

@[simp] theorem shift_start (n : Nat) (r : Range) : (r.shift n).start = n + r.start := rfl

@[simp] theorem shift_stop (n : Nat) (r : Range) : (r.shift n).stop = n + r.stop := rfl

def Disjoint (a b : Range) : Prop := ∀ i, i ∈ a → i ∉ b

theorem Disjoint.symm {a b : Range} (h : Disjoint a b) : Disjoint b a :=
  fun i hb ha => h i ha hb

def Before (a b : Range) : Prop := a.stop ≤ b.start

theorem Before.disjoint {a b : Range} (h : Before a b) : Disjoint a b := by
  intro i ha hb
  simp only [Before, mem_iff] at *
  omega

theorem disjoint_iff {a b : Range} (ha : a.start < a.stop) (hb : b.start < b.stop) :
    Disjoint a b ↔ Before a b ∨ Before b a := by
  constructor
  · intro h
    have hl := h (max a.start b.start)
    simp only [Before, mem_iff] at *
    omega
  · rintro (h | h)
    · exact h.disjoint
    · exact h.disjoint.symm

end Range

def Covers (rs : List Range) (i : Nat) : Prop := ∃ r ∈ rs, i ∈ r

@[simp] theorem covers_nil (i : Nat) : ¬ Covers [] i := by simp [Covers]

@[simp] theorem covers_cons (r : Range) (rs : List Range) (i : Nat) :
    Covers (r :: rs) i ↔ i ∈ r ∨ Covers rs i := by
  simp [Covers]

@[simp] theorem covers_append (rs ts : List Range) (i : Nat) :
    Covers (rs ++ ts) i ↔ Covers rs i ∨ Covers ts i := by
  simp only [Covers, List.mem_append, or_and_right, exists_or]

theorem covers_perm {rs ts : List Range} (h : rs.Perm ts) (i : Nat) :
    Covers rs i ↔ Covers ts i := by
  simp [Covers, h.mem_iff]

structure Ascending (rs : List Range) : Prop where
  nonempty : ∀ r ∈ rs, r.start < r.stop
  ordered : rs.Pairwise Range.Before

structure Tiles (len : Nat) (rs : List Range) : Prop where
  nonempty : ∀ r ∈ rs, r.start < r.stop
  inside : ∀ r ∈ rs, r.stop ≤ len
  disjoint : rs.Pairwise Range.Disjoint
  covers : ∀ i < len, Covers rs i

theorem Tiles.covers_right {len : Nat} {rs ts : List Range} (h : Tiles len (rs ++ ts)) (i : Nat) :
    Covers ts i ↔ i < len ∧ ¬ Covers rs i := by
  constructor
  · rintro ⟨t, ht, hit⟩
    refine ⟨?_, ?_⟩
    · have := h.inside t (by simp [ht])
      have := hit.2
      omega
    · rintro ⟨r, hr, hir⟩
      exact (List.pairwise_append.mp h.disjoint).2.2 r hr t ht i hir hit
  · rintro ⟨hi, hno⟩
    exact ((covers_append ..).mp (h.covers i hi)).resolve_left hno

namespace Ascending

theorem nil : Ascending [] := ⟨by simp, List.Pairwise.nil⟩

theorem cons_iff {r : Range} {rs : List Range} :
    Ascending (r :: rs) ↔ r.start < r.stop ∧ (∀ t ∈ rs, r.stop ≤ t.start) ∧ Ascending rs := by
  constructor
  · rintro ⟨hne, hord⟩
    rw [List.pairwise_cons] at hord
    exact ⟨hne r (by simp), hord.1, ⟨fun t ht => hne t (by simp [ht]), hord.2⟩⟩
  · rintro ⟨hr, hlt, hrs⟩
    refine ⟨?_, List.pairwise_cons.mpr ⟨hlt, hrs.ordered⟩⟩
    intro t ht
    rcases List.mem_cons.mp ht with rfl | ht
    · exact hr
    · exact hrs.nonempty t ht

theorem disjoint {rs : List Range} (h : Ascending rs) : rs.Pairwise Range.Disjoint :=
  h.ordered.imp Range.Before.disjoint

theorem of_sorted {rs : List Range} (hne : ∀ r ∈ rs, r.start < r.stop)
    (hdis : rs.Pairwise Range.Disjoint) (hsorted : rs.Pairwise fun a b => a.start ≤ b.start) :
    Ascending rs := by
  refine ⟨hne, (hsorted.and hdis).imp_of_mem ?_⟩
  rintro a b ha hb ⟨hle, hab⟩
  rcases (Range.disjoint_iff (hne a ha) (hne b hb)).mp hab with h | h
  · exact h
  · have := hne b hb
    simp only [Range.Before] at h
    omega

theorem length_le {rs : List Range} (h : Ascending rs) {a len : Nat}
    (ha : ∀ r ∈ rs, a ≤ r.start) (hlen : ∀ r ∈ rs, r.stop ≤ len) : rs.length ≤ len - a := by
  induction rs generalizing a with
  | nil => exact Nat.zero_le _
  | cons r rs ih =>
    obtain ⟨hr, hlt, hrs⟩ := cons_iff.mp h
    have hstart := ha r (by simp)
    have hstop := hlen r (by simp)
    have := ih hrs hlt fun t ht => hlen t (by simp [ht])
    rw [List.length_cons]
    omega

theorem head_le {r : Range} {rs : List Range} (h : Ascending (r :: rs)) {i : Nat}
    (hi : Covers (r :: rs) i) : r.start ≤ i := by
  obtain ⟨hr, hlt, -⟩ := cons_iff.mp h
  rcases (covers_cons ..).mp hi with hi | ⟨t, ht, hi⟩
  · exact hi.1
  · have := hlt t ht
    have := hi.1
    omega

end Ascending

theorem Tiles.of_ascending {len : Nat} {rs ts : List Range} (hrs : Ascending rs)
    (hts : Ascending ts) (hin : ∀ r ∈ rs, r.stop ≤ len)
    (hts' : ∀ i, Covers ts i ↔ i < len ∧ ¬ Covers rs i) : Tiles len (rs ++ ts) where
  nonempty r hr := by
    rcases List.mem_append.mp hr with hr | hr
    · exact hrs.nonempty r hr
    · exact hts.nonempty r hr
  inside r hr := by
    rcases List.mem_append.mp hr with hr | hr
    · exact hin r hr
    · have hne := hts.nonempty r hr
      have hlast := (hts' (r.stop - 1)).mp ⟨r, hr, by simp only [Range.mem_iff]; omega⟩
      omega
  disjoint := by
    refine List.pairwise_append.mpr ⟨hrs.disjoint, hts.disjoint, ?_⟩
    intro r hr t ht i hir hit
    exact ((hts' i).mp ⟨t, ht, hit⟩).2 ⟨r, hr, hir⟩
  covers i hi := by
    rw [covers_append, hts']
    by_cases h : Covers rs i
    · exact .inl h
    · exact .inr ⟨hi, h⟩

/-- The ranges a set of offsets falls into: ascending, and each as long as it
can be, so the next one never begins where the last one ended. -/
structure RangeSet where
  ranges : List Range
  nonempty : ∀ r ∈ ranges, r.start < r.stop
  maximal : ranges.Pairwise fun a b => a.stop < b.start

namespace RangeSet

theorem ascending (s : RangeSet) : Ascending s.ranges :=
  ⟨s.nonempty, s.maximal.imp fun h => Nat.le_of_lt h⟩

def IsUnion (s : RangeSet) (rs : List Range) : Prop := ∀ i, Covers s.ranges i ↔ Covers rs i

theorem not_covers_stop {r : Range} {rs : List Range} (hlt : ∀ b ∈ rs, r.stop < b.start) :
    ¬ Covers (r :: rs) r.stop := by
  intro hc
  rcases (covers_cons ..).mp hc with hc | ⟨b, hb, hc⟩
  · simp at hc
  · have := hlt b hb
    have := hc.1
    omega

theorem not_covers_of_mem {r : Range} {rs : List Range} {i : Nat}
    (hlt : ∀ b ∈ rs, r.stop < b.start) (hi : i ∈ r) : ¬ Covers rs i := by
  rintro ⟨b, hb, hib⟩
  have := hlt b hb
  simp only [Range.mem_iff] at hi hib
  omega

private theorem head_eq_of_covers {r t : Range} {rs ts : List Range}
    (hr : ∀ a ∈ r :: rs, a.start < a.stop) (ht : ∀ a ∈ t :: ts, a.start < a.stop)
    (hrm : (r :: rs).Pairwise fun a b => a.stop < b.start)
    (htm : (t :: ts).Pairwise fun a b => a.stop < b.start)
    (h : ∀ i, Covers (r :: rs) i ↔ Covers (t :: ts) i) : r = t := by
  have hrne := hr r List.mem_cons_self
  have htne := ht t List.mem_cons_self
  have hasc : Ascending (r :: rs) := ⟨hr, hrm.imp fun h => Nat.le_of_lt h⟩
  have tasc : Ascending (t :: ts) := ⟨ht, htm.imp fun h => Nat.le_of_lt h⟩
  have hstart : r.start = t.start := by
    have h1 := tasc.head_le ((h r.start).mp ⟨r, List.mem_cons_self, ⟨le_rfl, hrne⟩⟩)
    have h2 := hasc.head_le ((h t.start).mpr ⟨t, List.mem_cons_self, ⟨le_rfl, htne⟩⟩)
    omega
  have hstop : r.stop = t.stop := by
    have h1 := not_covers_stop (List.pairwise_cons.mp hrm).1
    have h2 := not_covers_stop (List.pairwise_cons.mp htm).1
    rw [h] at h1
    rw [← h] at h2
    simp only [covers_cons, Range.mem_iff] at h1 h2
    omega
  cases r
  cases t
  rw [Range.mk.injEq]
  exact ⟨hstart, hstop⟩

private theorem eq_of_covers {rs ts : List Range} (hr : ∀ r ∈ rs, r.start < r.stop)
    (ht : ∀ r ∈ ts, r.start < r.stop) (hrm : rs.Pairwise fun a b => a.stop < b.start)
    (htm : ts.Pairwise fun a b => a.stop < b.start)
    (h : ∀ i, Covers rs i ↔ Covers ts i) : rs = ts := by
  induction rs generalizing ts with
  | nil =>
    cases ts with
    | nil => rfl
    | cons t ts =>
      have hcov := (h t.start).mpr ⟨t, by simp, by simpa using ht t (by simp)⟩
      simp at hcov
  | cons r rs ih =>
    cases ts with
    | nil =>
      have hcov := (h r.start).mp ⟨r, by simp, by simpa using hr r (by simp)⟩
      simp at hcov
    | cons t ts =>
      obtain rfl := head_eq_of_covers hr ht hrm htm h
      rw [List.pairwise_cons] at hrm htm
      have htail : ∀ i, Covers rs i ↔ Covers ts i := by
        intro i
        by_cases hi : i ∈ r
        · exact iff_of_false (not_covers_of_mem hrm.1 hi) (not_covers_of_mem htm.1 hi)
        · have hcov := h i
          simp only [covers_cons] at hcov
          simpa [hi] using hcov
      rw [ih (fun a ha => hr a (by simp [ha])) (fun a ha => ht a (by simp [ha])) hrm.2 htm.2 htail]

theorem ext_covers {s t : RangeSet} (h : ∀ i, Covers s.ranges i ↔ Covers t.ranges i) :
    s.ranges = t.ranges :=
  eq_of_covers s.nonempty t.nonempty s.maximal t.maximal h

theorem separated (s : RangeSet) {a b : Range} (ha : a ∈ s.ranges) (hb : b ∈ s.ranges) :
    a = b ∨ a.stop < b.start ∨ b.stop < a.start := by
  let Apart : Range → Range → Prop := fun a b => a.stop < b.start ∨ b.stop < a.start
  have : Std.Symm Apart := ⟨fun _ _ => Or.symm⟩
  have hall : s.ranges.Pairwise Apart := s.maximal.imp Or.inl
  by_cases hab : a = b
  · exact .inl hab
  · exact .inr (hall.forall ha hb hab)

theorem inside_iff (s : RangeSet) {r : Range} (hr : r.start < r.stop) :
    (∃ d ∈ s.ranges, d.start ≤ r.start ∧ r.stop ≤ d.stop) ↔ ∀ i ∈ r, Covers s.ranges i := by
  constructor
  · rintro ⟨d, hd, hstart, hstop⟩ i hi
    exact ⟨d, hd, by simp only [Range.mem_iff] at *; omega⟩
  · intro h
    obtain ⟨d, hd, hin⟩ := h r.start ⟨le_rfl, hr⟩
    refine ⟨d, hd, hin.1, ?_⟩
    -- Past `d` there is a gap, so a run that outlasts `d` meets an uncovered offset.
    by_contra hlt
    obtain ⟨e, he, hin'⟩ := h d.stop ⟨by have := hin.2; omega, by omega⟩
    simp only [Range.mem_iff] at hin hin'
    rcases s.separated hd he with rfl | hsep | hsep <;> omega

def single (r : Range) (h : r.start < r.stop) : RangeSet where
  ranges := [r]
  nonempty := by simpa using h
  maximal := List.pairwise_singleton ..

theorem IsUnion.ranges_eq_singleton {s : RangeSet} {r : Range} (hu : s.IsUnion [r])
    (h : r.start < r.stop) : s.ranges = [r] :=
  ext_covers (t := single r h) hu

theorem IsUnion.inside {s : RangeSet} {rs : List Range} {len : Nat} (hu : s.IsUnion rs)
    (hin : ∀ r ∈ rs, r.stop ≤ len) : ∀ r ∈ s.ranges, r.stop ≤ len := by
  intro r hr
  have hne := s.nonempty r hr
  obtain ⟨t, ht, hlast⟩ := (hu (r.stop - 1)).mp ⟨r, hr, by simp only [Range.mem_iff]; omega⟩
  have := hin t ht
  have := hlast.2
  omega

/-- Joining adjacent ranges on one side of a tiling and sorting the other leaves a tiling. -/
theorem IsUnion.tiles {s : RangeSet} {rs ts us : List Range} {len : Nat} (hu : s.IsUnion rs)
    (h : Tiles len (rs ++ ts)) (hp : us.Perm ts) (hus : Ascending us) :
    Tiles len (s.ranges ++ us) := by
  refine .of_ascending s.ascending hus (hu.inside fun r hr => h.inside r (by simp [hr])) ?_
  intro i
  rw [covers_perm hp, h.covers_right, hu i]

end RangeSet

end Libid
