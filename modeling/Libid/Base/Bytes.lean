import Mathlib.Data.List.Basic
import Mathlib.Data.List.Infix

/-! Byte strings and searches over them: slices, windows, and the first window
that satisfies a test.  Nothing here knows what is searched for. -/

namespace Libid

abbrev Bytes := List UInt8

/-- The bytes of an ASCII literal. -/
def ascii (s : String) : Bytes := s.toList.map fun c => c.toNat.toUInt8

variable {α : Type*}

/-- A half-open run of offsets; `stop` is not in it. -/
structure Range where
  start : Nat
  stop : Nat
  deriving DecidableEq, Repr

/-- `&data[r]`. -/
def slice (data : List α) (r : Range) : List α := (data.drop r.start).take (r.stop - r.start)

/-- `data.get(r)`. -/
def getRange (data : List α) (r : Range) : Option (List α) :=
  if r.start ≤ r.stop ∧ r.stop ≤ data.length then some (slice data r) else none

/-- `data.get(start..)`. -/
def getFrom (data : List α) (start : Nat) : Option (List α) :=
  if start ≤ data.length then some (data.drop start) else none

theorem getElem?_slice (data : List α) (r : Range) (i : Nat) :
    (slice data r)[i]? = if i < r.stop - r.start then data[r.start + i]? else none := by
  simp only [slice, List.getElem?_take, List.getElem?_drop]

theorem length_slice (data : List α) (r : Range) (h : r.stop ≤ data.length) :
    (slice data r).length = r.stop - r.start := by
  simp only [slice, List.length_take, List.length_drop]
  omega

theorem getRange_eq_some {data out : List α} {r : Range} :
    getRange data r = some out ↔
      r.start ≤ r.stop ∧ r.stop ≤ data.length ∧ slice data r = out := by
  simp [getRange, and_assoc]

theorem getFrom_eq_some {data out : List α} {start : Nat} :
    getFrom data start = some out ↔ start ≤ data.length ∧ data.drop start = out := by
  simp [getFrom]

theorem slice_congr {x y : List α} {r : Range}
    (h : ∀ i, r.start ≤ i → i < r.stop → x[i]? = y[i]?) : slice x r = slice y r := by
  apply List.ext_getElem?
  intro i
  rw [getElem?_slice, getElem?_slice]
  split
  · exact h _ (by omega) (by omega)
  · rfl

theorem getElem?_eq_of_slice_eq {x y : List α} {r t : Range} (h : slice x r = slice y t)
    (hlen : r.stop - r.start = t.stop - t.start) {i : Nat} (hi : i < r.stop - r.start) :
    x[r.start + i]? = y[t.start + i]? := by
  have hget := congrArg (fun l => l[i]?) h
  simpa [getElem?_slice, hi, hlen ▸ hi] using hget

theorem slice_drop (data : List α) (n : Nat) (r : Range) :
    slice (data.drop n) r = slice data ⟨n + r.start, n + r.stop⟩ := by
  simp only [slice, List.drop_drop]
  congr 1
  omega

theorem slice_slice (data : List α) {r t : Range} (h : r.start + t.stop ≤ r.stop) :
    slice (slice data r) t = slice data ⟨r.start + t.start, r.start + t.stop⟩ := by
  apply List.ext_getElem?
  intro i
  simp only [getElem?_slice]
  split
  · rw [if_pos (by omega), if_pos (by omega), Nat.add_assoc]
  · rw [if_neg (by omega)]

theorem slice_append_slice (data : List α) {a b c : Nat} (hab : a ≤ b) (hbc : b ≤ c) :
    slice data ⟨a, b⟩ ++ slice data ⟨b, c⟩ = slice data ⟨a, c⟩ := by
  have hdrop : data.drop b = (data.drop a).drop (b - a) := by
    rw [List.drop_drop, Nat.add_sub_cancel' hab]
  simp only [slice]
  rw [hdrop, ← List.take_add, show b - a + (c - b) = c - a by omega]

theorem slice_eq_singleton {data : List α} {i : Nat} {a : α} (h : data[i]? = some a) :
    slice data ⟨i, i + 1⟩ = [a] := by
  obtain ⟨hi, rfl⟩ := List.getElem?_eq_some_iff.mp h
  simp only [slice, Nat.add_sub_cancel_left]
  rw [List.drop_eq_getElem_cons hi, List.take_succ_cons, List.take_zero]

theorem mem_slice {data : List α} {r : Range} {a : α} :
    a ∈ slice data r ↔ ∃ i, r.start ≤ i ∧ i < r.stop ∧ data[i]? = some a := by
  simp only [List.mem_iff_getElem?, getElem?_slice]
  constructor
  · rintro ⟨i, hi⟩
    split at hi
    · exact ⟨r.start + i, by omega, by omega, hi⟩
    · simp at hi
  · rintro ⟨i, hle, hlt, hi⟩
    refine ⟨i - r.start, ?_⟩
    rw [if_pos (by omega), Nat.add_sub_cancel' hle, hi]

/-- `needle` stands in `data` at offset `i`. -/
def Occurs (needle data : List α) (i : Nat) : Prop := needle <+: data.drop i

instance [DecidableEq α] (needle data : List α) (i : Nat) : Decidable (Occurs needle data i) :=
  inferInstanceAs (Decidable (needle <+: data.drop i))

theorem occurs_iff_getElem? {needle data : List α} {i : Nat} :
    Occurs needle data i ↔ ∀ k < needle.length, data[i + k]? = needle[k]? := by
  rw [Occurs, List.prefix_iff_getElem?]
  constructor
  · intro h k hk
    rw [List.getElem?_eq_getElem hk, ← h k hk, List.getElem?_drop]
  · intro h k hk
    rw [List.getElem?_drop, h k hk, List.getElem?_eq_getElem hk]

theorem Occurs.getElem? {needle data : List α} {i k : Nat} {a : α}
    (h : Occurs needle data i) (hk : needle[k]? = some a) : data[i + k]? = some a := by
  have hlt : k < needle.length := (List.getElem?_eq_some_iff.mp hk).1
  rw [occurs_iff_getElem?.mp h k hlt, hk]

theorem Occurs.le_length {needle data : List α} {i : Nat} (h : Occurs needle data i)
    (hne : needle ≠ []) : i + needle.length ≤ data.length := by
  have hlen := List.IsPrefix.length_le h
  have hpos := List.length_pos_of_ne_nil hne
  rw [List.length_drop] at hlen
  omega

theorem occurs_iff_slice_eq {needle data : List α} {i : Nat} :
    Occurs needle data i ↔ slice data ⟨i, i + needle.length⟩ = needle := by
  simp only [Occurs, slice, Nat.add_sub_cancel_left]
  rw [List.prefix_iff_eq_take]
  exact eq_comm

theorem Occurs.congr {needle x y : List α} {i : Nat} (h : Occurs needle x i)
    (hxy : ∀ j, i ≤ j → j < i + needle.length → x[j]? = y[j]?) : Occurs needle y i := by
  rw [occurs_iff_getElem?] at h ⊢
  intro k hk
  rw [← hxy _ (by omega) (by omega)]
  exact h k hk

@[simp] theorem occurs_drop {needle data : List α} {n i : Nat} :
    Occurs needle (data.drop n) i ↔ Occurs needle data (n + i) := by
  rw [Occurs, Occurs, List.drop_drop]

theorem occurs_append {x y data : List α} {i : Nat} :
    Occurs (x ++ y) data i ↔ Occurs x data i ∧ Occurs y data (i + x.length) := by
  simp only [occurs_iff_getElem?, List.length_append]
  constructor
  · intro h
    refine ⟨fun k hk => ?_, fun k hk => ?_⟩
    · rw [h k (by omega), List.getElem?_append_left hk]
    · rw [Nat.add_assoc, h _ (by omega), List.getElem?_append_right (by omega),
        Nat.add_sub_cancel_left]
  · rintro ⟨hx, hy⟩ k hk
    rcases Nat.lt_or_ge k x.length with hlt | hge
    · rw [hx k hlt, List.getElem?_append_left hlt]
    · rw [List.getElem?_append_right hge, ← hy _ (by omega)]
      congr 1
      omega

theorem occurs_singleton {a : α} {data : List α} {i : Nat} :
    Occurs [a] data i ↔ data[i]? = some a := by
  simp [occurs_iff_getElem?]

theorem occurs_cons {a : α} {y data : List α} {i : Nat} :
    Occurs (a :: y) data i ↔ data[i]? = some a ∧ Occurs y data (i + 1) := by
  rw [← List.singleton_append, occurs_append, occurs_singleton, List.length_singleton]

theorem Occurs.append_left {needle x : List α} {i : Nat} (h : Occurs needle x i) (y : List α)
    (hne : needle ≠ []) : Occurs needle (x ++ y) i := by
  apply h.congr
  intro j _ hj
  have := h.le_length hne
  exact (List.getElem?_append_left (by omega)).symm

/-- `data.windows(n)`: every run of `n` consecutive elements, leftmost first. -/
def windows (n : Nat) (data : List α) : List (List α) :=
  (List.range (data.length + 1 - n)).map fun i => (data.drop i).take n

/-- `data.windows(n).position(p)`. -/
def windowsPosition (n : Nat) (p : List α → Bool) (data : List α) : Option Nat :=
  (windows n data).findIdx? p

theorem windowsPosition_eq_some {n i : Nat} {p : List α → Bool} {data : List α} :
    windowsPosition n p data = some i ↔
      i + n ≤ data.length ∧ p (slice data ⟨i, i + n⟩) ∧
        ∀ j < i, ¬ p (slice data ⟨j, j + n⟩) := by
  simp only [windowsPosition, windows, List.findIdx?_eq_some_iff_getElem, List.length_map,
    List.length_range, List.getElem_map, List.getElem_range, slice, Nat.add_sub_cancel_left]
  constructor
  · rintro ⟨hi, hp, hlt⟩
    exact ⟨by omega, hp, fun j hj => by simpa using hlt j hj⟩
  · rintro ⟨hi, hp, hlt⟩
    exact ⟨by omega, hp, fun j hj => by simpa using hlt j hj⟩

theorem windowsPosition_eq_none {n : Nat} {p : List α → Bool} {data : List α} :
    windowsPosition n p data = none ↔
      ∀ i, i + n ≤ data.length → ¬ p (slice data ⟨i, i + n⟩) := by
  simp only [windowsPosition, windows, List.findIdx?_eq_none_iff, List.mem_map, List.mem_range,
    slice, Nat.add_sub_cancel_left]
  constructor
  · intro h i hi
    simpa using h _ ⟨i, by omega, rfl⟩
  · rintro h _ ⟨i, hi, rfl⟩
    simpa using h i (by omega)

def FirstAt (needle data : List α) (i : Nat) : Prop :=
  Occurs needle data i ∧ ∀ j < i, ¬ Occurs needle data j

instance [DecidableEq α] (needle data : List α) (i : Nat) : Decidable (FirstAt needle data i) :=
  inferInstanceAs (Decidable (Occurs needle data i ∧ ∀ j < i, ¬ Occurs needle data j))

theorem FirstAt.unique {needle data : List α} {i j : Nat} (hi : FirstAt needle data i)
    (hj : FirstAt needle data j) : i = j := by
  by_contra hne
  rcases Nat.lt_or_gt_of_ne hne with h | h
  · exact hj.2 _ h hi.1
  · exact hi.2 _ h hj.1

theorem Occurs.exists_firstAt {needle data : List α} {i : Nat} (h : Occurs needle data i) :
    ∃ j ≤ i, FirstAt needle data j := by
  induction i using Nat.strongRecOn with
  | _ i ih =>
    by_cases hearlier : ∃ j < i, Occurs needle data j
    · obtain ⟨j, hj, hocc⟩ := hearlier
      obtain ⟨k, hk, hfirst⟩ := ih j hj hocc
      exact ⟨k, by omega, hfirst⟩
    · push Not at hearlier
      exact ⟨i, Nat.le_refl i, h, hearlier⟩

theorem Occurs.of_append {needle x y : List α} {i : Nat} (h : Occurs needle (x ++ y) i)
    (hlen : i + needle.length ≤ x.length) : Occurs needle x i := by
  rw [occurs_iff_getElem?] at h ⊢
  intro k hk
  rw [← h k hk, List.getElem?_append_left (by omega)]

theorem FirstAt.append_left {needle x : List α} {i : Nat} (h : FirstAt needle x i) (y : List α)
    (hne : needle ≠ []) : FirstAt needle (x ++ y) i := by
  have hle := h.1.le_length hne
  refine ⟨h.1.append_left y hne, fun j hj hocc => h.2 j hj (hocc.of_append ?_)⟩
  omega

theorem firstAt_add {needle data : List α} {k i : Nat} (h : ∀ j < k, ¬ Occurs needle data j) :
    FirstAt needle data (k + i) ↔ FirstAt needle (data.drop k) i := by
  simp only [FirstAt, occurs_drop]
  refine and_congr_right fun _ => ⟨fun hlt j hj => hlt (k + j) (by omega), fun hlt j hj => ?_⟩
  rcases Nat.lt_or_ge j k with hjk | hjk
  · exact h j hjk
  · obtain ⟨m, rfl⟩ := Nat.exists_eq_add_of_le hjk
    exact hlt m (by omega)

theorem FirstAt.le {needle data : List α} {k i : Nat} (h : ∀ j < k, ¬ Occurs needle data j)
    (hi : FirstAt needle data i) : k ≤ i := by
  by_contra hlt
  exact h i (by omega) hi.1

section Position

variable [BEq α] [LawfulBEq α]

theorem windowsPosition_beq_eq_some {needle data : List α} {i : Nat} (hne : needle ≠ []) :
    windowsPosition needle.length (· == needle) data = some i ↔ FirstAt needle data i := by
  simp only [windowsPosition_eq_some, beq_iff_eq, ← occurs_iff_slice_eq, FirstAt]
  constructor
  · rintro ⟨-, h⟩
    exact h
  · intro h
    exact ⟨h.1.le_length hne, h⟩

theorem windowsPosition_beq_eq_none {needle data : List α} (hne : needle ≠ []) :
    windowsPosition needle.length (· == needle) data = none ↔ ∀ i, ¬ Occurs needle data i := by
  simp only [windowsPosition_eq_none, beq_iff_eq, ← occurs_iff_slice_eq]
  constructor
  · intro h i hi
    exact h i (hi.le_length hne) hi
  · intro h i _
    exact h i

end Position

theorem position_eq_some {p : α → Bool} {data : List α} {i : Nat} :
    data.findIdx? p = some i ↔
      (∃ a, data[i]? = some a ∧ p a) ∧ ∀ j < i, ∀ a, data[j]? = some a → ¬ p a := by
  rw [List.findIdx?_eq_some_iff_getElem]
  constructor
  · rintro ⟨hi, hp, hlt⟩
    refine ⟨⟨_, List.getElem?_eq_getElem hi, hp⟩, fun j hj a ha => ?_⟩
    rw [List.getElem?_eq_getElem (by omega)] at ha
    rw [← Option.some.inj ha]
    exact hlt j hj
  · rintro ⟨⟨a, ha, hp⟩, hlt⟩
    obtain ⟨hi, rfl⟩ := List.getElem?_eq_some_iff.mp ha
    exact ⟨hi, hp, fun j hj => hlt j hj _ (List.getElem?_eq_getElem (by omega))⟩

theorem length_takeWhile_eq_iff {p : α → Bool} {data : List α} {w : Nat} :
    (data.takeWhile p).length = w ↔
      (∀ i < w, ∃ a, data[i]? = some a ∧ p a) ∧ ¬ ∃ a, data[w]? = some a ∧ p a := by
  induction data generalizing w with
  | nil =>
    cases w with
    | zero => simp
    | succ w => simpa using ⟨0, by omega⟩
  | cons a data ih =>
    cases w with
    | zero => by_cases ha : p a <;> simp [ha]
    | succ w =>
      by_cases ha : p a
      · simp only [List.takeWhile_cons, ha, if_true, List.length_cons, Nat.add_right_cancel_iff, ih,
          List.getElem?_cons_succ]
        refine and_congr_left fun _ => ⟨fun h i hi => ?_, fun h i hi => ?_⟩
        · cases i with
          | zero => exact ⟨a, rfl, ha⟩
          | succ i => exact h i (by omega)
        · exact h (i + 1) (by omega)
      · simp only [List.takeWhile_cons, ha, Bool.false_eq_true, if_false, List.length_nil]
        apply iff_of_false (by omega)
        rintro ⟨h, -⟩
        obtain ⟨b, hb, hpb⟩ := h 0 (by omega)
        obtain rfl : a = b := by simpa using hb
        exact ha hpb

end Libid
