import Libid.Base.Bytes
import Mathlib.Data.List.Count

namespace Libid

variable {α : Type*} [DecidableEq α]

/-- `haystack.windows(needle.len()).filter(|w| *w == needle).count()`. -/
def count (haystack needle : List α) : Nat :=
  ((windows needle.length haystack).filter (· == needle)).length

theorem count_eq_countP (haystack needle : List α) : count haystack needle =
    (List.range (haystack.length + 1 - needle.length)).countP
      fun i => decide (Occurs needle haystack i) := by
  rw [count, windows, ← List.countP_eq_length_filter, List.countP_map]
  refine List.countP_congr fun i _ => ?_
  have hslice : Occurs needle haystack i ↔ slice haystack ⟨i, i + needle.length⟩ = needle :=
    occurs_iff_slice_eq
  rw [slice, Nat.add_sub_cancel_left] at hslice
  simp only [Function.comp_apply, beq_iff_eq, decide_eq_true_eq, hslice]

theorem count_nil {needle : List α} (hne : needle ≠ []) : count [] needle = 0 := by
  have hpos := List.length_pos_of_ne_nil hne
  rw [count_eq_countP, List.length_nil, show 0 + 1 - needle.length = 0 by omega]
  rfl

theorem count_cons {needle : List α} (a : α) (data : List α) :
    count (a :: data) needle = (if needle <+: a :: data then 1 else 0) + count data needle := by
  rw [count_eq_countP, count_eq_countP, List.length_cons]
  by_cases hle : needle.length ≤ data.length + 1
  · have hfirst : data.length + 1 + 1 - needle.length = data.length + 1 - needle.length + 1 := by
      omega
    rw [hfirst, List.range_succ_eq_map, List.countP_cons, List.countP_map, Nat.add_comm]
    simp only [decide_eq_true_eq]
    rfl
  · have hno : ¬ needle <+: a :: data := fun hbegins => hle hbegins.length_le
    rw [if_neg hno, show data.length + 1 + 1 - needle.length = 0 by omega,
      show data.length + 1 - needle.length = 0 by omega]
    rfl

theorem count_eq_zero_iff {haystack needle : List α} (hne : needle ≠ []) :
    count haystack needle = 0 ↔ ¬ needle <:+: haystack := by
  induction haystack with
  | nil => simp [count_nil hne, hne]
  | cons a data ih =>
    rw [count_cons, Nat.add_eq_zero_iff, ih, List.infix_cons_iff, not_or]
    simp

omit [DecidableEq α] in
theorem isInfix_iff_occurs {needle data : List α} :
    needle <:+: data ↔ ∃ i, Occurs needle data i := by
  rw [List.infix_iff_prefix_suffix]
  constructor
  · rintro ⟨t, hbegins, hsuffix⟩
    refine ⟨data.length - t.length, ?_⟩
    rw [Occurs, ← List.suffix_iff_eq_drop.mp hsuffix]
    exact hbegins
  · rintro ⟨i, hi⟩
    exact ⟨data.drop i, hi, List.drop_suffix ..⟩

theorem count_append_of_notMem {sep : α} {rest piece : List α} (h : sep ∉ piece)
    (data : List α) : count (piece ++ data) (sep :: rest) = count data (sep :: rest) := by
  induction piece with
  | nil => rfl
  | cons a piece ih =>
    rw [List.mem_cons, not_or] at h
    have hno : ¬ (sep :: rest) <+: a :: (piece ++ data) := fun hbegins =>
      h.1 (List.cons_prefix_cons.mp hbegins).1
    rw [List.cons_append, count_cons, if_neg hno, Nat.zero_add, ih h.2]

omit [DecidableEq α] in
theorem isPrefix_append_cons_iff {sep : α} {needle : List α} (h : sep ∉ needle)
    (line rest : List α) : needle <+: line ++ sep :: rest ↔ needle <+: line := by
  constructor
  · intro hbegins
    rcases List.prefix_or_prefix_of_prefix hbegins (List.prefix_append line _) with hline | htail
    · exact hline
    · obtain ⟨tail, rfl⟩ := htail
      cases tail with
      | nil => rw [List.append_nil]
      | cons b tail =>
        obtain ⟨rfl, -⟩ := List.cons_prefix_cons.mp ((List.prefix_append_right_inj line).mp hbegins)
        exact absurd (List.mem_append_right _ List.mem_cons_self) h
  · exact fun hline => hline.trans (List.prefix_append ..)

section Separators

variable {sep : α} {needle : List α}

theorem count_append_cons (h : sep ∉ needle) (x y : List α) :
    count (x ++ sep :: y) needle = count x needle + count y needle := by
  induction x with
  | nil =>
    have hbegins := isPrefix_append_cons_iff h [] y
    rw [List.nil_append] at hbegins ⊢
    rw [count_cons, if_congr hbegins rfl rfl]
    cases needle with
    | nil => rfl
    | cons a needle => simp [count_nil]
  | cons a x ih =>
    have hbegins := isPrefix_append_cons_iff h (a :: x) y
    rw [List.cons_append] at hbegins ⊢
    rw [count_cons, count_cons, ih, if_congr hbegins rfl rfl, Nat.add_assoc]

omit [DecidableEq α] in
theorem isPrefix_concat_iff {name x : List α} (hname : sep ∉ name) (hx : sep ∉ x) (y : List α) :
    name ++ [sep] <+: x ++ sep :: y ↔ name = x := by
  induction name generalizing x with
  | nil =>
    cases x with
    | nil => simp
    | cons a x => simpa using fun h : sep = a => hx (by simp [h])
  | cons b name ih =>
    rw [List.mem_cons, not_or] at hname
    cases x with
    | nil => simpa using fun h : b = sep => absurd h.symm hname.1
    | cons a x =>
      rw [List.mem_cons, not_or] at hx
      rw [List.cons_append, List.cons_append, List.cons_prefix_cons, ih hname.2 hx.2,
        List.cons.injEq]

theorem count_concat {name x y : List α} (hname : sep ∉ name) (hx : sep ∉ x) (hy : sep ∉ y) :
    count (x ++ sep :: y) (name ++ [sep]) = if name <:+ x then 1 else 0 := by
  have hnone : count y (name ++ [sep]) = 0 := by
    rw [count_eq_zero_iff (by simp)]
    exact fun h => hy (h.subset (by simp))
  induction x with
  | nil =>
    have hbegins := isPrefix_concat_iff hname hx y
    rw [List.nil_append] at hbegins ⊢
    rw [count_cons, if_congr hbegins rfl rfl, hnone, Nat.add_zero]
    exact if_congr List.suffix_nil.symm rfl rfl
  | cons a x ih =>
    have hbegins := isPrefix_concat_iff hname hx y
    rw [List.mem_cons, not_or] at hx
    rw [List.cons_append] at hbegins ⊢
    rw [count_cons, if_congr hbegins rfl rfl, ih hx.2]
    by_cases heq : name = a :: x
    · have hlong : ¬ a :: x <:+ x := fun h => by
        have := h.length_le
        rw [List.length_cons] at this
        omega
      simp [heq, hlong]
    · simp [List.suffix_cons_iff, heq]

end Separators

section Lines

variable {sep : α} {rest needle : List α} {lines : List (List α)}

/-- The lines of a text, each after the separator `sep :: rest`. -/
def joinLines (sep : α) (rest : List α) (lines : List (List α)) : List α :=
  lines.flatMap fun line => sep :: (rest ++ line)

omit [DecidableEq α] in
theorem joinLines_cons (line : List α) (lines : List (List α)) :
    joinLines sep rest (line :: lines) = sep :: (rest ++ line) ++ joinLines sep rest lines :=
  List.flatMap_cons

omit [DecidableEq α] in
theorem joinLines_append (x y : List (List α)) :
    joinLines sep rest (x ++ y) = joinLines sep rest x ++ joinLines sep rest y :=
  List.flatMap_append

omit [DecidableEq α] in
theorem joinLines_append_cons (lines : List (List α)) (stop : List α) :
    ∃ t, joinLines sep rest lines ++ sep :: stop = sep :: t := by
  cases lines with
  | nil => exact ⟨stop, rfl⟩
  | cons line lines => exact ⟨_, rfl⟩

omit [DecidableEq α] in
theorem isPrefix_line_iff (hneedle : sep ∉ needle) (line : List α) (lines : List (List α))
    (stop : List α) :
    sep :: (rest ++ needle) <+: joinLines sep rest (line :: lines) ++ sep :: stop ↔
      needle <+: line := by
  obtain ⟨t, ht⟩ : ∃ t, joinLines sep rest lines ++ sep :: stop = sep :: t :=
    joinLines_append_cons lines stop
  rw [joinLines_cons, List.append_assoc, ht, List.cons_append,
    List.cons_prefix_cons, List.append_assoc, List.prefix_append_right_inj,
    isPrefix_append_cons_iff hneedle]
  exact and_iff_right rfl

theorem count_joinLines (hrest : sep ∉ rest) (hneedle : sep ∉ needle)
    (hlines : ∀ line ∈ lines, sep ∉ line) (stop : List α) :
    count (joinLines sep rest lines ++ sep :: stop) (sep :: (rest ++ needle)) =
      lines.countP (needle <+: ·) + count (sep :: stop) (sep :: (rest ++ needle)) := by
  induction lines with
  | nil => simp [joinLines]
  | cons line lines ih =>
    have hline : sep ∉ rest ++ line := by
      rw [List.mem_append, not_or]
      exact ⟨hrest, hlines line List.mem_cons_self⟩
    have hfirst : sep :: (rest ++ needle) <+: joinLines sep rest (line :: lines) ++ sep :: stop ↔
        needle <+: line := isPrefix_line_iff hneedle line lines stop
    have htext : joinLines sep rest (line :: lines) ++ sep :: stop =
        sep :: ((rest ++ line) ++ (joinLines sep rest lines ++ sep :: stop)) := by
      rw [joinLines_cons, List.append_assoc, List.cons_append]
    rw [htext] at hfirst ⊢
    rw [count_cons, count_append_of_notMem hline,
      ih fun line hmem => hlines line (List.mem_cons_of_mem _ hmem), List.countP_cons]
    simp only [hfirst, decide_eq_true_eq]
    omega

omit [DecidableEq α] in
theorem occurs_joinLines (hrest : sep ∉ rest) (hneedle : sep ∉ needle)
    (hlines : ∀ line ∈ lines, sep ∉ line) (stop : List α) {i : Nat}
    (hi : Occurs (sep :: (rest ++ needle)) (joinLines sep rest lines ++ sep :: stop) i) :
    (∃ x line y, lines = x ++ line :: y ∧ needle <+: line ∧
        i = (joinLines sep rest x).length) ∨
      ∃ k, i = (joinLines sep rest lines).length + k ∧
        Occurs (sep :: (rest ++ needle)) (sep :: stop) k := by
  induction lines generalizing i with
  | nil => exact .inr ⟨i, by simp [joinLines], hi⟩
  | cons line lines ih =>
    have hline : sep ∉ rest ++ line := by
      rw [List.mem_append, not_or]
      exact ⟨hrest, hlines line List.mem_cons_self⟩
    have htext : joinLines sep rest (line :: lines) ++ sep :: stop =
        sep :: (rest ++ line) ++ (joinLines sep rest lines ++ sep :: stop) := by
      rw [joinLines_cons, List.append_assoc]
    rcases Nat.eq_zero_or_pos i with rfl | hpos
    · exact .inl ⟨[], line, lines, rfl, (isPrefix_line_iff hneedle line lines stop).mp hi, rfl⟩
    · have hge : (sep :: (rest ++ line)).length ≤ i := by
        by_contra hlt
        have hsep := Occurs.getElem? hi (k := 0) (a := sep) rfl
        rw [htext, Nat.add_zero, List.getElem?_append_left (by omega)] at hsep
        obtain ⟨j, rfl⟩ := Nat.exists_eq_add_of_lt hpos
        rw [Nat.zero_add, List.getElem?_cons_succ] at hsep
        exact hline (List.mem_of_getElem? hsep)
      obtain ⟨j, rfl⟩ := Nat.exists_eq_add_of_le hge
      rw [htext, Occurs, ← List.drop_drop, List.drop_left] at hi
      rcases ih (fun line hmem => hlines line (List.mem_cons_of_mem _ hmem)) hi with
        ⟨x, found, y, rfl, hfound, rfl⟩ | ⟨k, rfl, hk⟩
      · exact .inl ⟨line :: x, found, y, rfl, hfound, by rw [joinLines_cons, List.length_append]⟩
      · exact .inr ⟨k, by rw [joinLines_cons, List.length_append, Nat.add_assoc], hk⟩

omit [DecidableEq α] in
theorem firstAt_joinLines {front : List α} (hfront : sep ∉ front) (hrest : sep ∉ rest)
    (hneedle : sep ∉ needle) (hlines : ∀ line ∈ lines, sep ∉ line)
    (hno : ∀ line ∈ lines, ¬ needle <+: line) (t : List α) :
    FirstAt (sep :: (rest ++ needle))
      (front ++ (joinLines sep rest lines ++ sep :: (rest ++ needle ++ t)))
      (front.length + (joinLines sep rest lines).length) := by
  constructor
  · rw [Occurs, ← List.drop_drop, List.drop_left, List.drop_left, ← List.cons_append]
    exact List.prefix_append ..
  · intro i hi hocc
    rcases Nat.lt_or_ge i front.length with hlt | hge
    · have hsep := Occurs.getElem? hocc (k := 0) (a := sep) rfl
      rw [Nat.add_zero, List.getElem?_append_left hlt] at hsep
      exact hfront (List.mem_of_getElem? hsep)
    · obtain ⟨j, rfl⟩ := Nat.exists_eq_add_of_le hge
      rw [Occurs, ← List.drop_drop, List.drop_left] at hocc
      rcases occurs_joinLines hrest hneedle hlines _ hocc with
        ⟨x, line, y, rfl, hline, -⟩ | ⟨k, rfl, -⟩
      · exact hno line (by simp) hline
      · omega

end Lines

end Libid
