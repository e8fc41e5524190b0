import Mathlib.Data.List.Sort

namespace Libid.Sorting

variable {α : Type} (r : α → α → Prop)

/-- Neither of the two has to come first. -/
def Tied (a b : α) : Prop := r a b ∧ r b a

variable {r}

theorem Tied.refl [Std.Total r] (a : α) : Tied r a a := ⟨Std.Refl.refl a, Std.Refl.refl a⟩

variable [DecidableRel r]

instance (a : α) : DecidablePred (Tied r a) := fun _ => instDecidableAnd

theorem filter_orderedInsert [IsTrans α r] (a b : α) (as : List α) :
    (as.orderedInsert r b).filter (Tied r a ·) = (b :: as).filter (Tied r a ·) := by
  induction as with
  | nil => rfl
  | cons c as ih =>
    by_cases hbc : r b c
    · rw [List.orderedInsert_cons_of_le _ _ hbc]
    · rw [List.orderedInsert_of_not_le _ _ hbc, List.filter_cons, ih]
      by_cases hb : Tied r a b
      · have hc : ¬ Tied r a c := fun h => hbc (IsTrans.trans b a c hb.2 h.1)
        simp [hb, hc]
      · simp [List.filter_cons, hb]

theorem filter_insertionSort [IsTrans α r] (a : α) (as : List α) :
    (as.insertionSort r).filter (Tied r a ·) = as.filter (Tied r a ·) := by
  induction as with
  | nil => rfl
  | cons b as ih =>
    rw [List.insertionSort_cons, filter_orderedInsert, List.filter_cons, List.filter_cons, ih]

/-- A sort that puts two tied elements in either order at once cannot tell them apart. -/
theorem Tied.eq_of_insertionSort_swap [Std.Total r] [IsTrans α r] {a b : α} {as : List α}
    (hab : Tied r a b)
    (h : (a :: b :: as).insertionSort r = (b :: a :: as).insertionSort r) : a = b := by
  have hf := congrArg (List.filter (Tied r a ·)) h
  rw [filter_insertionSort, filter_insertionSort] at hf
  have haa : Tied r a a := .refl a
  simp only [List.filter_cons, hab, haa, decide_true, if_true] at hf
  exact (List.cons.inj hf).1

theorem insertionSort_eq_of_perm [Std.Total r] [IsTrans α r] {as bs : List α}
    (htied : ∀ a ∈ as, ∀ b ∈ as, Tied r a b → a = b) (hp : as.Perm bs) :
    as.insertionSort r = bs.insertionSort r := by
  have hsort := List.perm_insertionSort r
  refine List.Perm.eq_of_pairwise (fun a b ha hb hab hba => ?_)
    (List.pairwise_insertionSort r as) (List.pairwise_insertionSort r bs)
    ((hsort as).trans (hp.trans (hsort bs).symm))
  exact htied a ((hsort as).mem_iff.mp ha) b (hp.mem_iff.mpr ((hsort bs).mem_iff.mp hb))
    ⟨hab, hba⟩

end Libid.Sorting
