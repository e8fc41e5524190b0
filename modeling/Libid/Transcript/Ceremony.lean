import Libid.Base.Sorting
import Libid.Transcript.Ranges

/-! Choosing what a notarized session reveals.  Each layout names its reveals;
the commitments are what they leave. -/

namespace Libid.Transcript

/-- What one direction of one session discloses. -/
structure Layout where
  reveal : List Range
  commit : List Range
  deriving DecidableEq

inductive LayoutError
  | missingHeader (name : Bytes)
  | missingField (name : Bytes)
  | noHeadBoundary
  | missingCredential
  deriving DecidableEq

/-- What a token session's profile says of its request. -/
structure TokenSession where
  secretField : Option Bytes

/-- The generated enumeration, of which the code only asks whether a shape is `jsonString`. -/
inductive IdShape
  | jsonString
  | jsonInteger
  deriving DecidableEq

structure IdentitySession where
  idField : Bytes
  handleField : Bytes
  idShape : IdShape

/-- `Option::ok_or`. -/
def okOr {ε α : Type} (e : ε) : Option α → Except ε α
  | some a => .ok a
  | none => .error e

theorem bind_eq_ok {ε α β : Type} {x : Except ε α} {f : α → Except ε β} {b : β} :
    (x >>= f) = .ok b ↔ ∃ a, x = .ok a ∧ f a = .ok b := by
  cases x <;> simp [bind, Except.bind]

@[simp] theorem okOr_eq_ok {ε α : Type} {e : ε} {o : Option α} {a : α} :
    okOr e o = .ok a ↔ o = some a := by
  cases o <;> simp [okOr]

/-- The walk of `complement`; everything before `pos` is classified. -/
def complementFrom (len pos : Nat) : List Range → List Range
  | [] => if pos < len then [⟨pos, len⟩] else []
  | r :: reveal =>
    if r.start > pos then ⟨pos, r.start⟩ :: complementFrom len r.stop reveal
    else complementFrom len r.stop reveal

def complement (reveal : List Range) (len : Nat) : List Range := complementFrom len 0 reveal

namespace Layout

/-- The sort is stable, as `sort_by_key` is. -/
def sortByStart (reveal : List Range) : List Range :=
  reveal.insertionSort fun a b => a.start ≤ b.start

def revealing (reveal : List Range) (len : Nat) : Layout :=
  let reveal := sortByStart reveal
  { reveal := reveal, commit := complement reveal len }

/-- The revealed bytes of `data`, joined in offset order. -/
def shown (l : Layout) (data : Bytes) : Bytes := (l.reveal.map (slice data)).flatten

/-- The debug assertion of `revealing`, which a release build does not make. -/
def RevealsInOrder (l : Layout) : Prop := l.reveal.IsChain Range.Before

/-- `format!("&{field}=")`. -/
def secretNeedle (field : Bytes) : Bytes := ascii "&" ++ field ++ ascii "="

def tokenRequest (sent : Bytes) (session : TokenSession) : Except LayoutError Layout :=
  match session.secretField with
  | none => .ok (revealing [⟨0, sent.length⟩] sent.length)
  | some field => do
    let needle := secretNeedle field
    let start ← okOr .missingCredential
      (windowsPosition needle.length (· == needle) sent)
    return revealing [⟨0, start⟩] sent.length

def accessToken : Bytes := ascii "access_token"

def tokenResponse (recv : Bytes) : Except LayoutError Layout := do
  let missing := .missingField accessToken
  let found ← okOr missing (JsonMember.inResponse recv accessToken)
  if found.value.stop ≤ found.value.start then .error missing
  else
    return revealing
      [⟨found.member.start, found.value.start⟩, ⟨found.value.stop, found.member.stop⟩]
      recv.length

def bearerPrefix : Bytes := ascii "\r\nauthorization: Bearer "

def identityRequest (sent : Bytes) : Except LayoutError Layout := do
  let missing := .missingHeader (ascii "authorization")
  let prefixAt ← okOr missing
    (windowsPosition bearerPrefix.length (· == bearerPrefix) sent)
  let valueStart := prefixAt + bearerPrefix.length
  let pos ← okOr missing (windowsPosition 2 (· == crlf) (sent.drop valueStart))
  let valueEnd := valueStart + pos
  return revealing [⟨0, valueStart⟩, ⟨valueEnd, sent.length⟩] sent.length

def identityResponse (recv : Bytes) (session : IdentitySession) : Except LayoutError Layout := do
  let quoted := session.idShape == .jsonString
  let id ← okOr (.missingField session.idField)
    (computeIdSnippetRange recv session.idField quoted)
  let handle ← okOr (.missingField session.handleField)
    (computeFieldSnippetRange recv session.handleField)
  return revealing [id, handle] recv.length

theorem covers_complementFrom {len pos : Nat} {reveal : List Range} (hasc : Ascending reveal)
    (hpos : ∀ r ∈ reveal, pos ≤ r.start) (hin : ∀ r ∈ reveal, r.stop ≤ len) (i : Nat) :
    Covers (complementFrom len pos reveal) i ↔ pos ≤ i ∧ i < len ∧ ¬ Covers reveal i := by
  induction reveal generalizing pos with
  | nil =>
    rw [complementFrom]
    split
    · simp
    · simp only [covers_nil, not_false_eq_true, and_true, false_iff]
      omega
  | cons r reveal ih =>
    obtain ⟨hne, hlt, hasc'⟩ := Ascending.cons_iff.mp hasc
    have hstart := hpos r (by simp)
    have hstop := hin r (by simp)
    have ih' := ih hasc' hlt fun t ht => hin t (by simp [ht])
    -- What the tail covers lies past `r`.
    have htail : Covers reveal i → r.stop ≤ i := by
      rintro ⟨t, ht, hi⟩
      exact Nat.le_trans (hlt t ht) hi.1
    rw [complementFrom]
    by_cases hc : Covers reveal i
    · have := htail hc
      split <;> simp [ih', hc]; omega
    · split <;> simp [ih', hc] <;> omega

theorem complementFrom_maximal {len pos : Nat} {reveal : List Range} (hasc : Ascending reveal)
    (hpos : ∀ r ∈ reveal, pos ≤ r.start) :
    (∀ c ∈ complementFrom len pos reveal, pos ≤ c.start ∧ c.start < c.stop) ∧
      (complementFrom len pos reveal).Pairwise fun a b => a.stop < b.start := by
  induction reveal generalizing pos with
  | nil =>
    rw [complementFrom]
    split
    · simpa
    · simp
  | cons r reveal ih =>
    obtain ⟨hne, hlt, hasc'⟩ := Ascending.cons_iff.mp hasc
    have hstart := hpos r (by simp)
    obtain ⟨hbound, hpair⟩ := ih hasc' hlt
    have hbound' : ∀ c ∈ complementFrom len r.stop reveal, pos ≤ c.start ∧ c.start < c.stop := by
      intro c hc
      have := hbound c hc
      omega
    rw [complementFrom]
    split
    · refine ⟨?_, List.pairwise_cons.mpr ⟨?_, hpair⟩⟩
      · intro c hc
        rcases List.mem_cons.mp hc with rfl | hc
        · simpa
        · exact hbound' c hc
      · intro c hc
        have := hbound c hc
        simp only
        omega
    · exact ⟨hbound', hpair⟩

theorem complement_maximal {len : Nat} {reveal : List Range} (hasc : Ascending reveal) :
    (∀ c ∈ complement reveal len, c.start < c.stop) ∧
      (complement reveal len).Pairwise fun a b => a.stop < b.start := by
  obtain ⟨hbound, hpair⟩ := complementFrom_maximal hasc fun r _ => Nat.zero_le r.start
  exact ⟨fun c hc => (hbound c hc).2, hpair⟩

theorem ascending_complement {len : Nat} {reveal : List Range} (hasc : Ascending reveal) :
    Ascending (complement reveal len) :=
  ⟨(complement_maximal hasc).1, (complement_maximal hasc).2.imp fun h => Nat.le_of_lt h⟩

theorem covers_complement {len : Nat} {reveal : List Range} (hasc : Ascending reveal)
    (hin : ∀ r ∈ reveal, r.stop ≤ len) (i : Nat) :
    Covers (complement reveal len) i ↔ i < len ∧ ¬ Covers reveal i := by
  rw [complement, covers_complementFrom hasc (fun r _ => Nat.zero_le r.start) hin]
  simp

theorem tiles_complement {len : Nat} {reveal : List Range} (hasc : Ascending reveal)
    (hin : ∀ r ∈ reveal, r.stop ≤ len) : Tiles len (reveal ++ complement reveal len) :=
  .of_ascending hasc (ascending_complement hasc) hin (covers_complement hasc hin)

theorem perm_sortByStart (reveal : List Range) : (sortByStart reveal).Perm reveal :=
  List.perm_insertionSort ..

theorem pairwise_sortByStart (reveal : List Range) :
    (sortByStart reveal).Pairwise fun a b => a.start ≤ b.start := by
  have : Std.Total fun a b : Range => a.start ≤ b.start := ⟨fun _ _ => Nat.le_total ..⟩
  have : IsTrans Range fun a b : Range => a.start ≤ b.start := ⟨fun _ _ _ => Nat.le_trans⟩
  exact List.pairwise_insertionSort (fun a b : Range => a.start ≤ b.start) reveal

theorem ascending_sortByStart {reveal : List Range} (hne : ∀ r ∈ reveal, r.start < r.stop)
    (hdis : reveal.Pairwise Range.Disjoint) : Ascending (sortByStart reveal) := by
  have hperm := perm_sortByStart reveal
  exact .of_sorted (fun r hr => hne r (hperm.mem_iff.mp hr))
    (hperm.symm.pairwise hdis Range.Disjoint.symm) (pairwise_sortByStart reveal)

theorem sortByStart_eq_of_perm {reveal reveal' : List Range}
    (hne : ∀ r ∈ reveal, r.start < r.stop) (hdis : reveal.Pairwise Range.Disjoint)
    (h : reveal.Perm reveal') : sortByStart reveal = sortByStart reveal' := by
  have : Std.Total fun a b : Range => a.start ≤ b.start := ⟨fun _ _ => Nat.le_total ..⟩
  have : IsTrans Range fun a b : Range => a.start ≤ b.start := ⟨fun _ _ _ => Nat.le_trans⟩
  have : Std.Symm Range.Disjoint := ⟨fun _ _ => Range.Disjoint.symm⟩
  apply Sorting.insertionSort_eq_of_perm _ h
  intro a ha b hb htied
  by_contra hab
  have hstart := hdis.forall ha hb hab a.start
  have hla := hne a ha
  have hlb := hne b hb
  have hle := htied.1
  have hge := htied.2
  simp only [Range.mem_iff] at hstart hle hge
  omega

theorem sortByStart_eq_self {reveal : List Range} (hasc : Ascending reveal) :
    sortByStart reveal = reveal := by
  refine List.Pairwise.insertionSort_eq (hasc.ordered.imp_of_mem ?_)
  intro a b ha hb h
  have := hasc.nonempty a ha
  exact Nat.le_trans (Nat.le_of_lt this) h

theorem sortByStart_pair (a b : Range) :
    sortByStart [a, b] = if a.start ≤ b.start then [a, b] else [b, a] := by
  simp only [sortByStart, List.insertionSort_cons, List.insertionSort_nil, List.orderedInsert]

@[simp] theorem revealing_reveal (reveal : List Range) (len : Nat) :
    (revealing reveal len).reveal = sortByStart reveal := rfl

@[simp] theorem revealing_commit (reveal : List Range) (len : Nat) :
    (revealing reveal len).commit = complement (sortByStart reveal) len := rfl

structure Accounts (l : Layout) (len : Nat) : Prop where
  ascending : Ascending l.reveal
  tiles : Tiles len (l.reveal ++ l.commit)

theorem accounts_revealing {reveal : List Range} {len : Nat}
    (hne : ∀ r ∈ reveal, r.start < r.stop) (hin : ∀ r ∈ reveal, r.stop ≤ len)
    (hdis : reveal.Pairwise Range.Disjoint) : (revealing reveal len).Accounts len where
  ascending := ascending_sortByStart hne hdis
  tiles := tiles_complement (ascending_sortByStart hne hdis) fun r hr =>
    hin r ((perm_sortByStart reveal).mem_iff.mp hr)

/-- The layout reveals exactly the ranges of `reveal`, in order, and commits the rest of
`[0, len)` in as few ranges as hold it. -/
structure Partitions (l : Layout) (reveal : List Range) (len : Nat) : Prop where
  perm : l.reveal.Perm reveal
  sorted : l.reveal.Pairwise fun a b => a.start < b.start
  inOrder : l.RevealsInOrder
  nonempty : ∀ c ∈ l.commit, c.start < c.stop
  apart : l.commit.Pairwise fun a b => a.stop < b.start
  covers : ∀ i, Covers l.commit i ↔ i < len ∧ ¬ Covers reveal i

/-- Disjoint reveals in any order leave one and the same partition. -/
theorem revealing_partitions {reveal : List Range} {len : Nat}
    (hne : ∀ r ∈ reveal, r.start < r.stop) (hin : ∀ r ∈ reveal, r.stop ≤ len)
    (hdis : reveal.Pairwise Range.Disjoint) :
    (revealing reveal len).Partitions reveal len ∧
      ∀ reveal', reveal'.Perm reveal → revealing reveal' len = revealing reveal len := by
  have hperm := perm_sortByStart reveal
  have hasc := ascending_sortByStart hne hdis
  obtain ⟨hnonempty, hapart⟩ : (∀ c ∈ complement (sortByStart reveal) len, c.start < c.stop) ∧ _ :=
    complement_maximal hasc
  refine ⟨⟨hperm, ?_, hasc.ordered.isChain, hnonempty, hapart, ?_⟩, ?_⟩
  · apply hasc.ordered.imp_of_mem
    intro a b ha _ h
    exact Nat.lt_of_lt_of_le (hasc.nonempty a ha) h
  · intro i
    rw [revealing_commit, covers_complement hasc fun r hr => hin r (hperm.mem_iff.mp hr),
      covers_perm hperm]
  · intro reveal' h
    rw [revealing, revealing, sortByStart_eq_of_perm hne hdis h.symm]

theorem revealing_partitions_run :
    let reveal : List Range := [⟨7, 9⟩, ⟨1, 3⟩, ⟨3, 4⟩]
    revealing reveal 9 = ⟨[⟨1, 3⟩, ⟨3, 4⟩, ⟨7, 9⟩], [⟨0, 1⟩, ⟨4, 7⟩]⟩ ∧
      (revealing reveal 9).Partitions reveal 9 ∧
        ∀ reveal', reveal'.Perm reveal → revealing reveal' 9 = revealing reveal 9 := by
  refine ⟨by decide, revealing_partitions (by decide) (by decide) ?_⟩
  simp only [List.pairwise_cons, List.forall_mem_cons, Range.Disjoint, Range.mem_iff]
  refine ⟨⟨?_, ?_, by simp⟩, ⟨?_, by simp⟩, by simp⟩ <;> omega

end Layout

end Libid.Transcript
