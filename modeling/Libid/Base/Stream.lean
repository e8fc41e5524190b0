import Libid.Base.Bytes

namespace Libid

/-- What the reads to come return, one after the other.  An empty read means the end, so
none of these is empty. -/
structure ByteStream where
  segments : List Bytes
  nonempty : ∀ s ∈ segments, s ≠ []

namespace ByteStream

def bytes (s : ByteStream) : Bytes := s.segments.flatten

/-- A stream that hands over everything at once. -/
def ofBytes (bs : Bytes) : ByteStream where
  segments := if bs = [] then [] else [bs]
  nonempty := by
    split
    case isTrue => simp
    case isFalse h => simpa using h

@[simp] theorem bytes_ofBytes (bs : Bytes) : (ofBytes bs).bytes = bs := by
  by_cases h : bs = []
  · simp [bytes, ofBytes, h]
  · simp [bytes, ofBytes, h]

/-- What one read into a buffer of `n` bytes returns. -/
def read (n : Nat) (s : ByteStream) : Bytes := (s.segments.headD []).take n

def readExactFrom : Nat → List Bytes → Option (Bytes × List Bytes)
  | 0, segments => some ([], segments)
  | _ + 1, [] => none
  | n + 1, s :: segments =>
    if n + 1 < s.length then some (s.take (n + 1), s.drop (n + 1) :: segments)
    else (readExactFrom (n + 1 - s.length) segments).map fun p => (s ++ p.1, p.2)

theorem readExactFrom_nonempty {n : Nat} {segments rest : List Bytes} {bs : Bytes}
    (hne : ∀ s ∈ segments, s ≠ []) (h : readExactFrom n segments = some (bs, rest)) :
    ∀ s ∈ rest, s ≠ [] := by
  induction segments generalizing n bs with
  | nil =>
    cases n with
    | zero =>
      obtain ⟨-, rfl⟩ : [] = bs ∧ [] = rest := by simpa [readExactFrom] using h
      exact hne
    | succ n => simp [readExactFrom] at h
  | cons s segments ih =>
    cases n with
    | zero =>
      obtain ⟨-, rfl⟩ : [] = bs ∧ s :: segments = rest := by simpa [readExactFrom] using h
      exact hne
    | succ n =>
      have htail : ∀ r ∈ segments, r ≠ [] := fun r hr => hne r (by simp [hr])
      rw [readExactFrom] at h
      split at h
      case isTrue hlt =>
        obtain ⟨-, rfl⟩ := Prod.mk.inj (Option.some.inj h)
        intro r hr
        rcases List.mem_cons.mp hr with rfl | hr
        · exact List.ne_nil_of_length_pos (by rw [List.length_drop]; omega)
        · exact htail r hr
      case isFalse =>
        obtain ⟨⟨bs', rest'⟩, hread, hp⟩ := Option.map_eq_some_iff.mp h
        obtain ⟨-, rfl⟩ := Prod.mk.inj hp
        exact ih htail hread

theorem readExactFrom_append {bs rest : Bytes} {segments : List Bytes}
    (h : segments.flatten = bs ++ rest) :
    ∃ segments', readExactFrom bs.length segments = some (bs, segments') ∧
      segments'.flatten = rest := by
  induction segments generalizing bs with
  | nil =>
    obtain ⟨rfl, rfl⟩ : bs = [] ∧ rest = [] := by simpa [eq_comm] using h
    exact ⟨[], rfl, rfl⟩
  | cons s segments ih =>
    cases hn : bs.length with
    | zero =>
      obtain rfl := List.length_eq_zero_iff.mp hn
      exact ⟨s :: segments, rfl, h⟩
    | succ n =>
      rw [readExactFrom]
      rcases List.append_eq_append_iff.mp (List.flatten_cons ▸ h) with
        ⟨more, rfl, hflat⟩ | ⟨left, rfl, rfl⟩
      -- The read returned no more than was asked for.
      · obtain ⟨segments', hread, hrest⟩ := ih hflat
        rw [List.length_append] at hn
        rw [if_neg (by omega), show n + 1 - s.length = more.length by omega, hread]
        exact ⟨segments', rfl, hrest⟩
      -- The read returned `left` besides.
      · rw [← hn]
        split
        case isTrue =>
          rw [List.take_left, List.drop_left]
          exact ⟨_, rfl, List.flatten_cons⟩
        case isFalse hle =>
          obtain rfl : left = [] := by
            rw [List.length_append] at hle
            exact List.length_eq_zero_iff.mp (by omega)
          obtain ⟨segments', hread, hrest⟩ := ih (List.nil_append segments.flatten).symm
          rw [List.append_nil, Nat.sub_self, ← List.length_nil, hread]
          exact ⟨segments', by simp, hrest⟩

theorem readExactFrom_eq_none {n : Nat} {segments : List Bytes}
    (h : segments.flatten.length < n) : readExactFrom n segments = none := by
  induction segments generalizing n with
  | nil =>
    cases n with
    | zero => simp at h
    | succ n => rfl
  | cons s segments ih =>
    rw [List.flatten_cons, List.length_append] at h
    cases n with
    | zero => simp at h
    | succ n =>
      rw [readExactFrom, if_neg (by omega), ih (by omega), Option.map_none]

def readExact (n : Nat) (s : ByteStream) : Option (Bytes × ByteStream) :=
  match h : readExactFrom n s.segments with
  | none => none
  | some p => some (p.1, ⟨p.2, readExactFrom_nonempty s.nonempty h⟩)

theorem readExact_append {s : ByteStream} {bs rest : Bytes} (h : s.bytes = bs ++ rest) :
    ∃ t, s.readExact bs.length = some (bs, t) ∧ t.bytes = rest := by
  obtain ⟨segments, hread, hrest⟩ := readExactFrom_append h
  rw [readExact]
  split
  case h_1 hnone => simp [hread] at hnone
  case h_2 p hp =>
    obtain rfl := Option.some.inj (hp.symm.trans hread)
    exact ⟨_, rfl, hrest⟩

theorem readExact_eq_none {s : ByteStream} {n : Nat} (h : s.bytes.length < n) :
    s.readExact n = none := by
  have hread := readExactFrom_eq_none h
  rw [readExact]
  split
  case h_1 => rfl
  case h_2 p hp => simp [hread] at hp

end ByteStream

end Libid
