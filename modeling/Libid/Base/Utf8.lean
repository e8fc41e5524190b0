import Libid.Base.Ascii

namespace Libid

def utf8 (s : String) : Bytes := s.toList.flatMap String.utf8EncodeChar

theorem ofNat_le_iff {m n : Nat} (hm : m < 256) (hn : n < 256) :
    UInt8.ofNat m ≤ UInt8.ofNat n ↔ m ≤ n := by
  rw [UInt8.le_iff_toNat_le, UInt8.toNat_ofNat_of_lt' hm, UInt8.toNat_ofNat_of_lt' hn]

theorem between_ofNat {low high n : Nat} (hlow : low ≤ n) (hn : n ≤ high) (hhigh : high < 256) :
    (decide (UInt8.ofNat low ≤ UInt8.ofNat n) && decide (UInt8.ofNat n ≤ UInt8.ofNat high)) =
      true := by
  rw [Bool.and_eq_true, decide_eq_true_eq, decide_eq_true_eq,
    ofNat_le_iff (by omega) (by omega), ofNat_le_iff (by omega) hhigh]
  exact ⟨hlow, hn⟩

theorem not_between_ofNat {low high n : Nat} (hn : n < 256) (h : high < n) :
    (decide (UInt8.ofNat low ≤ UInt8.ofNat n) && decide (UInt8.ofNat n ≤ UInt8.ofNat high)) =
      false := by
  rw [Bool.and_eq_false_iff, decide_eq_false_iff_not, decide_eq_false_iff_not,
    ofNat_le_iff hn (by omega)]
  exact .inr (Nat.not_le.mpr h)

theorem isUtf8Cont_ofNat {n : Nat} (hn : 0x80 ≤ n) (hlt : n ≤ 0xbf) :
    isUtf8Cont (.ofNat n) = true := between_ofNat hn hlt (by decide)

theorem not_lt_ofNat {n : Nat} (hn : 0x80 ≤ n) (hlt : n < 256) : ¬ UInt8.ofNat n < 0x80 := by
  rw [UInt8.lt_iff_toNat_lt, UInt8.toNat_ofNat_of_lt' hlt]
  exact Nat.not_lt.mpr hn

theorem fromUtf8LossyFrom_one {a : Nat} (ha : a < 0x80) (rest : Bytes) :
    fromUtf8LossyFrom 0 true (.ofNat a :: rest) = .ofNat a :: fromUtf8LossyFrom 0 true rest := by
  have hpiece : utf8Piece (.ofNat a) rest = (0, true) := by
    rw [utf8Piece, if_pos]
    rw [UInt8.lt_iff_toNat_lt, UInt8.toNat_ofNat_of_lt' (show a < 256 by omega)]
    exact ha
  simp only [fromUtf8LossyFrom, hpiece, if_true]

theorem fromUtf8LossyFrom_two {a b : Nat} (ha : 0xc2 ≤ a) (ha' : a ≤ 0xdf) (hb : 0x80 ≤ b)
    (hb' : b ≤ 0xbf) (rest : Bytes) :
    fromUtf8LossyFrom 0 true (.ofNat a :: .ofNat b :: rest) =
      .ofNat a :: .ofNat b :: fromUtf8LossyFrom 0 true rest := by
  have hpiece : utf8Piece (.ofNat a) (.ofNat b :: rest) = (1, true) := by
    have htwo : (0xc2 ≤ UInt8.ofNat a && UInt8.ofNat a ≤ 0xdf) = true :=
      between_ofNat ha ha' (by decide)
    rw [utf8Piece, if_neg (not_lt_ofNat (by omega) (by omega)), if_pos htwo]
    exact if_pos (isUtf8Cont_ofNat hb hb')
  simp only [fromUtf8LossyFrom, hpiece, if_true]

theorem fromUtf8LossyFrom_three {a b c : Nat} (ha : 0xe0 ≤ a) (ha' : a ≤ 0xef) (hb : 0x80 ≤ b)
    (hb' : b ≤ 0xbf) (hlow : a = 0xe0 → 0xa0 ≤ b) (hsurrogate : a = 0xed → b ≤ 0x9f)
    (hc : 0x80 ≤ c) (hc' : c ≤ 0xbf) (rest : Bytes) :
    fromUtf8LossyFrom 0 true (.ofNat a :: .ofNat b :: .ofNat c :: rest) =
      .ofNat a :: .ofNat b :: .ofNat c :: fromUtf8LossyFrom 0 true rest := by
  have hsecond : isUtf8Second3 (.ofNat a) (.ofNat b) = true := by
    simp only [isUtf8Second3, Bool.or_eq_true, Bool.and_assoc]
    obtain rfl | rfl | hmid | hhigh :
        a = 0xe0 ∨ a = 0xed ∨ (0xe1 ≤ a ∧ a ≤ 0xec) ∨ (0xee ≤ a ∧ a ≤ 0xef) := by omega
    · exact .inl (.inl (.inl (between_ofNat (hlow rfl) hb' (by decide))))
    · exact .inl (.inr (between_ofNat hb (hsurrogate rfl) (by decide)))
    · rw [isUtf8Cont_ofNat hb hb', Bool.and_true, Bool.and_true]
      exact .inl (.inl (.inr (between_ofNat hmid.1 hmid.2 (by decide))))
    · rw [isUtf8Cont_ofNat hb hb', Bool.and_true, Bool.and_true]
      exact .inr (between_ofNat hhigh.1 hhigh.2 (by decide))
  have hpiece : utf8Piece (.ofNat a) (.ofNat b :: .ofNat c :: rest) = (2, true) := by
    have htwo : (0xc2 ≤ UInt8.ofNat a && UInt8.ofNat a ≤ 0xdf) = false :=
      not_between_ofNat (by omega) (show 0xdf < a by omega)
    have hthree : (0xe0 ≤ UInt8.ofNat a && UInt8.ofNat a ≤ 0xef) = true :=
      between_ofNat ha ha' (by decide)
    rw [utf8Piece, if_neg (not_lt_ofNat (by omega) (by omega)), htwo, hthree,
      if_neg Bool.false_ne_true, if_pos rfl]
    exact (if_pos hsecond).trans (if_pos (isUtf8Cont_ofNat hc hc'))
  simp only [fromUtf8LossyFrom, hpiece, if_true]

theorem fromUtf8LossyFrom_four {a b c d : Nat} (ha : 0xf0 ≤ a) (ha' : a ≤ 0xf4) (hb : 0x80 ≤ b)
    (hb' : b ≤ 0xbf) (hlow : a = 0xf0 → 0x90 ≤ b) (hhigh : a = 0xf4 → b ≤ 0x8f) (hc : 0x80 ≤ c)
    (hc' : c ≤ 0xbf) (hd : 0x80 ≤ d) (hd' : d ≤ 0xbf) (rest : Bytes) :
    fromUtf8LossyFrom 0 true (.ofNat a :: .ofNat b :: .ofNat c :: .ofNat d :: rest) =
      .ofNat a :: .ofNat b :: .ofNat c :: .ofNat d :: fromUtf8LossyFrom 0 true rest := by
  have hsecond : isUtf8Second4 (.ofNat a) (.ofNat b) = true := by
    simp only [isUtf8Second4, Bool.or_eq_true, Bool.and_assoc]
    obtain rfl | rfl | hmid : a = 0xf0 ∨ a = 0xf4 ∨ (0xf1 ≤ a ∧ a ≤ 0xf3) := by omega
    · exact .inl (.inl (between_ofNat (hlow rfl) hb' (by decide)))
    · exact .inr (between_ofNat hb (hhigh rfl) (by decide))
    · rw [isUtf8Cont_ofNat hb hb', Bool.and_true]
      exact .inl (.inr (between_ofNat hmid.1 hmid.2 (by decide)))
  have hpiece : utf8Piece (.ofNat a) (.ofNat b :: .ofNat c :: .ofNat d :: rest) = (3, true) := by
    have htwo : (0xc2 ≤ UInt8.ofNat a && UInt8.ofNat a ≤ 0xdf) = false :=
      not_between_ofNat (by omega) (show 0xdf < a by omega)
    have hthree : (0xe0 ≤ UInt8.ofNat a && UInt8.ofNat a ≤ 0xef) = false :=
      not_between_ofNat (by omega) (show 0xef < a by omega)
    have hfour : (0xf0 ≤ UInt8.ofNat a && UInt8.ofNat a ≤ 0xf4) = true :=
      between_ofNat ha ha' (by decide)
    rw [utf8Piece, if_neg (not_lt_ofNat (by omega) (by omega)), htwo, hthree, hfour,
      if_neg Bool.false_ne_true, if_neg Bool.false_ne_true, if_pos rfl]
    exact (if_pos hsecond).trans
      ((if_pos (isUtf8Cont_ofNat hc hc')).trans (if_pos (isUtf8Cont_ofNat hd hd')))
  simp only [fromUtf8LossyFrom, hpiece, if_true]

theorem fromUtf8LossyFrom_char (c : Char) (rest : Bytes) :
    fromUtf8LossyFrom 0 true (String.utf8EncodeChar c ++ rest) =
      String.utf8EncodeChar c ++ fromUtf8LossyFrom 0 true rest := by
  have hvalid : c.val.toNat < 0xd800 ∨ 0xdfff < c.val.toNat ∧ c.val.toNat < 0x110000 := c.valid
  simp only [String.utf8EncodeChar]
  split
  · exact fromUtf8LossyFrom_one (by omega) rest
  split
  · exact fromUtf8LossyFrom_two (by omega) (by omega) (by omega) (by omega) rest
  split
  · exact fromUtf8LossyFrom_three (by omega) (by omega) (by omega) (by omega) (by omega)
      (by omega) (by omega) (by omega) rest
  · exact fromUtf8LossyFrom_four (by omega) (by omega) (by omega) (by omega) (by omega)
      (by omega) (by omega) (by omega) (by omega) (by omega) rest

theorem fromUtf8Lossy_utf8 (s : String) : fromUtf8Lossy (utf8 s) = utf8 s := by
  rw [fromUtf8Lossy, utf8]
  induction s.toList with
  | nil => rfl
  | cons c cs ih => rw [List.flatMap_cons, fromUtf8LossyFrom_char, ih]

theorem fromUtf8LossyFrom_ascii {front : Bytes} (h : ∀ b ∈ front, b < 0x80) (rest : Bytes) :
    fromUtf8LossyFrom 0 true (front ++ rest) = front ++ fromUtf8LossyFrom 0 true rest := by
  induction front with
  | nil => rfl
  | cons b front ih =>
    have hb := fromUtf8LossyFrom_one (UInt8.lt_iff_toNat_lt.mp (h b List.mem_cons_self))
      (front ++ rest)
    rw [UInt8.ofNat_toNat] at hb
    rw [List.cons_append, hb, ih fun a ha => h a (List.mem_cons_of_mem b ha), List.cons_append]

/-- `str::from_utf8`, its characters. -/
def fromUtf8 (bs : Bytes) : Option (List Char) := bs.toByteArray.utf8Decode?.map Array.toList

theorem fromUtf8_eq_some {bs : Bytes} {cs : List Char} :
    fromUtf8 bs = some cs ↔ bs = cs.flatMap String.utf8EncodeChar := by
  constructor
  · intro h
    obtain ⟨out, hout, rfl⟩ := Option.map_eq_some_iff.mp h
    obtain ⟨m, hm⟩ := ByteArray.isSome_utf8Decode?_iff.mp (Option.isSome_of_eq_some hout)
    rw [hm, List.utf8Decode?_utf8Encode, Option.some.injEq] at hout
    subst hout
    simpa [List.utf8Encode] using congrArg (fun b => b.data.toList) hm
  · rintro rfl
    exact congrArg (Option.map Array.toList) List.utf8Decode?_utf8Encode

theorem toNat_of_mem_utf8EncodeChar {c : Char} {b : UInt8} (hmem : b ∈ String.utf8EncodeChar c)
    (hb : b < 0x80) : c.toNat = b.toNat := by
  have hnot {n : Nat} (hn : 0x80 ≤ n) (hlt : n < 256) : b ≠ .ofNat n := by
    rintro rfl
    exact not_lt_ofNat hn hlt hb
  have hvalid : c.val.toNat < 0xd800 ∨ 0xdfff < c.val.toNat ∧ c.val.toNat < 0x110000 := c.valid
  simp only [String.utf8EncodeChar] at hmem
  split at hmem
  case isTrue hone =>
    obtain rfl := List.mem_singleton.mp hmem
    exact (UInt8.toNat_ofNat_of_lt' (show c.val.toNat < 256 by omega)).symm
  -- Every byte of the longer encodings is at least 0x80.
  case isFalse =>
    split at hmem
    case isTrue =>
      simp only [List.mem_cons, List.not_mem_nil, or_false] at hmem
      rcases hmem with h | h
      all_goals exact absurd h (hnot (by omega) (by omega))
    case isFalse =>
      split at hmem
      case isTrue =>
        simp only [List.mem_cons, List.not_mem_nil, or_false] at hmem
        rcases hmem with h | h | h
        all_goals exact absurd h (hnot (by omega) (by omega))
      case isFalse =>
        simp only [List.mem_cons, List.not_mem_nil, or_false] at hmem
        rcases hmem with h | h | h | h
        all_goals exact absurd h (hnot (by omega) (by omega))

end Libid
