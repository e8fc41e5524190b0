import Libid.Json.Scan
import Mathlib.Data.List.TakeWhile

/-! The text a JSON string stands for.  Only a string written without escapes stands
for its own bytes; any other is longer than its text. -/

namespace Libid.Json

def unescape (b : UInt8) : UInt8 :=
  if b = 0x62 then 0x08
  else if b = 0x66 then 0x0c
  else if b = 0x6e then 0x0a
  else if b = 0x72 then 0x0d
  else if b = 0x74 then 0x09
  else b

def codeUnit (digits : Bytes) : Nat := digits.foldl (fun n b => 16 * n + (hexDigit b).getD 0) 0

def isHighSurrogate (u : Nat) : Bool := 0xd800 ≤ u && u ≤ 0xdbff

def isLowSurrogate (u : Nat) : Bool := 0xdc00 ≤ u && u ≤ 0xdfff

def utf8 (code : Nat) : Bytes := String.utf8EncodeChar (Char.ofNat code)

/-- A surrogate outside a pair stands for no character. -/
def decodeChars : List StrChar → Option Bytes
  | [] => some []
  | .plain b _ :: chars => (decodeChars chars).map (b :: ·)
  | .escape b _ :: chars => (decodeChars chars).map (unescape b :: ·)
  | .unicode u _ :: chars =>
    if isHighSurrogate (codeUnit u) then
      match chars with
      | .unicode l _ :: chars =>
        if isLowSurrogate (codeUnit l) then
          (decodeChars chars).map
            (utf8 (0x10000 + (codeUnit u - 0xd800) * 0x400 + (codeUnit l - 0xdc00)) ++ ·)
        else none
      | _ => none
    else if isLowSurrogate (codeUnit u) then none
    else (decodeChars chars).map (utf8 (codeUnit u) ++ ·)

namespace Str

def decode (s : Str) : Option Bytes := decodeChars s.chars

/-- Written without escapes. -/
def Literal (s : Str) : Prop := ∀ c ∈ s.chars, ∃ b h, c = StrChar.plain b h

def ofPlain (bs : Bytes) (h : ∀ b ∈ bs, 0x20 ≤ b ∧ b ≠ quote ∧ b ≠ backslash) : Str :=
  ⟨bs.attach.map fun b => .plain b.1 (h b.1 b.2)⟩

end Str

theorem length_utf8_le (code : Nat) : (utf8 code).length ≤ 4 := by
  rw [utf8, String.length_utf8EncodeChar]
  exact Char.utf8Size_le_four _

theorem StrChar.length_bytes_unicode {u : Bytes} (hu) :
    (StrChar.unicode u hu).bytes.length = 6 := by
  simp [StrChar.bytes, hu.1]

theorem decodeChars_length {chars : List StrChar} {bs : Bytes} (h : decodeChars chars = some bs) :
    bs.length ≤ (chars.flatMap StrChar.bytes).length ∧
      (bs.length = (chars.flatMap StrChar.bytes).length → Str.Literal ⟨chars⟩) := by
  fun_induction decodeChars chars generalizing bs with
  | case1 =>
    obtain rfl : [] = bs := Option.some.inj h
    exact ⟨le_rfl, fun _ _ hc => absurd hc List.not_mem_nil⟩
  | case2 b hb chars ih =>
    obtain ⟨rest, hrest, rfl⟩ := Option.map_eq_some_iff.mp h
    obtain ⟨hle, heq⟩ := ih hrest
    simp only [List.flatMap_cons, StrChar.bytes, List.length_append, List.length_cons,
      List.length_nil]
    refine ⟨by omega, fun hlen c hc => ?_⟩
    rcases List.mem_cons.mp hc with rfl | hc
    · exact ⟨b, hb, rfl⟩
    · exact heq (by omega) c hc
  | case3 b hb chars ih =>
    obtain ⟨rest, hrest, rfl⟩ := Option.map_eq_some_iff.mp h
    obtain ⟨hle, -⟩ := ih hrest
    simp only [List.flatMap_cons, StrChar.bytes, List.length_append, List.length_cons,
      List.length_nil]
    omega
  | case4 u hu hhigh l hl chars hlow ih =>
    obtain ⟨rest, hrest, rfl⟩ := Option.map_eq_some_iff.mp h
    obtain ⟨hle, -⟩ := ih hrest
    have := length_utf8_le (0x10000 + (codeUnit u - 0xd800) * 0x400 + (codeUnit l - 0xdc00))
    simp only [List.flatMap_cons, List.length_append, StrChar.length_bytes_unicode]
    omega
  | case5 | case6 | case7 => simp at h
  | case8 u hu chars hhigh hlow ih =>
    obtain ⟨rest, hrest, rfl⟩ := Option.map_eq_some_iff.mp h
    obtain ⟨hle, -⟩ := ih hrest
    have := length_utf8_le (codeUnit u)
    simp only [List.flatMap_cons, List.length_append, StrChar.length_bytes_unicode]
    omega

theorem quote_mem_of_decodeChars {chars : List StrChar} {bs : Bytes}
    (h : decodeChars chars = some bs) (hq : quote ∈ chars.flatMap StrChar.bytes) : quote ∈ bs := by
  have hdigits : ∀ {u : Bytes}, (∀ b ∈ u, (hexDigit b).isSome) → quote ∉ u :=
    fun hu hmem => absurd (hu _ hmem) (by decide)
  fun_induction decodeChars chars generalizing bs with
  | case1 => simp at hq
  | case2 b hb chars ih =>
    obtain ⟨rest, hrest, rfl⟩ := Option.map_eq_some_iff.mp h
    have hq : quote ∈ chars.flatMap StrChar.bytes := by
      simpa [StrChar.bytes, hb.2.1.symm] using hq
    exact List.mem_cons_of_mem _ (ih hrest hq)
  | case3 b hb chars ih =>
    obtain ⟨rest, hrest, rfl⟩ := Option.map_eq_some_iff.mp h
    rw [List.flatMap_cons, List.mem_append] at hq
    rcases hq with hq | hq
    · obtain rfl : quote = b := by
        simpa [StrChar.bytes, show quote ≠ backslash by decide] using hq
      exact List.mem_cons_self
    · exact List.mem_cons_of_mem _ (ih hrest hq)
  | case4 u hu hhigh l hl chars hlow ih =>
    obtain ⟨rest, hrest, rfl⟩ := Option.map_eq_some_iff.mp h
    have hq : quote ∈ chars.flatMap StrChar.bytes := by
      simpa [StrChar.bytes, hdigits hu.2, hdigits hl.2, show quote ≠ backslash by decide,
        show quote ≠ 0x75 by decide] using hq
    exact List.mem_append_right _ (ih hrest hq)
  | case5 | case6 | case7 => simp at h
  | case8 u hu chars hhigh hlow ih =>
    obtain ⟨rest, hrest, rfl⟩ := Option.map_eq_some_iff.mp h
    have hq : quote ∈ chars.flatMap StrChar.bytes := by
      simpa [StrChar.bytes, hdigits hu.2, show quote ≠ backslash by decide,
        show quote ≠ 0x75 by decide] using hq
    exact List.mem_append_right _ (ih hrest hq)

namespace Str

theorem Literal.quote_notMem {s : Str} (h : s.Literal) : quote ∉ s.text := by
  intro hq
  obtain ⟨c, hc, hb⟩ := List.mem_flatMap.mp hq
  obtain ⟨b, hplain, rfl⟩ := h c hc
  exact hplain.2.1 (List.mem_singleton.mp hb).symm

theorem Literal.decode {s : Str} (h : s.Literal) : s.decode = some s.text := by
  obtain ⟨chars⟩ := s
  simp only [Str.decode, Str.text]
  induction chars with
  | nil => rfl
  | cons c chars ih =>
    obtain ⟨b, hb, rfl⟩ := h c (by simp)
    rw [decodeChars, ih fun c hc => h c (by simp [hc])]
    rfl

theorem Literal.of_backslash_notMem {s : Str} (h : backslash ∉ s.text) : s.Literal := by
  intro c hc
  have hbytes : backslash ∉ c.bytes := fun hb => h (List.mem_flatMap.mpr ⟨c, hc, hb⟩)
  cases c with
  | plain b hb => exact ⟨b, hb, rfl⟩
  | escape b hb => simp [StrChar.bytes] at hbytes
  | unicode u hu => simp [StrChar.bytes] at hbytes

/-- The text before the first quote byte of a spelling. -/
def rawValue (s : Str) : Bytes := s.text.takeWhile (· != quote)

theorem rawValue_eq_text {s : Str} (h : quote ∉ s.text) : s.rawValue = s.text := by
  apply List.takeWhile_eq_self_iff.mpr
  intro b hb
  rw [bne_iff_ne]
  rintro rfl
  exact h hb

theorem rawValue_eq_iff {s : Str} {bs : Bytes} (h : s.decode = some bs) :
    s.rawValue = bs ↔ s.Literal := by
  constructor
  · rintro rfl
    have hfree : quote ∉ s.rawValue := fun hq => by simpa using List.mem_takeWhile_imp hq
    have htext : s.rawValue = s.text :=
      rawValue_eq_text fun hq => hfree (quote_mem_of_decodeChars h hq)
    exact (decodeChars_length h).2 (congrArg List.length htext)
  · intro hlit
    rw [rawValue_eq_text hlit.quote_notMem]
    exact Option.some.inj (hlit.decode.symm.trans h)

end Str

end Libid.Json
