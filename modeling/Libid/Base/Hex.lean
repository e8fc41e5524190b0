import Libid.Base.Ascii

/-! Hexadecimal text.  Decoding takes digits of either case, so a byte string has as many
spellings as it has letters to write it with. -/

namespace Libid

/-- `hex::decode`, without its errors. -/
def hexDecode : Bytes → Option Bytes
  | [] => some []
  | [_] => none
  | a :: b :: text => do
    let high ← hexDigit a
    let low ← hexDigit b
    let bs ← hexDecode text
    return .ofNat (16 * high + low) :: bs

def lowerDigit (n : Nat) : UInt8 := if n < 10 then .ofNat (0x30 + n) else .ofNat (0x57 + n)

/-- `hex::encode`. -/
def hexEncode (bs : Bytes) : Bytes :=
  bs.flatMap fun b => [lowerDigit (b.toNat / 16), lowerDigit (b.toNat % 16)]

theorem hexDigit_lowerDigit : ∀ n < 16, hexDigit (lowerDigit n) = some n := by decide

theorem lowerDigit_of_hexDigit :
    ∀ a, ∀ n ∈ hexDigit a, n < 16 ∧ lowerDigit n = toAsciiLowercase a := by decide +kernel

theorem hexDecode_hexEncode (bs : Bytes) : hexDecode (hexEncode bs) = some bs := by
  induction bs with
  | nil => rfl
  | cons b bs ih =>
    have hb := b.toNat_lt
    have hhigh := hexDigit_lowerDigit (b.toNat / 16) (by omega)
    have hlow := hexDigit_lowerDigit (b.toNat % 16) (by omega)
    have hsum : 16 * (b.toNat / 16) + b.toNat % 16 = b.toNat := by omega
    rw [hexEncode] at ih
    simp only [hexEncode, List.flatMap_cons, List.cons_append, List.nil_append, hexDecode, hhigh,
      hlow, ih, Option.bind_eq_bind, Option.bind_some, hsum, UInt8.ofNat_toNat]
    rfl

theorem hexEncode_injective : Function.Injective hexEncode := by
  intro x y h
  have hx := hexDecode_hexEncode x
  rw [h, hexDecode_hexEncode] at hx
  exact (Option.some.inj hx).symm

theorem hexEncode_of_hexDecode {text bs : Bytes} (h : hexDecode text = some bs) :
    hexEncode bs = text.map toAsciiLowercase := by
  fun_induction hexDecode text generalizing bs with
  | case1 =>
    obtain rfl := Option.some.inj h
    rfl
  | case2 => simp at h
  | case3 a b text ih =>
    simp only [Option.bind_eq_bind, Option.bind_eq_some_iff, Option.pure_def,
      Option.some.injEq] at h
    obtain ⟨high, hhigh, low, hlow, bs, hbs, rfl⟩ := h
    obtain ⟨hlt, ha⟩ := lowerDigit_of_hexDigit a high hhigh
    obtain ⟨hlt', hb⟩ := lowerDigit_of_hexDigit b low hlow
    have hbyte : (UInt8.ofNat (16 * high + low)).toNat = 16 * high + low := by
      rw [UInt8.toNat_ofNat']
      omega
    have ih' := ih hbs
    rw [hexEncode] at ih'
    rw [hexEncode, List.flatMap_cons, ih', hbyte, show (16 * high + low) / 16 = high by omega,
      show (16 * high + low) % 16 = low by omega, ha, hb]
    rfl

theorem hexDecode_eq_iff {s t x y : Bytes} (hx : hexDecode s = some x) (hy : hexDecode t = some y) :
    x = y ↔ s.map toAsciiLowercase = t.map toAsciiLowercase := by
  rw [← hexEncode_of_hexDecode hx, ← hexEncode_of_hexDecode hy, hexEncode_injective.eq_iff]

theorem exists_hexDecode {n : Nat} {text : Bytes} (hlen : text.length = 2 * n)
    (h : ∀ a ∈ text, (hexDigit a).isSome) : ∃ bs, hexDecode text = some bs ∧ bs.length = n := by
  induction n generalizing text with
  | zero => exact ⟨[], by rw [List.length_eq_zero_iff.mp hlen]; rfl, rfl⟩
  | succ n ih =>
    obtain _ | ⟨a, _ | ⟨b, text⟩⟩ := text
    · simp at hlen
    · simp at hlen
      omega
    · have htail : text.length = 2 * n := by
        simp only [List.length_cons] at hlen
        omega
      obtain ⟨high, hhigh⟩ := Option.isSome_iff_exists.mp (h a (by simp))
      obtain ⟨low, hlow⟩ := Option.isSome_iff_exists.mp (h b (by simp))
      obtain ⟨bs, hbs, hn⟩ := ih htail fun c hc => h c (by simp [hc])
      refine ⟨.ofNat (16 * high + low) :: bs, ?_, by rw [List.length_cons, hn]⟩
      simp [hexDecode, hhigh, hlow, hbs]

end Libid
