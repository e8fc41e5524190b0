import Libid.Crypto.Claim
import Libid.Signer.Source

namespace Libid

theorem hexDigit_toAsciiLowercase : ∀ b, hexDigit (toAsciiLowercase b) = hexDigit b := by
  decide +kernel

theorem hexDecode_map_toAsciiLowercase (text : Bytes) :
    hexDecode (text.map toAsciiLowercase) = hexDecode text := by
  fun_induction hexDecode text with
  | case1 => rfl
  | case2 => rfl
  | case3 a b text ih =>
    rw [List.map_cons, List.map_cons, hexDecode, hexDigit_toAsciiLowercase,
      hexDigit_toAsciiLowercase, ih]

theorem hexDecode_eq_some {text bs : Bytes} :
    hexDecode text = some bs ↔ text.map toAsciiLowercase = hexEncode bs := by
  constructor
  · intro h
    exact (hexEncode_of_hexDecode h).symm
  · intro h
    rw [← hexDecode_map_toAsciiLowercase, h, hexDecode_hexEncode]

theorem not_isPrefix_of_spells {text bs : Bytes} (h : text.map toAsciiLowercase = hexEncode bs) :
    ¬ ascii "0x" <+: text := by
  rintro ⟨t, rfl⟩
  have hdecode := hexDecode_eq_some.mpr h
  have hx : hexDigit 0x78 = none := by decide
  rw [show ascii "0x" = [0x30, 0x78] from rfl, List.cons_append, List.cons_append, hexDecode,
    hx] at hdecode
  simp at hdecode

namespace Crypto

section

variable {K : K256} {hexError : Bytes → String}

/-- `hexError` is the text of the decoder's error. -/
def hexToSigningKey (K : K256) (hexError : Bytes → String) (hexStr : Bytes) :
    Except Error K.SigningKey :=
  let hexStr := if ascii "0x" <+: hexStr then hexStr.drop 2 else hexStr
  match hexDecode hexStr with
  | none => .error (.cryptoFailed "parse signing key hex" (hexError hexStr))
  | some bytes => (K.signingKey bytes).mapError (.cryptoFailed "parse signing key")

def SpellsKey (text bytes : Bytes) : Prop :=
  text.map toAsciiLowercase = hexEncode bytes ∨
    ∃ t, text = ascii "0x" ++ t ∧ t.map toAsciiLowercase = hexEncode bytes

theorem spellsKey_iff {text bytes : Bytes} : SpellsKey text bytes ↔
    hexDecode (if ascii "0x" <+: text then text.drop 2 else text) = some bytes := by
  rw [hexDecode_eq_some]
  constructor
  · rintro (h | ⟨t, rfl, h⟩)
    · rwa [if_neg (not_isPrefix_of_spells h)]
    · rw [if_pos (List.prefix_append ..)]
      exact h
  · intro h
    split at h
    · rename_i hbegins
      obtain ⟨t, rfl⟩ := hbegins
      exact .inr ⟨t, rfl, h⟩
    · exact .inl h

theorem SpellsKey.hexToSigningKey_eq {text bytes : Bytes} (h : SpellsKey text bytes) :
    hexToSigningKey K hexError text =
      (K.signingKey bytes).mapError (.cryptoFailed "parse signing key") := by
  rw [hexToSigningKey, spellsKey_iff.mp h]

/-- A text is read as a signing key exactly when it spells that key's scalar in 24 to 32 bytes. -/
theorem hexToSigningKey_eq_ok {scalar : K.SigningKey → Nat} (hK : K.ReadsKeys scalar)
    {text : Bytes} {key : K.SigningKey} :
    hexToSigningKey K hexError text = .ok key ↔
      ∃ bytes, SpellsKey text bytes ∧ IsScalar bytes (scalar key) := by
  constructor
  · intro h
    rw [hexToSigningKey] at h
    split at h
    · cases h
    · rename_i bytes hbytes
      refine ⟨bytes, spellsKey_iff.mpr hbytes, (hK bytes key).mp ?_⟩
      cases hkey : K.signingKey bytes with
      | error detail =>
        rw [hkey] at h
        cases h
      | ok found =>
        rw [hkey] at h
        exact congrArg _ (Except.ok.inj h)
  · rintro ⟨bytes, hspells, hscalar⟩
    rw [hspells.hexToSigningKey_eq, (hK bytes key).mpr hscalar]
    rfl

/-- Forty-eight digits are enough. -/
theorem hexToSigningKey_eq_ok_run :
    ∃ key, hexToSigningKey .known (fun _ => "")
      (ascii "0xA0000000000000000000000000000000000000000000000B") = .ok key ∧
        key.val = 160 * 256 ^ 23 + 11 := by
  let bytes : Bytes := 0xa0 :: (List.replicate 22 0 ++ [0x0b])
  refine ⟨⟨160 * 256 ^ 23 + 11, by decide⟩, (hexToSigningKey_eq_ok K256.known_readsKeys).mpr
    ⟨bytes, .inr ⟨_, rfl, by decide⟩, by decide, by decide, by decide⟩, rfl⟩

end

theorem asBytes_strip0x {entry : Signer.Str} {bytes : Bytes}
    (h : hexDecode (Signer.asBytes (Signer.strip0x entry)) = some bytes) :
    SpellsKey (Signer.asBytes entry) bytes := by
  rw [hexDecode_eq_some] at h
  unfold Signer.strip0x at h
  split at h
  · exact .inr ⟨_, rfl, h⟩
  · exact .inl h

/-- What the signer takes for a private key is read by both crates as the same 32 bytes, and
only the curve is left to refuse them. -/
theorem fromSpec_hexToSigningKey (K : K256) (hexError : Bytes → String) {spec hexKey : Signer.Str}
    (h : Signer.SignerSource.fromSpec spec = .ok (.privateKey hexKey)) :
    ∃ bytes : ByteArrayOf 32, Signer.SignerSource.decodeKey hexKey = some bytes ∧
      hexToSigningKey K hexError (Signer.asBytes hexKey) =
        (K.signingKey bytes.val).mapError (.cryptoFailed "parse signing key") := by
  obtain ⟨-, hclass⟩ := Signer.SignerSource.fromSpec_eq_ok h
  cases hclass with
  | privateKey hkey =>
    obtain ⟨bytes, hdecode, hbytes⟩ := hkey.exists_decodeKey
    exact ⟨bytes, hbytes, (asBytes_strip0x hdecode).hexToSigningKey_eq⟩

theorem fromSpec_hexToSigningKey_run :
    ∃ bytes : ByteArrayOf 32,
      Signer.SignerSource.decodeKey (List.replicate 64 'A') = some bytes ∧
      hexToSigningKey .known (fun _ => "") (Signer.asBytes (List.replicate 64 'A')) =
        (K256.known.signingKey bytes.val).mapError (.cryptoFailed "parse signing key") :=
  @fromSpec_hexToSigningKey .known _ (' ' :: List.replicate 64 'A') _ (by decide)

end Crypto

end Libid
