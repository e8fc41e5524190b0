import Libid.Base.Ascii

/-! The records of the token exchange and the bounds they are held to.  A `String` is
its UTF-8 bytes, which is what the checks read. -/

namespace Libid.Ceremony

def maxCodeBytes : Nat := 1024

def codeVerifierLen : Nat := 43

def maxAccessTokenBytes : Nat := 4096

def bearerOpeningLen : Nat := 16

def maxAttestedDataBytes : Nat := 2 * 1024 * 1024

def signatureLen : Nat := 65

inductive TokenExchangeError
  | emptyCode
  | codeTooLong (length : Nat)
  | codeNotPrintable (index : Nat)
  | malformedCodeVerifier
  | emptyAccessToken
  | accessTokenTooLong (length : Nat)
  | accessTokenNotPrintable (index : Nat)
  | emptyAttestedData
  | attestedDataTooLong (length : Nat)
  | signatureWrongLength (length : Nat)
  | bearerOpeningWrongLength (length : Nat)
  deriving DecidableEq

def isPrintable (b : UInt8) : Bool := 0x21 ≤ b && b ≤ 0x7e

def firstUnprintable (s : Bytes) : Option Nat := s.findIdx? fun b => !isPrintable b

structure TokenRequest where
  code : Bytes
  codeVerifier : Bytes

structure TokenAttestation where
  attestedData : Bytes
  signature : Bytes

structure TokenResponse where
  accessToken : Bytes
  tokenAttestation : TokenAttestation
  bearerOpening : Bytes

def TokenRequest.validate (r : TokenRequest) : Except TokenExchangeError Unit :=
  if r.code = [] then .error .emptyCode
  else if r.code.length > maxCodeBytes then .error (.codeTooLong r.code.length)
  else
    match firstUnprintable r.code with
    | some i => .error (.codeNotPrintable i)
    | none =>
      if r.codeVerifier.length ≠ codeVerifierLen ∨
          ¬ (r.codeVerifier.all fun b =>
            isAsciiAlphabetic b || isAsciiDigit b || b == 0x5f || b == 0x2d) then
        .error .malformedCodeVerifier
      else .ok ()

def TokenResponse.validate (r : TokenResponse) : Except TokenExchangeError Unit :=
  if r.accessToken = [] then .error .emptyAccessToken
  else if r.accessToken.length > maxAccessTokenBytes then
    .error (.accessTokenTooLong r.accessToken.length)
  else
    match firstUnprintable r.accessToken with
    | some i => .error (.accessTokenNotPrintable i)
    | none =>
      if r.tokenAttestation.attestedData = [] then .error .emptyAttestedData
      else if r.tokenAttestation.attestedData.length > maxAttestedDataBytes then
        .error (.attestedDataTooLong r.tokenAttestation.attestedData.length)
      else if r.tokenAttestation.signature.length ≠ signatureLen then
        .error (.signatureWrongLength r.tokenAttestation.signature.length)
      else if r.bearerOpening.length ≠ bearerOpeningLen then
        .error (.bearerOpeningWrongLength r.bearerOpening.length)
      else .ok ()

theorem firstUnprintable_eq_none {s : Bytes} :
    firstUnprintable s = none ↔ ∀ b ∈ s, isPrintable b := by
  simp [firstUnprintable, List.findIdx?_eq_none_iff]

theorem refuse_eq_ok {ε α : Type} {p : Prop} [Decidable p] {e : ε} {x : Except ε α} {a : α} :
    (if p then .error e else x) = .ok a ↔ ¬ p ∧ x = .ok a := by
  split <;> simp [*]

structure Carried (limit : Nat) (s : Bytes) : Prop where
  ne_nil : s ≠ []
  bounded : s.length ≤ limit
  printable : ∀ b ∈ s, isPrintable b

structure TokenRequest.Valid (r : TokenRequest) : Prop where
  code : Carried maxCodeBytes r.code
  length : r.codeVerifier.length = codeVerifierLen
  alphabet : ∀ b ∈ r.codeVerifier,
    isAsciiAlphabetic b || isAsciiDigit b || b == 0x5f || b == 0x2d

structure TokenResponse.Valid (r : TokenResponse) : Prop where
  accessToken : Carried maxAccessTokenBytes r.accessToken
  attestedData : r.tokenAttestation.attestedData ≠ []
  bounded : r.tokenAttestation.attestedData.length ≤ maxAttestedDataBytes
  signature : r.tokenAttestation.signature.length = signatureLen
  bearerOpening : r.bearerOpening.length = bearerOpeningLen

theorem TokenRequest.validate_eq_ok {r : TokenRequest} : r.validate = .ok () ↔ r.Valid := by
  rw [validate, refuse_eq_ok, refuse_eq_ok]
  constructor
  · rintro ⟨hne, hlen, h⟩
    split at h
    · cases h
    · rename_i hprint
      rw [refuse_eq_ok, not_or, not_not, not_not, List.all_eq_true] at h
      exact ⟨⟨hne, by omega, firstUnprintable_eq_none.mp hprint⟩, h.1.1, h.1.2⟩
  · rintro ⟨⟨hne, hlen, hprint⟩, hverifier, halphabet⟩
    refine ⟨hne, by omega, ?_⟩
    rw [firstUnprintable_eq_none.mpr hprint]
    simp only
    rw [refuse_eq_ok, not_or, not_not, not_not, List.all_eq_true]
    exact ⟨⟨hverifier, halphabet⟩, rfl⟩

theorem TokenResponse.validate_eq_ok {r : TokenResponse} : r.validate = .ok () ↔ r.Valid := by
  rw [validate, refuse_eq_ok, refuse_eq_ok]
  constructor
  · rintro ⟨hne, hlen, h⟩
    split at h
    · cases h
    · rename_i hprint
      simp only [refuse_eq_ok, ne_eq, not_not] at h
      obtain ⟨hdata, hbound, hsig, hopen, -⟩ := h
      exact ⟨⟨hne, by omega, firstUnprintable_eq_none.mp hprint⟩, hdata, by omega, hsig, hopen⟩
  · rintro ⟨⟨hne, hlen, hprint⟩, hdata, hbound, hsig, hopen⟩
    refine ⟨hne, by omega, ?_⟩
    rw [firstUnprintable_eq_none.mpr hprint]
    simp only [refuse_eq_ok, ne_eq, not_not]
    exact ⟨hdata, by omega, hsig, hopen, trivial⟩

end Libid.Ceremony
