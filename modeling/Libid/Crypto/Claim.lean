import Libid.Base.Codec
import Libid.Base.Hex

/-! A claim is signed and its signer recovered as on an Ethereum chain.  The curve library is a
parameter, with its errors as the texts they are shown by. -/

namespace Libid.Crypto

inductive Error
  | cryptoFailed (op detail : String)
  deriving DecidableEq

/-- What the curve library does for this crate. -/
structure K256 where
  SigningKey : Type
  VerifyingKey : Type
  Signature : Type
  verifyingKey : SigningKey → VerifyingKey
  signingKey : Bytes → Except String SigningKey
  signPrehash : SigningKey → ByteArrayOf 32 → Except String (Signature × Fin 4)
  toBytes : Signature → ByteArrayOf 64
  fromSlice : Bytes → Except String Signature
  recoverFromPrehash : ByteArrayOf 32 → Signature → Fin 4 → Except String VerifyingKey

/-- `RecoveryId::from_byte`. -/
def recoveryId (byte : UInt8) : Option (Fin 4) :=
  if h : byte.toNat < 4 then some ⟨byte.toNat, h⟩ else none

section

variable (K : K256) (keccak256 : Bytes → ByteArrayOf 32)

def ethHash (digest : ByteArrayOf 32) : ByteArrayOf 32 :=
  keccak256 (ascii "\x19Ethereum Signed Message:\n32" ++ digest.val)

def signEthClaim (key : K.SigningKey) (digest : ByteArrayOf 32) : Except Error Bytes :=
  match K.signPrehash key (ethHash keccak256 digest) with
  | .error detail => .error (.cryptoFailed "EIP-191 sign" detail)
  | .ok (sig, recid) => .ok ((K.toBytes sig).val ++ [UInt8.ofNat recid + 27])

def recoverEthClaim (signature : Bytes) (digest : ByteArrayOf 32) :
    Except Error K.VerifyingKey :=
  if signature.length ≠ 65 then
    .error (.cryptoFailed "verify signature" "signature must be 65 bytes")
  else
    match K.fromSlice (signature.take 64) with
    | .error detail => .error (.cryptoFailed "parse signature" detail)
    | .ok sig =>
      let vRaw := signature.getD 64 0
      let recidByte := if vRaw ≥ 27 then vRaw - 27 else vRaw
      match recoveryId recidByte with
      | none => .error (.cryptoFailed "parse recovery id"
          s!"invalid recovery id byte: {vRaw.toNat}")
      | some recid =>
        match K.recoverFromPrehash (ethHash keccak256 digest) sig recid with
        | .error detail => .error (.cryptoFailed "EIP-191 recover" detail)
        | .ok key => .ok key

end

/-- A recovery byte is written with the offset of the chain or without it. -/
def Spells (v : UInt8) (recid : Fin 4) : Prop := v.toNat = recid ∨ v.toNat = recid + 27

instance (v : UInt8) (recid : Fin 4) : Decidable (Spells v recid) :=
  inferInstanceAs (Decidable (_ ∨ _))

theorem recoveryId_eq_some : ∀ (v : UInt8) (recid : Fin 4),
    recoveryId (if v ≥ 27 then v - 27 else v) = some recid ↔ Spells v recid := by
  decide +kernel

theorem spells_offset : ∀ recid : Fin 4, Spells (UInt8.ofNat recid + 27) recid := by decide

theorem Spells.unique {v : UInt8} {i j : Fin 4} (hi : Spells v i) (hj : Spells v j) : i = j := by
  have h := (recoveryId_eq_some v i).mpr hi
  rw [(recoveryId_eq_some v j).mpr hj] at h
  exact (Option.some.inj h).symm

section

variable {K : K256} {keccak256 : Bytes → ByteArrayOf 32}

theorem exists_concat {signature : Bytes} (h : signature.length = 65) :
    ∃ rs v, signature = rs ++ [v] ∧ rs.length = 64 := by
  have hne : signature ≠ [] := List.ne_nil_of_length_pos (by omega)
  refine ⟨signature.dropLast, signature.getLast hne, ?_, ?_⟩
  · exact (List.dropLast_append_getLast hne).symm
  · rw [List.length_dropLast, h]

theorem recoverEthClaim_eq_ok {signature : Bytes} {digest : ByteArrayOf 32}
    {key : K.VerifyingKey} :
    recoverEthClaim K keccak256 signature digest = .ok key ↔
      ∃ rs v sig recid, signature = rs ++ [v] ∧ rs.length = 64 ∧ K.fromSlice rs = .ok sig ∧
        Spells v recid ∧
        K.recoverFromPrehash (ethHash keccak256 digest) sig recid = .ok key := by
  by_cases hlen : signature.length = 65
  · obtain ⟨rs, v, rfl, hrs⟩ := exists_concat hlen
    have htake : (rs ++ [v]).take 64 = rs := List.take_left' hrs
    have hget : (rs ++ [v]).getD 64 0 = v := by
      rw [List.getD_eq_getElem?_getD, List.getElem?_append_right hrs.le, hrs]
      rfl
    rw [recoverEthClaim, if_neg (not_not_intro hlen), htake, hget]
    constructor
    · intro h
      split at h
      · cases h
      rename_i sig hsig
      dsimp only at h
      split at h
      · cases h
      rename_i recid hrecid
      split at h
      · cases h
      rename_i found hfound
      cases h
      exact ⟨rs, v, sig, recid, rfl, hrs, hsig, (recoveryId_eq_some v recid).mp hrecid, hfound⟩
    · rintro ⟨rs', v', sig, recid, heq, -, hsig, hv, hrecover⟩
      obtain ⟨rfl, rfl⟩ : rs = rs' ∧ v = v' := by simpa using heq
      simp only [hsig, (recoveryId_eq_some v recid).mpr hv, hrecover]
  · rw [recoverEthClaim, if_pos hlen]
    constructor
    · intro h
      cases h
    · rintro ⟨rs, v, sig, recid, rfl, hrs, -⟩
      exact absurd (by rw [List.length_append, hrs]; rfl) hlen

theorem signEthClaim_eq_ok {key : K.SigningKey} {digest : ByteArrayOf 32} {out : Bytes} :
    signEthClaim K keccak256 key digest = .ok out ↔
      ∃ sig recid, K.signPrehash key (ethHash keccak256 digest) = .ok (sig, recid) ∧
        out = (K.toBytes sig).val ++ [UInt8.ofNat recid + 27] := by
  rw [signEthClaim]
  constructor
  · intro h
    split at h
    · cases h
    · rename_i sig recid hsign
      cases h
      exact ⟨sig, recid, hsign, rfl⟩
  · rintro ⟨sig, recid, hsign, rfl⟩
    rw [hsign]

end

/-- A signature survives its bytes, and the signer's key is recovered from it. -/
structure K256.Lawful (K : K256) : Prop where
  fromSlice_toBytes : ∀ sig, K.fromSlice (K.toBytes sig).val = .ok sig
  recover_sign : ∀ key hash sig recid, K.signPrehash key hash = .ok (sig, recid) →
    K.recoverFromPrehash hash sig recid = .ok (K.verifyingKey key)

def order : Nat := 0xfffffffffffffffffffffffffffffffebaaedce6af48a03bbfd25e8cd0364141

abbrev Scalar := { n : Nat // 0 < n ∧ n < order }

/-- Fewer bytes than 32, down to 24, are a scalar without its leading zeros. -/
structure IsScalar (bytes : Bytes) (n : Nat) : Prop where
  length : 24 ≤ bytes.length ∧ bytes.length ≤ 32
  value : ofBeBytes bytes = n
  range : 0 < n ∧ n < order

/-- `scalar` is the number that a key is. -/
def K256.ReadsKeys (K : K256) (scalar : K.SigningKey → Nat) : Prop :=
  ∀ bytes key, K.signingKey bytes = .ok key ↔ IsScalar bytes (scalar key)

/-- One signature recovers one key from two hashes only where the curve does not tell them
apart. -/
def K256.Binds (K : K256) : Prop :=
  ∀ hash hash' : ByteArrayOf 32, ∀ sig recid key, K.recoverFromPrehash hash sig recid = .ok key →
    K.recoverFromPrehash hash' sig recid = .ok key →
    ofBeBytes hash.val % order = ofBeBytes hash'.val % order

section

variable {K : K256} {keccak256 : Bytes → ByteArrayOf 32}

/-- A signed claim is recovered to its signer with its last byte in either convention; with any
other last byte nothing is, or the signer by another id. -/
theorem recoverEthClaim_signEthClaim (hK : K.Lawful) {key : K.SigningKey}
    {digest : ByteArrayOf 32} {out : Bytes}
    (hsign : signEthClaim K keccak256 key digest = .ok out) :
    out.length = 65 ∧ ∃ recid : Fin 4, out = out.take 64 ++ [UInt8.ofNat recid + 27] ∧
      ∀ v, (Spells v recid →
          recoverEthClaim K keccak256 (out.take 64 ++ [v]) digest = .ok (K.verifyingKey key)) ∧
        ((∃ other, recoverEthClaim K keccak256 (out.take 64 ++ [v]) digest = .ok other) →
          v.toNat < 4 ∨ 27 ≤ v.toNat ∧ v.toNat < 31) := by
  obtain ⟨sig, recid, hsig, rfl⟩ := signEthClaim_eq_ok.mp hsign
  have hrs := (K.toBytes sig).property
  have htake : ((K.toBytes sig).val ++ [UInt8.ofNat recid + 27]).take 64 =
      (K.toBytes sig).val := List.take_left' hrs
  refine ⟨by rw [List.length_append, hrs]; rfl, recid, by rw [htake], fun v => ⟨fun hv => ?_, ?_⟩⟩
  · rw [htake]
    exact recoverEthClaim_eq_ok.mpr ⟨_, v, sig, recid, rfl, hrs, hK.fromSlice_toBytes sig, hv,
      hK.recover_sign key _ sig recid hsig⟩
  · rintro ⟨other, hother⟩
    obtain ⟨rs, v', sig', id, heq, -, -, hv, -⟩ := recoverEthClaim_eq_ok.mp hother
    obtain ⟨-, rfl⟩ : _ ∧ v = v' := by simpa using heq
    have hid := id.isLt
    rcases hv with hv | hv
    · exact .inl (by omega)
    · exact .inr (by omega)

end

@[irreducible] def knownDigest : ByteArrayOf 32 :=
  ⟨(hexDecode (ascii "19371455009c1033fdd58b8a6575d504d2f2b52befec549dd58d62c4cf5910ce")).getD [],
    by decide⟩

@[irreducible] def knownHash : ByteArrayOf 32 :=
  ⟨(hexDecode (ascii "cd9b2a5699aab82776a5e9d68dd007583020028c1b04c524afe44e236258cc72")).getD [],
    by decide⟩

@[irreducible] def knownSignature : ByteArrayOf 64 :=
  ⟨(hexDecode (ascii ("d3e3c9a6f434a15ec60ed58d80936c8180142e748ac6af44efa23d21f77671f1" ++
    "244ed128a1a57c5e3a067a30b7c7b6635562b56766cda7819706b21a5108ad20"))).getD [],
    by decide +kernel⟩

@[irreducible] def knownPoint : Bytes :=
  (hexDecode (ascii ("048318535b54105d4a7aae60c08fc45f9687181b4fdfc625bd1a753fa7397fed75" ++
    "3547f11ca8696646f2f3acb08e31016afac23e630c5d11f59f61fef57b0d2aa5"))).getD []

def knownKey : Scalar :=
  ⟨0xac0974bec39a17e36ba4a6b4d238ff944bacb478cbed5efcae784d7bf4f2ff80, by decide⟩

def knownSign (key : Scalar) (hash : ByteArrayOf 32) : Except String (ByteArrayOf 64 × Fin 4) :=
  if key = knownKey ∧ hash = knownHash then .ok (knownSignature, 1) else .error "signature error"

def knownRecover (hash : ByteArrayOf 32) : Bytes :=
  if hash = knownHash then knownPoint else hash.val

theorem knownSign_knownHash : knownSign knownKey knownHash = .ok (knownSignature, 1) :=
  if_pos ⟨rfl, rfl⟩

theorem knownRecover_knownHash : knownRecover knownHash = knownPoint := if_pos rfl

theorem knownRecover_injective : Function.Injective knownRecover := by
  have hpoint : knownPoint.length = 65 := by decide +kernel
  intro hash hash' h
  rw [knownRecover, knownRecover] at h
  split at h <;> split at h
  · rename_i hhash hhash'
    rw [hhash, hhash']
  · have := congrArg List.length h
    rw [hpoint, hash'.property] at this
    cases this
  · have := congrArg List.length h
    rw [hpoint, hash.property] at this
    cases this
  · exact Subtype.ext h

/-- A library that signs the one known hash under the one known key, and otherwise names a key
by what it was recovered from. -/
def K256.known : K256 where
  SigningKey := Scalar
  VerifyingKey := Bytes
  Signature := ByteArrayOf 64
  verifyingKey _ := knownPoint
  signingKey bytes :=
    if h : (24 ≤ bytes.length ∧ bytes.length ≤ 32) ∧ 0 < ofBeBytes bytes ∧ ofBeBytes bytes < order
    then .ok ⟨ofBeBytes bytes, h.2⟩ else .error "signature error"
  signPrehash := knownSign
  toBytes sig := sig
  fromSlice bytes := if h : bytes.length = 64 then .ok ⟨bytes, h⟩ else .error "signature error"
  recoverFromPrehash hash _ _ := .ok (knownRecover hash)

theorem K256.known_lawful : K256.known.Lawful where
  fromSlice_toBytes sig := dif_pos sig.property
  recover_sign key hash sig recid h := by
    have hhash : hash = knownHash := by
      by_contra hne
      have hnone : knownSign key hash = .error "signature error" := if_neg fun h => hne h.2
      have : knownSign key hash = .ok (sig, recid) := h
      rw [hnone] at this
      cases this
    rw [hhash]
    exact congrArg Except.ok knownRecover_knownHash

theorem K256.known_binds : K256.known.Binds := by
  intro hash hash' sig recid key h h'
  have hkey : knownRecover hash = key := Except.ok.inj h
  have hkey' : knownRecover hash' = key := Except.ok.inj h'
  rw [knownRecover_injective (hkey.trans hkey'.symm)]

theorem K256.known_readsKeys : K256.known.ReadsKeys Subtype.val := by
  intro bytes key
  constructor
  · intro h
    have hkey : (if h : (24 ≤ bytes.length ∧ bytes.length ≤ 32) ∧
        0 < ofBeBytes bytes ∧ ofBeBytes bytes < order
      then .ok ⟨ofBeBytes bytes, h.2⟩ else .error "signature error" : Except String Scalar) =
        .ok key := h
    split at hkey
    case isTrue hread =>
      cases hkey
      exact ⟨hread.1, rfl, hread.2⟩
    case isFalse => cases hkey
  · rintro ⟨hlength, hvalue, hrange⟩
    rw [← hvalue] at hrange
    exact (dif_pos ⟨hlength, hrange⟩).trans (congrArg Except.ok (Subtype.ext hvalue))

theorem signEthClaim_known (digest : ByteArrayOf 32) :
    signEthClaim .known (fun _ => knownHash) knownKey digest = .ok (knownSignature.val ++ [28]) :=
  signEthClaim_eq_ok.mpr ⟨knownSignature, 1, knownSign_knownHash, rfl⟩

theorem recoverEthClaim_signEthClaim_run :
    let keccak256 : Bytes → ByteArrayOf 32 := fun _ => knownHash
    let out := knownSignature.val ++ [28]
    out.length = 65 ∧ ∃ recid : Fin 4, out = out.take 64 ++ [UInt8.ofNat recid + 27] ∧
      ∀ v, (Spells v recid →
          recoverEthClaim .known keccak256 (out.take 64 ++ [v]) knownDigest = .ok knownPoint) ∧
        ((∃ other,
            recoverEthClaim .known keccak256 (out.take 64 ++ [v]) knownDigest = .ok other) →
          v.toNat < 4 ∨ 27 ≤ v.toNat ∧ v.toNat < 31) :=
  @recoverEthClaim_signEthClaim .known _ K256.known_lawful knownKey _ _
    (signEthClaim_known knownDigest)

end Libid.Crypto
