import Libid.Crypto.Claim
import Libid.Tlsn.Limits
import Libid.Tlsn.Platform

namespace Libid.Tlsn

open Ceremony Crypto Transcript

/-! ### `capture_ceremony.rs` -/

inductive NotarizeError
  | record (e : AttestError)
  | sign (e : Crypto.Error)

section

variable (K : K256) (keccak256 : Bytes → ByteArrayOf 32)

/-- `Session`, as the capture keeps it of a notarized one. -/
structure NotarizedSession where
  record : Bytes
  signature : Bytes
  createdAt : UInt64
  responseBody : Bytes
  authority : Bytes

/-- What follows the two sessions: the verifier's is described in a record, which is signed
over its digest.  Where the source panics this is an error. -/
def notarize (key : K.SigningKey) (session : ObservedSession) (responseBody : Bytes) :
    Except NotarizeError NotarizedSession :=
  match AttestedData.fromObserved keccak256 session with
  | .error e => .error (.record e)
  | .ok data =>
    let record := data.encode
    match signEthClaim K keccak256 key (keccak256 record) with
    | .error e => .error (.sign e)
    | .ok signature =>
      .ok ⟨record, signature, session.createdAt, responseBody, session.authority⟩

def NotarizedSession.wire (s : NotarizedSession) : AttestationWire where
  attestedData := s.record
  notarySignature := s.signature

def notaryOf (answer : AttestationWire) : Except Crypto.Error K.VerifyingKey :=
  recoverEthClaim K keccak256 answer.notarySignature (keccak256 answer.attestedData)

end

variable {K : K256} {keccak256 : Bytes → ByteArrayOf 32} {key : K.SigningKey}
  {session : ObservedSession} {responseBody : Bytes} {s : NotarizedSession}

/-! ### What the answer says -/

theorem notarize_eq_ok : notarize K keccak256 key session responseBody = .ok s ↔
    ∃ record, AttestedData.fromObserved keccak256 session = .ok record ∧
      signEthClaim K keccak256 key (record.digest keccak256) = .ok s.signature ∧
      s = ⟨record.encode, s.signature, session.createdAt, responseBody, session.authority⟩ := by
  rw [notarize]
  constructor
  · intro h
    split at h
    · cases h
    rename_i record hrecord
    dsimp only at h
    split at h
    · cases h
    rename_i signature hsign
    cases h
    exact ⟨record, hrecord, hsign, rfl⟩
  · rintro ⟨record, hrecord, hsign, hs⟩
    rw [AttestedData.digest] at hsign
    simp only [hrecord, hsign]
    rw [← hs]

theorem notaryOf_notarize (hK : K.Lawful)
    (h : notarize K keccak256 key session responseBody = .ok s) :
    notaryOf K keccak256 s.wire = .ok (K.verifyingKey key) := by
  obtain ⟨record, -, hsign, hs⟩ := notarize_eq_ok.mp h
  obtain ⟨sig, recid, hsig, hout⟩ := signEthClaim_eq_ok.mp hsign
  rw [notaryOf, NotarizedSession.wire, hs, recoverEthClaim_eq_ok]
  exact ⟨_, _, sig, recid, hout, (K.toBytes sig).property, hK.fromSlice_toBytes sig,
    spells_offset recid, hK.recover_sign key _ sig recid hsig⟩

theorem length_signature (h : notarize K keccak256 key session responseBody = .ok s) :
    s.signature.length = signatureLen := by
  obtain ⟨record, -, hsign, -⟩ := notarize_eq_ok.mp h
  obtain ⟨sig, recid, -, hout⟩ := signEthClaim_eq_ok.mp hsign
  rw [hout, List.length_append, (K.toBytes sig).property]
  rfl

theorem decode_notarize (h : notarize K keccak256 key session responseBody = .ok s) :
    ∃ record, AttestedData.fromObserved keccak256 session = .ok record ∧
      AttestedData.decode s.record = some (record, []) := by
  obtain ⟨record, hrecord, -, hs⟩ := notarize_eq_ok.mp h
  refine ⟨record, hrecord, ?_⟩
  rw [hs, ← List.append_nil record.encode, AttestedData.decode_encode_append]

structure ObservedSession.Notarizable (session : ObservedSession) : Prop where
  inside : session.Inside
  count : session.commitments.length < 256 ^ 8
  tiles : ∀ direction, Tiles (session.transcript.len direction)
    ((session.transcript.authed direction).ranges ++ session.hashedRanges direction)
  sent : session.transcript.lenSent ≤ maxSentData
  received : session.transcript.lenReceived ≤ maxRecvData

theorem ObservedSession.Notarizable.partitions (hs : session.Notarizable)
    {record : AttestedData} (h : AttestedData.fromObserved keccak256 session = .ok record) :
    Partitions record session.transcript.lenSent session.transcript.lenReceived := by
  have htiles (direction : Direction) : Tiles (session.transcript.len direction)
      ((record.block direction).revealedSpans ++ (record.block direction).commitmentSpans) := by
    obtain ⟨hreports, -⟩ := reports_fromObserved hs.inside hs.count h direction
    rw [hreports.revealedSpans]
    exact (hs.tiles direction).perm (hreports.commitmentSpans.symm.append_left _)
  exact ⟨htiles .sent, htiles .received⟩

theorem ObservedSession.Notarizable.length_record (hs : session.Notarizable)
    (h : notarize K keccak256 key session responseBody = .ok s) :
    80 ≤ s.record.length ∧ s.record.length ≤ maxAttestedDataBytes := by
  obtain ⟨record, hrecord, -, heq⟩ := notarize_eq_ok.mp h
  have hlen := (hs.partitions hrecord).length_encode
  have hsent := hs.sent
  have hreceived := hs.received
  rw [maxSentData] at hsent
  rw [maxRecvData] at hreceived
  rw [heq, maxAttestedDataBytes]
  dsimp only
  omega

section Wire

variable {ε : Type} {toVec : AttestationWire → Except ε Bytes}
  {fromSlice : Bytes → Except ε AttestationWire}

/-- The answer to such a session is written and read back whole, names the notary that signed
it, decodes to the session's record and to nothing besides, and with it the Token-Exchange
Service is left only the credential and its opening to refuse. -/
theorem notarize_survives (htext : ∀ m, toVec m = .ok m.json)
    (hjson : ∀ m json, toVec m = .ok json → fromSlice json = .ok m) (hK : K.Lawful)
    (hs : session.Notarizable) (h : notarize K keccak256 key session responseBody = .ok s) :
    (∃ bs, writeMsg toVec [] s.wire = .ok bs ∧
      ∀ (r : ByteStream) (rest : Bytes), r.bytes = bs ++ rest → ∃ t, t.bytes = rest ∧
        readMsg fromSlice r = .ok (s.wire, t)) ∧
    notaryOf K keccak256 s.wire = .ok (K.verifyingKey key) ∧
    (∃ record, AttestedData.fromObserved keccak256 session = .ok record ∧
      AttestedData.decode s.record = some (record, [])) ∧
    ∀ accessToken bearerOpening, TokenResponse.validate
        ⟨accessToken, ⟨s.record, s.signature⟩, bearerOpening⟩ = .ok () ↔
      Carried maxAccessTokenBytes accessToken ∧ bearerOpening.length = bearerOpeningLen := by
  obtain ⟨hpos, hle⟩ := hs.length_record h
  have hsignature := length_signature h
  have hlength : s.wire.json.length ≤ maxMsgSize := length_json_le hle hsignature
  have hu32 : s.wire.json.length < 2 ^ 32 := hlength.trans_lt (by decide)
  refine ⟨⟨frame s.wire.json, ?_, fun r rest hr => ?_⟩, notaryOf_notarize hK h,
    decode_notarize h, ?_⟩
  · exact writeMsg_eq_ok.mpr ⟨s.wire.json, htext _, hu32, rfl⟩
  · have hread := readMsg_frame fromSlice hu32 hr
    rw [if_pos hlength, hjson _ _ (htext _)] at hread
    exact hread
  · intro accessToken bearerOpening
    rw [TokenResponse.validate_eq_ok]
    constructor
    · intro hvalid
      exact ⟨hvalid.accessToken, hvalid.bearerOpening⟩
    · rintro ⟨htoken, hopening⟩
      exact ⟨htoken, List.ne_nil_of_length_pos (by simp only; omega), hle, hsignature, hopening⟩

end Wire

theorem observed_notarizable {lib : Notarization} (hlib : lib.Lawful) {sent recv : Bytes}
    {sl rl : Layout} (hsl : sl.Accounts sent.length) (hrl : rl.Accounts recv.length)
    (hsent : sent.length ≤ maxSentData) (hrecv : recv.length ≤ maxRecvData)
    (hcount : sl.commit.length + rl.commit.length < 256 ^ 8) (createdAt : UInt64) :
    (observed lib sent recv sl rl createdAt).Notarizable := by
  obtain ⟨hds, hdr⟩ := observed_discloses hlib hsl hrl createdAt
  refine ⟨observed_inside hlib hsl hrl createdAt, ?_, ?_, ?_, ?_⟩
  · rwa [length_commitments_observed]
  · rintro (_ | _)
    · exact hds.tiles hsl
    · exact hdr.tiles hrl
  · exact hds.opens.len.trans_le hsent
  · exact hdr.opens.len.trans_le hrecv

def oneByte : ObservedSession :=
  observed (.plain fun _ _ => hash32 0) [7] [9] ⟨[⟨0, 1⟩], []⟩ ⟨[⟨0, 1⟩], []⟩ 8

theorem exists_notarize_oneByte : oneByte.Notarizable ∧
    ∃ s, notarize .known (fun _ => knownHash) knownKey oneByte [] = .ok s := by
  have hlib := Notarization.plain_lawful fun _ _ => hash32 0
  have hacc : (⟨[⟨0, 1⟩], []⟩ : Layout).Accounts 1 := (Layout.revealing_one (by decide) le_rfl).1
  obtain ⟨record, hrecord⟩ := exists_fromObserved_observed (fun _ => knownHash) hlib
    (show Layout.Accounts _ [(7 : UInt8)].length from hacc)
    (show Layout.Accounts _ [(9 : UInt8)].length from hacc) (by decide) (by decide) 8
  refine ⟨observed_notarizable hlib hacc hacc (by decide) (by decide) (by decide) 8,
    ⟨record.encode, knownSignature.val ++ [28], oneByte.createdAt, [], oneByte.authority⟩, ?_⟩
  exact notarize_eq_ok.mpr ⟨record, hrecord, signEthClaim_known _, rfl⟩

theorem notarize_survives_run :
    ∃ s bs, notarize .known (fun _ => knownHash) knownKey oneByte [] = .ok s ∧
      writeMsg AttestationWire.toVec [] s.wire = .ok bs ∧
      notaryOf .known (fun _ => knownHash) s.wire = .ok knownPoint ∧
      ∃ t, readMsg AttestationWire.ofJson (.ofBytes bs) = .ok (s.wire, t) := by
  obtain ⟨hnotarizable, s, hs⟩ := exists_notarize_oneByte
  obtain ⟨⟨bs, hwrite, hread⟩, hnotary, -, -⟩ := notarize_survives (fun _ => rfl)
    (fun _ _ => AttestationWire.ofJson_of_toVec) K256.known_lawful hnotarizable hs
  obtain ⟨t, -, ht⟩ := hread (.ofBytes bs) [] (by simp)
  exact ⟨s, bs, hs, hwrite, hnotary, t, ht⟩

def Collides (keccak256 : Bytes → ByteArrayOf 32) (x y : Bytes) : Prop :=
  x ≠ y ∧ keccak256 x = keccak256 y

/-- The curve does not tell the two hashes apart. -/
def CollidesModOrder (keccak256 : Bytes → ByteArrayOf 32) (x y : Bytes) : Prop :=
  x ≠ y ∧ ofBeBytes (keccak256 x).val % order = ofBeBytes (keccak256 y).val % order

def claimText (digest : ByteArrayOf 32) : Bytes :=
  ascii "\x19Ethereum Signed Message:\n32" ++ digest.val

/-- Under one signature of the notary stands one record, or two records collide, or the hashes
of two claims are equal modulo the curve's order. -/
theorem notarize_binds (hK : K.Lawful) (hbinds : K.Binds)
    (h : notarize K keccak256 key session responseBody = .ok s) {other : AttestationWire}
    (hsignature : other.notarySignature = s.signature)
    (hother : notaryOf K keccak256 other = .ok (K.verifyingKey key)) :
    (other.attestedData = s.record ∧
      ∃ record, AttestedData.fromObserved keccak256 session = .ok record ∧
        AttestedData.decode other.attestedData = some (record, [])) ∨
    Collides keccak256 s.record other.attestedData ∨
    CollidesModOrder keccak256 (claimText (keccak256 s.record))
      (claimText (keccak256 other.attestedData)) := by
  have hanswer := notaryOf_notarize hK h
  rw [notaryOf, recoverEthClaim_eq_ok] at hanswer hother
  obtain ⟨rs, v, sig, recid, hout, -, hsig, hv, hrecover⟩ := hanswer
  obtain ⟨rs', v', sig', recid', hout', -, hsig', hv', hrecover'⟩ := hother
  obtain ⟨rfl, rfl⟩ : rs' = rs ∧ v' = v := by
    rw [hout', show s.signature = rs ++ [v] from hout] at hsignature
    simpa using hsignature
  obtain rfl := Except.ok.inj (hsig'.symm.trans hsig)
  obtain rfl := hv'.unique hv
  have hcurve := hbinds _ _ _ _ _ hrecover hrecover'
  by_cases hdigest : keccak256 s.record = keccak256 other.attestedData
  · by_cases hdata : s.record = other.attestedData
    · exact .inl ⟨hdata.symm, hdata ▸ decode_notarize h⟩
    · exact .inr (.inl ⟨hdata, hdigest⟩)
  · refine .inr (.inr ⟨fun htext => hdigest ?_, hcurve⟩)
    exact Subtype.ext (List.append_cancel_left htext)

/-- Under a hash that tells nothing apart, the signature of a record stands for no record too. -/
theorem notarize_binds_run :
    ∃ s, notarize .known (fun _ => knownHash) knownKey oneByte [] = .ok s ∧
      (([] = s.record ∧
        ∃ record, AttestedData.fromObserved (fun _ => knownHash) oneByte = .ok record ∧
          AttestedData.decode [] = some (record, [])) ∨
      Collides (fun _ => knownHash) s.record [] ∨
      CollidesModOrder (fun _ => knownHash) (claimText knownHash) (claimText knownHash)) := by
  obtain ⟨-, s, hs⟩ := exists_notarize_oneByte
  have hnotary := notaryOf_notarize K256.known_lawful hs
  exact ⟨s, hs, @notarize_binds .known _ _ _ _ _ K256.known_lawful K256.known_binds hs
    ⟨[], s.signature⟩ rfl hnotary⟩

end Libid.Tlsn
