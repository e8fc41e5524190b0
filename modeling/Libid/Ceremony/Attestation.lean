import Libid.Base.Ascii
import Libid.Base.Codec

/-! The attested data a notary signs, its wire format, and the one record a signed
preimage can stand for. -/

namespace Libid.Ceremony

structure RevealedRange where
  start : UInt32
  bytes : Vec UInt8

structure RangeCommitment where
  start : UInt32
  stop : UInt32
  commitment : ByteArrayOf 32

structure DirectionBlock where
  revealed : Vec RevealedRange
  commitments : Vec RangeCommitment

structure AttestedData where
  authorityId : ByteArrayOf 32
  createdAt : UInt64
  sentTranscriptLength : UInt32
  recvTranscriptLength : UInt32
  sent : DirectionBlock
  received : DirectionBlock

def encodeU32 (n : UInt32) : Bytes := toBeBytes 4 n.toNat

def encodeU64 (n : UInt64) : Bytes := toBeBytes 8 n.toNat

def encodeVec {α : Type} (encode : α → Bytes) (as : Vec α) : Bytes :=
  toBeBytes 8 as.val.length ++ as.val.flatMap encode

def RevealedRange.encode (r : RevealedRange) : Bytes :=
  encodeU32 r.start ++ encodeVec (fun b => [b]) r.bytes

def RangeCommitment.encode (c : RangeCommitment) : Bytes :=
  encodeU32 c.start ++ (encodeU32 c.stop ++ c.commitment.val)

def DirectionBlock.encode (b : DirectionBlock) : Bytes :=
  encodeVec RevealedRange.encode b.revealed ++ encodeVec RangeCommitment.encode b.commitments

namespace AttestedData

/-- Writing to memory cannot fail, so there is no error to return. -/
def encode (d : AttestedData) : Bytes :=
  d.authorityId.val ++ (encodeU64 d.createdAt ++ (encodeU32 d.sentTranscriptLength ++
    (encodeU32 d.recvTranscriptLength ++ (d.sent.encode ++ d.received.encode))))

/-- The hash is a parameter: the code calls another crate's. -/
def authorityIdOf (keccak256 : Bytes → ByteArrayOf 32) (serverName : Bytes) : ByteArrayOf 32 :=
  keccak256 (serverName.map toAsciiLowercase)

def digest (keccak256 : Bytes → ByteArrayOf 32) (d : AttestedData) : ByteArrayOf 32 :=
  keccak256 d.encode

end AttestedData

def RevealedRange.codec : Codec RevealedRange := (Codec.u32.pair Codec.byte.vec).map
  { toFun := fun p => ⟨p.1, p.2⟩
    invFun := fun r => (r.start, r.bytes)
    left_inv := fun _ => rfl
    right_inv := fun _ => rfl }

def RangeCommitment.codec : Codec RangeCommitment :=
  (Codec.u32.pair (Codec.u32.pair (Codec.bytes 32))).map
    { toFun := fun p => ⟨p.1, p.2.1, p.2.2⟩
      invFun := fun c => (c.start, c.stop, c.commitment)
      left_inv := fun _ => rfl
      right_inv := fun _ => rfl }

def DirectionBlock.codec : Codec DirectionBlock :=
  (RevealedRange.codec.vec.pair RangeCommitment.codec.vec).map
    { toFun := fun p => ⟨p.1, p.2⟩
      invFun := fun b => (b.revealed, b.commitments)
      left_inv := fun _ => rfl
      right_inv := fun _ => rfl }

namespace AttestedData

def codec : Codec AttestedData :=
  ((Codec.bytes 32).pair (Codec.u64.pair (Codec.u32.pair (Codec.u32.pair
    (DirectionBlock.codec.pair DirectionBlock.codec))))).map
    { toFun := fun p => ⟨p.1, p.2.1, p.2.2.1, p.2.2.2.1, p.2.2.2.2.1, p.2.2.2.2.2⟩
      invFun := fun d => (d.authorityId, d.createdAt, d.sentTranscriptLength,
        d.recvTranscriptLength, d.sent, d.received)
      left_inv := fun _ => rfl
      right_inv := fun _ => rfl }

/-- The decoder's one forward pass, and what it leaves. -/
def decode (bs : Bytes) : Option (AttestedData × Bytes) := codec.dec bs

theorem decode_encode_append (d : AttestedData) (t : Bytes) :
    decode (d.encode ++ t) = some (d, t) :=
  codec.dec_enc d t

theorem encode_of_decode {bs t : Bytes} {d : AttestedData} (h : decode bs = some (d, t)) :
    bs = d.encode ++ t :=
  codec.enc_dec _ _ _ h

theorem encode_injective : Function.Injective encode := codec.enc_injective

theorem eq_of_encode_isPrefix {d d' : AttestedData} (h : d.encode <+: d'.encode) : d = d' :=
  codec.eq_of_isPrefix h

end AttestedData

@[simp] theorem length_encodeU32 (n : UInt32) : (encodeU32 n).length = 4 := length_toBeBytes ..

@[simp] theorem length_encodeU64 (n : UInt64) : (encodeU64 n).length = 8 := length_toBeBytes ..

theorem length_encodeVec {α : Type} (encode : α → Bytes) (as : Vec α) :
    (encodeVec encode as).length = 8 + (as.val.map fun a => (encode a).length).sum := by
  rw [encodeVec, List.length_append, length_toBeBytes, List.length_flatMap]

theorem RevealedRange.length_encode (r : RevealedRange) :
    r.encode.length = 12 + r.bytes.val.length := by
  simp only [encode, List.length_append, length_encodeU32, length_encodeVec,
    List.length_singleton, List.map_const', List.sum_replicate_nat]
  omega

theorem RangeCommitment.length_encode (c : RangeCommitment) : c.encode.length = 40 := by
  simp only [encode, List.length_append, length_encodeU32, c.commitment.property]

theorem DirectionBlock.length_encode (b : DirectionBlock) :
    b.encode.length = 16 + (b.revealed.val.map fun r => 12 + r.bytes.val.length).sum +
      40 * b.commitments.val.length := by
  simp only [encode, List.length_append, length_encodeVec, RevealedRange.length_encode,
    RangeCommitment.length_encode, List.map_const', List.sum_replicate_nat]
  omega

theorem AttestedData.length_encode (d : AttestedData) :
    d.encode.length = 80 +
      ((d.sent.revealed.val ++ d.received.revealed.val).map fun r =>
        12 + r.bytes.val.length).sum +
      40 * (d.sent.commitments.val.length + d.received.commitments.val.length) := by
  simp only [encode, List.length_append, d.authorityId.property, length_encodeU64,
    length_encodeU32, DirectionBlock.length_encode, List.map_append, List.sum_append]
  omega

/-- A signed preimage reads back as one record, and no other record begins with it. -/
theorem AttestedData.preimage_determines_record :
    (∀ d t, decode (encode d ++ t) = some (d, t)) ∧
      (∀ bs d, decode bs = some (d, []) → encode d = bs) ∧
      Function.Injective encode ∧ (∀ d d', encode d <+: encode d' → d = d') ∧
      ∀ d, (encode d).length = 80 +
        ((d.sent.revealed.val ++ d.received.revealed.val).map fun r =>
          12 + r.bytes.val.length).sum +
        40 * (d.sent.commitments.val.length + d.received.commitments.val.length) := by
  refine ⟨decode_encode_append, fun bs d h => ?_, encode_injective,
    fun d d' => eq_of_encode_isPrefix, length_encode⟩
  rw [encode_of_decode h, List.append_nil]

theorem AttestedData.preimage_determines_record_run :
    ∃ d : AttestedData, d.encode.length = 134 ∧ decode (d.encode ++ [7]) = some (d, [7]) := by
  refine ⟨⟨⟨List.replicate 32 1, by decide⟩, 5, 3, 0,
    ⟨⟨[⟨0, ⟨[9, 9], by decide⟩⟩], by decide⟩,
      ⟨[⟨2, 3, ⟨List.replicate 32 4, by decide⟩⟩], by decide⟩⟩,
    ⟨⟨[], by decide⟩, ⟨[], by decide⟩⟩⟩, ?_, ?_⟩
  · exact preimage_determines_record.2.2.2.2 _
  · exact preimage_determines_record.1 _ _

end Libid.Ceremony
