import Libid.Base.Tiling
import Libid.Ceremony.Attestation
import Mathlib.Data.List.Sort

/-! From an observed session to the attested data.  The notarization library's types
appear as what the code reads of them. -/

namespace Libid.Tlsn

open Ceremony

/-! ### What the notarization library hands over -/

inductive Direction
  | sent
  | received
  deriving DecidableEq

/-- The library's algorithm identifiers, of which the code names one. -/
inductive HashAlgId
  | sha256
  | other (id : Nat)
  deriving DecidableEq

structure PlaintextHash where
  direction : Direction
  idx : RangeSet
  alg : HashAlgId
  value : Bytes

/-- A non-exhaustive enumeration: the code skips every kind but one. -/
inductive TranscriptCommitment
  | hash (hash : PlaintextHash)
  | other

/-- A transcript with some ranges opened.  What is opened lies within the data. -/
structure PartialTranscript where
  lenSent : Nat
  lenReceived : Nat
  sentAuthed : RangeSet
  receivedAuthed : RangeSet
  sentUnsafe : Bytes
  receivedUnsafe : Bytes
  sent_inside : ∀ r ∈ sentAuthed.ranges, r.stop ≤ sentUnsafe.length
  received_inside : ∀ r ∈ receivedAuthed.ranges, r.stop ≤ receivedUnsafe.length

/-! ### `attest.rs` -/

structure ObservedSession where
  transcript : PartialTranscript
  authority : Bytes
  commitments : List TranscriptCommitment
  createdAt : UInt64

inductive AttestError
  | wrongCommitmentAlgorithm (alg : HashAlgId)
  | disjointCommitment (ranges : Nat)
  | badCommitmentLength (length : Nat)
  | offsetTooLarge (value : Nat)
  deriving DecidableEq

def u32Of (value : Nat) : Except AttestError UInt32 :=
  if value < 2 ^ 32 then .ok (UInt32.ofNat value) else .error (.offsetTooLarge value)

/-- A list in memory as a vector.  No memory holds a list that this cuts short. -/
def vecOf {α : Type} (as : List α) : Vec α :=
  ⟨as.take (256 ^ 8 - 1), by
    rw [List.length_take]
    exact Nat.lt_of_le_of_lt (Nat.min_le_left ..) (by decide)⟩

namespace DirectionBlock

def revealedRange (data : Bytes) (range : Range) : Except AttestError RevealedRange := do
  let _ ← u32Of range.stop
  let start ← u32Of range.start
  return { start := start, bytes := vecOf (slice data range) }

def revealedRanges (data : Bytes) : List Range → Except AttestError (List RevealedRange)
  | [] => .ok []
  | range :: ranges => do
    let first ← revealedRange data range
    let rest ← revealedRanges data ranges
    return first :: rest

/-- `value.try_into()`, from a slice to an array. -/
def arrayOf (value : Bytes) : Except AttestError (ByteArrayOf 32) :=
  if h : value.length = 32 then .ok ⟨value, h⟩ else .error (.badCommitmentLength value.length)

/-- One turn of the loop over the commitments; `none` goes on to the next. -/
def rangeCommitment (direction : Direction) :
    TranscriptCommitment → Except AttestError (Option RangeCommitment)
  | .other => .ok none
  | .hash hash =>
    if hash.direction ≠ direction then .ok none
    else if hash.alg ≠ .sha256 then .error (.wrongCommitmentAlgorithm hash.alg)
    else
      match hash.idx.ranges with
      | [range] => do
        let value ← arrayOf hash.value
        let start ← u32Of range.start
        let stop ← u32Of range.stop
        return some { start := start, stop := stop, commitment := value }
      | ranges => .error (.disjointCommitment ranges.length)

def rangeCommitments (direction : Direction) :
    List TranscriptCommitment → Except AttestError (List RangeCommitment)
  | [] => .ok []
  | commitment :: commitments => do
    let first ← rangeCommitment direction commitment
    let rest ← rangeCommitments direction commitments
    return first.toList ++ rest

/-- The sort is stable, as `sort_by_key` is. -/
def sortByStart (commitments : List RangeCommitment) : List RangeCommitment :=
  commitments.insertionSort fun a b => a.start ≤ b.start

def fromObserved (session : ObservedSession) (direction : Direction) :
    Except AttestError DirectionBlock := do
  let (authed, data) := match direction with
    | .sent => (session.transcript.sentAuthed, session.transcript.sentUnsafe)
    | .received => (session.transcript.receivedAuthed, session.transcript.receivedUnsafe)
  let revealed ← revealedRanges data authed.ranges
  let commitments ← rangeCommitments direction session.commitments
  return { revealed := vecOf revealed, commitments := vecOf (sortByStart commitments) }

end DirectionBlock

def AttestedData.fromObserved (keccak256 : Bytes → ByteArrayOf 32) (session : ObservedSession) :
    Except AttestError AttestedData := do
  let sentTranscriptLength ← u32Of session.transcript.lenSent
  let recvTranscriptLength ← u32Of session.transcript.lenReceived
  let sent ← DirectionBlock.fromObserved session .sent
  let received ← DirectionBlock.fromObserved session .received
  return {
    authorityId := AttestedData.authorityIdOf keccak256 session.authority
    createdAt := session.createdAt
    sentTranscriptLength := sentTranscriptLength
    recvTranscriptLength := recvTranscriptLength
    sent := sent
    received := received }

end Libid.Tlsn
