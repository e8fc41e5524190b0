import Libid.Ceremony.TokenExchange
import Libid.Tlsn.Record
import Libid.Tlsn.Session
import Libid.Transcript.Wire
import Mathlib.Algebra.BigOperators.Ring.List
import Mathlib.Algebra.Order.BigOperators.Group.List

namespace Libid

theorem Ascending.sum_size_le {rs : List Range} (h : Ascending rs) {a len : Nat}
    (ha : ∀ r ∈ rs, a ≤ r.start) (hlen : ∀ r ∈ rs, r.stop ≤ len) :
    (rs.map fun r => r.stop - r.start).sum ≤ len - a := by
  induction rs generalizing a with
  | nil => exact Nat.zero_le _
  | cons r rs ih =>
    obtain ⟨hr, hlt, hrs⟩ := Ascending.cons_iff.mp h
    have hstart := ha r (by simp)
    have hstop := hlen r (by simp)
    have := ih hrs hlt fun t ht => hlen t (by simp [ht])
    rw [List.map_cons, List.sum_cons]
    omega

theorem Tiles.sum_size_le {len : Nat} {rs : List Range} (h : Tiles len rs) :
    (rs.map fun r => r.stop - r.start).sum ≤ len := by
  have hperm := Transcript.Layout.perm_sortByStart rs
  rw [← (hperm.map fun r => r.stop - r.start).sum_nat]
  exact (Transcript.Layout.ascending_sortByStart h.nonempty h.disjoint).sum_size_le
    (fun _ _ => Nat.zero_le _) fun r hr => h.inside r (hperm.mem_iff.mp hr)

namespace Ceremony

theorem DirectionBlock.length_encode_le {b : DirectionBlock} {len : Nat}
    (h : Tiles len (b.revealedSpans ++ b.commitmentSpans)) :
    b.encode.length ≤ 16 + 40 * len := by
  have hsum := h.sum_size_le
  rw [List.map_append, List.sum_append, revealedSpans, commitmentSpans, List.map_map,
    List.map_map] at hsum
  have hrevealed : (b.revealed.val.map fun r => 12 + r.bytes.val.length).sum ≤
      (b.revealed.val.map fun r => 40 * (r.span.stop - r.span.start)).sum := by
    apply List.sum_le_sum
    intro r hr
    have hne := h.nonempty r.span (List.mem_append_left _ (List.mem_map_of_mem hr))
    simp only [RevealedRange.span] at hne ⊢
    omega
  have hcommitments : (b.commitments.val.map fun _ => 1).sum ≤
      (b.commitments.val.map fun c => c.span.stop - c.span.start).sum := by
    apply List.sum_le_sum
    intro c hc
    have hne := h.nonempty c.span (List.mem_append_right _ (List.mem_map_of_mem hc))
    omega
  rw [List.sum_map_mul_left] at hrevealed
  rw [List.map_const', List.sum_replicate_nat] at hcommitments
  rw [length_encode]
  simp only [Function.comp_def] at hsum
  omega

end Ceremony

namespace Tlsn

open Ceremony Transcript

structure Partitions (d : AttestedData) (sent received : Nat) : Prop where
  sent : Tiles sent (d.sent.revealedSpans ++ d.sent.commitmentSpans)
  received : Tiles received (d.received.revealedSpans ++ d.received.commitmentSpans)

theorem Partitions.length_encode {d : AttestedData} {sent received : Nat}
    (h : Partitions d sent received) :
    80 ≤ d.encode.length ∧ d.encode.length ≤ 80 + 40 * (sent + received) := by
  have hs := DirectionBlock.length_encode_le h.sent
  have hr := DirectionBlock.length_encode_le h.received
  have hlen := d.length_encode
  rw [DirectionBlock.length_encode] at hs hr
  rw [List.map_append, List.sum_append] at hlen
  omega

theorem validate_ne_attestedData {r : TokenResponse}
    (hpos : r.tokenAttestation.attestedData ≠ [])
    (hle : r.tokenAttestation.attestedData.length ≤ maxAttestedDataBytes) :
    r.validate ≠ .error .emptyAttestedData ∧
      ∀ n, r.validate ≠ .error (.attestedDataTooLong n) := by
  simp only [TokenResponse.validate, if_neg hpos, if_neg (Nat.not_lt.mpr hle)]
  split
  · simp
  split
  · simp
  split
  · simp
  split
  · simp
  split
  · simp
  · simp

theorem length_json_le {m : AttestationWire}
    (hdata : m.attestedData.length ≤ maxAttestedDataBytes)
    (hsignature : m.notarySignature.length = signatureLen) : m.json.length ≤ maxMsgSize := by
  have hlen := m.length_json.2
  rw [maxAttestedDataBytes] at hdata
  rw [signatureLen] at hsignature
  rw [maxMsgSize]
  omega

/-- The limits agree: a record that partitions two transcripts the session allows passes
the exchange's bounds, and a message with such a record is written and read. -/
theorem record_fits_limits :
    (∀ d sent received, Partitions d sent received → sent ≤ maxSentData →
      received ≤ maxRecvData →
      (80 ≤ d.encode.length ∧ d.encode.length ≤ 80 + 40 * (sent + received)) ∧
      ∀ r : TokenResponse, r.tokenAttestation.attestedData = d.encode →
        r.validate ≠ .error .emptyAttestedData ∧
          ∀ n, r.validate ≠ .error (.attestedDataTooLong n)) ∧
    ∀ m : AttestationWire, m.attestedData.length ≤ maxAttestedDataBytes →
      m.notarySignature.length = signatureLen →
      m.json.length ≤ maxMsgSize ∧
      ∃ bs, writeMsg AttestationWire.toVec [] m = .ok bs ∧
        ∀ (fromSlice : Bytes → Except Unit AttestationWire) (r : ByteStream) (rest : Bytes),
          r.bytes = bs ++ rest → ∃ t, t.bytes = rest ∧
            readMsg fromSlice r = ((fromSlice m.json).mapError .json).map fun m => (m, t) := by
  constructor
  · intro d sent received hd hs hr
    have hlen := hd.length_encode
    refine ⟨hlen, fun r hdata => ?_⟩
    rw [maxSentData] at hs
    rw [maxRecvData] at hr
    refine validate_ne_attestedData ?_ ?_
    · rw [hdata]
      exact List.ne_nil_of_length_pos (by omega)
    · rw [hdata, maxAttestedDataBytes]
      omega
  · intro m hdata hsignature
    have hle := length_json_le hdata hsignature
    have hu32 : m.json.length < 2 ^ 32 := hle.trans_lt (by decide)
    refine ⟨hle, frame m.json, writeMsg_eq_ok.mpr ⟨m.json, rfl, hu32, rfl⟩, ?_⟩
    intro fromSlice r rest hr
    have hread := readMsg_frame fromSlice hu32 hr
    rwa [if_pos hle] at hread

theorem record_fits_limits_run :
    (∃ d : AttestedData, Partitions d 3 1 ∧ 80 ≤ d.encode.length ∧ d.encode.length ≤ 240) ∧
      (AttestationWire.json ⟨[1, 20, 255], List.replicate 65 0⟩).length ≤ maxMsgSize := by
  have hparts : Partitions ⟨⟨List.replicate 32 1, by decide⟩, 5, 3, 1,
      ⟨⟨[⟨0, ⟨[9, 9], by decide⟩⟩], by decide⟩,
        ⟨[⟨2, 3, ⟨List.replicate 32 4, by decide⟩⟩], by decide⟩⟩,
      ⟨⟨[⟨0, ⟨[7], by decide⟩⟩], by decide⟩, ⟨[], by decide⟩⟩⟩ 3 1 := by
    constructor
    · refine ⟨by decide, by decide, ?_, fun i hi => ?_⟩
      · simp [DirectionBlock.revealedSpans, DirectionBlock.commitmentSpans, RevealedRange.span,
          RangeCommitment.span, Range.Disjoint]
        omega
      · simp [DirectionBlock.revealedSpans, DirectionBlock.commitmentSpans, RevealedRange.span,
          RangeCommitment.span]
        omega
    · refine ⟨by decide, by decide, List.pairwise_singleton _ _, fun i hi => ?_⟩
      simp [DirectionBlock.revealedSpans, DirectionBlock.commitmentSpans, RevealedRange.span]
      omega
  have hlen := (record_fits_limits.1 _ _ _ hparts (by decide) (by decide)).1
  exact ⟨⟨_, hparts, hlen⟩, (record_fits_limits.2 _ (by decide) (by decide)).1⟩

end Tlsn

end Libid
