import Libid.Tlsn.Record

namespace Libid

namespace Ceremony.AttestedData

open Tlsn

variable (d : AttestedData)

def block : Direction → DirectionBlock
  | .sent => d.sent
  | .received => d.received

def transcriptLength : Direction → UInt32
  | .sent => d.sentTranscriptLength
  | .received => d.recvTranscriptLength

end Ceremony.AttestedData

namespace Tlsn

open Ceremony Transcript

theorem u32Of_eq_ok {value : Nat} {n : UInt32} : u32Of value = .ok n ↔ n.toNat = value := by
  rw [u32Of]
  split
  case isTrue h =>
    rw [Except.ok.injEq]
    constructor
    · rintro rfl
      exact UInt32.toNat_ofNat_of_lt' h
    · rintro rfl
      exact UInt32.ofNat_toNat
  case isFalse h =>
    have := n.toNat_lt
    constructor
    · simp
    · omega

def TranscriptCommitment.hashed (direction : Direction) :
    TranscriptCommitment → Option PlaintextHash
  | .other => none
  | .hash h => if h.direction = direction then some h else none

structure Records (hash : PlaintextHash) (entry : RangeCommitment) : Prop where
  alg : hash.alg = .sha256
  idx : hash.idx.ranges = [entry.span]
  value : hash.value = entry.commitment.val

structure PlaintextHash.Describable (hash : PlaintextHash) : Prop where
  alg : hash.alg = .sha256
  idx : ∃ range, hash.idx.ranges = [range] ∧ range.start < 2 ^ 32 ∧ range.stop < 2 ^ 32
  value : hash.value.length = 32

theorem Records.describable {hash : PlaintextHash} {entry : RangeCommitment}
    (h : Records hash entry) : hash.Describable where
  alg := h.alg
  idx := ⟨entry.span, h.idx, entry.start.toNat_lt, entry.stop.toNat_lt⟩
  value := by rw [h.value, entry.commitment.property]

theorem PlaintextHash.Describable.exists_records {hash : PlaintextHash} (h : hash.Describable) :
    ∃ entry, Records hash entry := by
  obtain ⟨range, hidx, hstart, hstop⟩ := h.idx
  refine ⟨⟨UInt32.ofNat range.start, UInt32.ofNat range.stop, ⟨hash.value, h.value⟩⟩, h.alg,
    ?_, rfl⟩
  rw [hidx, RangeCommitment.span, UInt32.toNat_ofNat_of_lt' hstart,
    UInt32.toNat_ofNat_of_lt' hstop]

namespace DirectionBlock

theorem arrayOf_eq_ok {value : Bytes} {array : ByteArrayOf 32} :
    arrayOf value = .ok array ↔ value = array.val := by
  rw [arrayOf]
  split
  case isTrue h =>
    rw [Except.ok.injEq]
    exact ⟨fun e => e ▸ rfl, fun e => Subtype.ext e⟩
  case isFalse h =>
    constructor
    · simp
    · rintro rfl
      exact absurd array.property h

theorem rangeCommitment_own {hash : PlaintextHash} {out : Option RangeCommitment} :
    rangeCommitment hash.direction (.hash hash) = .ok out ↔
      ∃ entry, Records hash entry ∧ out = some entry := by
  simp only [rangeCommitment, ne_eq, not_true_eq_false, if_false]
  split
  case isTrue halg =>
    constructor
    · simp
    · rintro ⟨entry, h, -⟩
      exact absurd h.alg halg
  case isFalse halg =>
    rw [not_not] at halg
    split
    case h_1 range hidx =>
      simp only [bind_eq_ok, arrayOf_eq_ok, u32Of_eq_ok, pure, Except.pure, Except.ok.injEq]
      constructor
      · rintro ⟨value, hvalue, start, hstart, stop, hstop, rfl⟩
        exact ⟨_, ⟨halg, by rw [hidx, RangeCommitment.span, hstart, hstop], hvalue⟩, rfl⟩
      · rintro ⟨entry, h, rfl⟩
        obtain rfl : range = entry.span := by simpa [hidx] using h.idx
        exact ⟨_, h.value, _, rfl, _, rfl, rfl⟩
    case h_2 hidx =>
      constructor
      · simp
      · rintro ⟨entry, h, -⟩
        exact absurd h.idx (hidx _)

theorem rangeCommitment_eq_ok {direction : Direction} {c : TranscriptCommitment}
    {out : Option RangeCommitment} :
    rangeCommitment direction c = .ok out ↔ Option.Rel Records (c.hashed direction) out := by
  cases c with
  | other =>
    rw [rangeCommitment, TranscriptCommitment.hashed, Except.ok.injEq]
    constructor
    · rintro rfl
      exact .none
    · rintro ⟨⟩
      rfl
  | hash h =>
    by_cases hd : h.direction = direction
    · subst hd
      rw [rangeCommitment_own, TranscriptCommitment.hashed, if_pos rfl]
      constructor
      · rintro ⟨entry, h, rfl⟩
        exact .some h
      · rintro ⟨h⟩
        exact ⟨_, h, rfl⟩
    · rw [rangeCommitment, if_pos hd, TranscriptCommitment.hashed, if_neg hd, Except.ok.injEq]
      constructor
      · rintro rfl
        exact .none
      · rintro ⟨⟩
        rfl

theorem rangeCommitments_eq_ok {direction : Direction} {cs : List TranscriptCommitment}
    {out : List RangeCommitment} :
    rangeCommitments direction cs = .ok out ↔
      List.Forall₂ Records (cs.filterMap (·.hashed direction)) out := by
  induction cs generalizing out with
  | nil => simp [rangeCommitments, eq_comm]
  | cons c cs ih =>
    simp only [rangeCommitments, bind_eq_ok, rangeCommitment_eq_ok, ih, pure, Except.pure,
      Except.ok.injEq]
    cases hc : c.hashed direction with
    | none =>
      rw [List.filterMap_cons_none hc]
      constructor
      · rintro ⟨_, ⟨⟩, rest, hrest, rfl⟩
        exact hrest
      · exact fun hout => ⟨_, .none, out, hout, rfl⟩
    | some hash =>
      rw [List.filterMap_cons_some hc, List.forall₂_cons_left_iff]
      constructor
      · rintro ⟨_, ⟨hentry⟩, rest, hrest, rfl⟩
        exact ⟨_, rest, hentry, hrest, rfl⟩
      · rintro ⟨entry, rest, hentry, hrest, rfl⟩
        exact ⟨_, .some hentry, rest, hrest, rfl⟩

end DirectionBlock

theorem mem_hashed {direction : Direction} {hash : PlaintextHash}
    {cs : List TranscriptCommitment} :
    hash ∈ cs.filterMap (·.hashed direction) ↔ .hash hash ∈ cs ∧ hash.direction = direction := by
  rw [List.mem_filterMap]
  constructor
  · rintro ⟨c, hc, h⟩
    cases c with
    | other => simp [TranscriptCommitment.hashed] at h
    | hash g =>
      obtain ⟨hd, rfl⟩ : g.direction = direction ∧ g = hash := by
        simpa [TranscriptCommitment.hashed] using h
      exact ⟨hc, hd⟩
  · rintro ⟨hc, hd⟩
    exact ⟨.hash hash, hc, if_pos hd⟩

theorem exists_of_mem_records {hashes : List PlaintextHash} {out : List RangeCommitment}
    (h : List.Forall₂ Records hashes out) {c : RangeCommitment} (hc : c ∈ out) :
    ∃ hash ∈ hashes, Records hash c := by
  induction h with
  | nil => exact nomatch hc
  | @cons hash _ _ _ hrecords _ ih =>
    rcases List.mem_cons.mp hc with rfl | hc
    · exact ⟨hash, List.mem_cons_self, hrecords⟩
    · obtain ⟨hash, hmem, hrecords⟩ := ih hc
      exact ⟨hash, List.mem_cons_of_mem _ hmem, hrecords⟩

theorem exists_forall₂_records {hashes : List PlaintextHash}
    (h : ∀ hash ∈ hashes, hash.Describable) : ∃ out, List.Forall₂ Records hashes out := by
  induction hashes with
  | nil => exact ⟨[], .nil⟩
  | cons hash hashes ih =>
    obtain ⟨entry, hentry⟩ := (h hash (by simp)).exists_records
    obtain ⟨out, hout⟩ := ih fun g hg => h g (by simp [hg])
    exact ⟨entry :: out, .cons hentry hout⟩

theorem describable_of_forall₂ {hashes : List PlaintextHash} {out : List RangeCommitment}
    (h : List.Forall₂ Records hashes out) : ∀ hash ∈ hashes, hash.Describable := by
  induction h with
  | nil => simp
  | cons hentry _ ih =>
    intro hash hmem
    rcases List.mem_cons.mp hmem with rfl | hmem
    · exact hentry.describable
    · exact ih hash hmem

theorem map_records {hashes : List PlaintextHash} {out : List RangeCommitment}
    (h : List.Forall₂ Records hashes out) :
    (out.map fun e => ([e.span], e.commitment.val)) =
      hashes.map fun hash => (hash.idx.ranges, hash.value) := by
  induction h with
  | nil => rfl
  | cons hentry _ ih => rw [List.map_cons, List.map_cons, ih, hentry.idx, hentry.value]

structure ObservedSession.Describable (session : ObservedSession) : Prop where
  len : ∀ direction, session.transcript.len direction < 2 ^ 32
  authed : ∀ direction, ∀ r ∈ (session.transcript.authed direction).ranges, r.stop < 2 ^ 32
  commitments : ∀ hash, .hash hash ∈ session.commitments → hash.Describable

variable {session : ObservedSession}

def blockOf (session : ObservedSession) (direction : Direction) (out : List RangeCommitment) :
    DirectionBlock where
  revealed := vecOf ((session.transcript.authed direction).ranges.map
    (DirectionBlock.revealedOf (session.transcript.data direction)))
  commitments := vecOf (DirectionBlock.sortByStart out)

namespace DirectionBlock

theorem stop_lt_of_revealedRanges {data : Bytes} {ranges : List Range}
    {out : List RevealedRange} (h : revealedRanges data ranges = .ok out) :
    ∀ r ∈ ranges, r.stop < 2 ^ 32 := by
  induction ranges generalizing out with
  | nil => simp
  | cons range ranges ih =>
    simp only [revealedRanges, revealedRange, bind_eq_ok, u32Of_eq_ok] at h
    obtain ⟨_, ⟨stop, hstop, _⟩, rest, hrest, _⟩ := h
    intro r hr
    rcases List.mem_cons.mp hr with rfl | hr
    · exact hstop ▸ stop.toNat_lt
    · exact ih hrest r hr

theorem fromObserved_eq_ok {direction : Direction} {block : DirectionBlock} :
    fromObserved session direction = .ok block ↔
      (∀ r ∈ (session.transcript.authed direction).ranges, r.stop < 2 ^ 32) ∧
      ∃ out, List.Forall₂ Records (session.commitments.filterMap (·.hashed direction)) out ∧
        block = blockOf session direction out := by
  simp only [fromObserved_eq, bind_eq_ok, rangeCommitments_eq_ok, pure, Except.pure,
    Except.ok.injEq]
  have hok : (∀ r ∈ (session.transcript.authed direction).ranges, r.stop < 2 ^ 32) →
      revealedRanges (session.transcript.data direction)
        (session.transcript.authed direction).ranges = .ok _ := fun hstop =>
    revealedRanges_eq_ok _ fun r hr =>
      ⟨(session.transcript.authed direction).nonempty r hr, hstop r hr⟩
  constructor
  · rintro ⟨revealed, hrevealed, out, hout, rfl⟩
    have hstop := stop_lt_of_revealedRanges hrevealed
    obtain rfl := Except.ok.inj ((hok hstop).symm.trans hrevealed)
    exact ⟨hstop, out, hout, rfl⟩
  · rintro ⟨hstop, out, hout, rfl⟩
    exact ⟨_, hok hstop, out, hout, rfl⟩

end DirectionBlock

theorem AttestedData.fromObserved_eq_ok {keccak256 : Bytes → ByteArrayOf 32}
    {record : AttestedData} :
    fromObserved keccak256 session = .ok record ↔
      (∀ direction, (record.transcriptLength direction).toNat = session.transcript.len direction ∧
        DirectionBlock.fromObserved session direction = .ok (record.block direction)) ∧
      record.createdAt = session.createdAt ∧
      record.authorityId = AttestedData.authorityIdOf keccak256 session.authority := by
  simp only [fromObserved, bind_eq_ok, u32Of_eq_ok, pure, Except.pure, Except.ok.injEq]
  constructor
  · rintro ⟨sentLen, hsl, recvLen, hrl, sent, hs, received, hr, rfl⟩
    refine ⟨fun direction => ?_, rfl, rfl⟩
    cases direction with
    | sent => exact ⟨hsl, hs⟩
    | received => exact ⟨hrl, hr⟩
  · rintro ⟨h, hc, ha⟩
    refine ⟨_, (h .sent).1, _, (h .received).1, _, (h .sent).2, _, (h .received).2, ?_⟩
    rw [← hc, ← ha]
    rfl

theorem AttestedData.exists_fromObserved_eq_ok (keccak256 : Bytes → ByteArrayOf 32)
    (session : ObservedSession) :
    (∃ record, fromObserved keccak256 session = .ok record) ↔ session.Describable := by
  constructor
  · rintro ⟨record, h⟩
    obtain ⟨h, -, -⟩ := fromObserved_eq_ok.mp h
    have hblock := fun direction => DirectionBlock.fromObserved_eq_ok.mp (h direction).2
    refine ⟨fun direction => ?_, fun direction => (hblock direction).1, fun hash hmem => ?_⟩
    · exact (h direction).1 ▸ (record.transcriptLength direction).toNat_lt
    · obtain ⟨out, hout, -⟩ := (hblock hash.direction).2
      exact describable_of_forall₂ hout hash (mem_hashed.mpr ⟨hmem, rfl⟩)
  · intro h
    have hout : ∀ direction, ∃ out, List.Forall₂ Records
        (session.commitments.filterMap (·.hashed direction)) out := fun direction =>
      exists_forall₂_records fun hash hmem => h.commitments hash (mem_hashed.mp hmem).1
    choose out hout using hout
    refine ⟨⟨AttestedData.authorityIdOf keccak256 session.authority, session.createdAt,
      UInt32.ofNat session.transcript.lenSent, UInt32.ofNat session.transcript.lenReceived,
      blockOf session .sent (out .sent), blockOf session .received (out .received)⟩, ?_⟩
    refine fromObserved_eq_ok.mpr ⟨fun direction => ?_, rfl, rfl⟩
    have hblock := DirectionBlock.fromObserved_eq_ok.mpr
      ⟨h.authed direction, _, hout direction, rfl⟩
    cases direction with
    | sent => exact ⟨UInt32.toNat_ofNat_of_lt' (h.len .sent), hblock⟩
    | received => exact ⟨UInt32.toNat_ofNat_of_lt' (h.len .received), hblock⟩

/-- What the library promises of a session: its opened ranges are within the transcript. -/
def ObservedSession.Inside (session : ObservedSession) : Prop :=
  ∀ direction, ∀ r ∈ (session.transcript.authed direction).ranges,
    r.stop ≤ session.transcript.len direction

theorem ObservedSession.Inside.fits (hin : session.Inside) {direction : Direction}
    (hlen : session.transcript.len direction < 2 ^ 32) :
    ∀ r ∈ (session.transcript.authed direction).ranges, Fits r := fun r hr =>
  .of_le ((session.transcript.authed direction).nonempty r hr) (hin direction r hr) hlen

/-- `block` lists what the session opened and hashed in one direction, and nothing else. -/
structure Reports (session : ObservedSession) (direction : Direction) (block : DirectionBlock) :
    Prop where
  revealed : (block.revealed.val.map fun r => (r.span, r.bytes.val)) =
    (session.transcript.authed direction).ranges.map fun r =>
      (r, slice (session.transcript.data direction) r)
  ascending : Ascending block.revealedSpans
  fits : ∀ r ∈ block.revealed.val, r.start.toNat + r.bytes.val.length < 2 ^ 32
  commitments : (block.commitments.val.map fun c => ([c.span], c.commitment.val)).Perm
    ((session.commitments.filterMap (·.hashed direction)).map fun hash =>
      (hash.idx.ranges, hash.value))
  sorted : block.commitments.val.Pairwise fun a b => a.start ≤ b.start

theorem ObservedSession.Inside.revealed_val (hin : session.Inside) {direction : Direction}
    (hlen : session.transcript.len direction < 2 ^ 32) (out : List RangeCommitment) :
    (blockOf session direction out).revealed.val =
      (session.transcript.authed direction).ranges.map
        (DirectionBlock.revealedOf (session.transcript.data direction)) := by
  have hle := (session.transcript.authed direction).ascending.length_le (a := 0) (by simp)
    (hin direction)
  exact vecOf_val (by rw [List.length_map]; omega)

theorem length_le_of_forall₂ {direction : Direction} {out : List RangeCommitment}
    (h : List.Forall₂ Records (session.commitments.filterMap (·.hashed direction)) out) :
    out.length ≤ session.commitments.length :=
  h.length_eq ▸ List.length_filterMap_le ..

theorem commitments_val {direction : Direction} {out : List RangeCommitment}
    (hlen : session.commitments.length < 256 ^ 8)
    (h : List.Forall₂ Records (session.commitments.filterMap (·.hashed direction)) out) :
    (blockOf session direction out).commitments.val = DirectionBlock.sortByStart out := by
  have hle := length_le_of_forall₂ h
  have hsort := (DirectionBlock.sortByStart_perm out).length_eq
  exact vecOf_val (by omega)

theorem reports_blockOf (hin : session.Inside) {direction : Direction}
    (hlen : session.transcript.len direction < 2 ^ 32)
    (hcount : session.commitments.length < 256 ^ 8) {out : List RangeCommitment}
    (hout : List.Forall₂ Records (session.commitments.filterMap (·.hashed direction)) out) :
    Reports session direction (blockOf session direction out) := by
  have hfit := hin.fits hlen
  have hdata := session.transcript.inside direction
  have hspan : ∀ r ∈ (session.transcript.authed direction).ranges,
      (DirectionBlock.revealedOf (session.transcript.data direction) r).span = r :=
    fun r hr => DirectionBlock.revealedOf_span (hfit r hr) (hdata r hr)
  constructor
  · rw [hin.revealed_val hlen, List.map_map]
    exact List.map_congr_left fun r hr =>
      Prod.ext (hspan r hr) (DirectionBlock.revealedOf_bytes (hfit r hr) (hdata r hr))
  · rw [DirectionBlock.revealedSpans, hin.revealed_val hlen,
      DirectionBlock.map_span_revealedOf hfit hdata]
    exact (session.transcript.authed direction).ascending
  · intro entry hentry
    rw [hin.revealed_val hlen] at hentry
    obtain ⟨r, hr, rfl⟩ := List.mem_map.mp hentry
    have hstop := congrArg Range.stop (hspan r hr)
    exact hstop.trans_lt (hfit r hr).stop
  · rw [commitments_val hcount hout, ← map_records hout]
    exact (DirectionBlock.sortByStart_perm out).map _
  · rw [commitments_val hcount hout]
    exact List.pairwise_insertionSort _ out

theorem PlaintextHash.not_describable {hash : PlaintextHash} :
    ¬ hash.Describable ↔ hash.alg ≠ .sha256 ∨ hash.idx.ranges.length ≠ 1 ∨
      hash.value.length ≠ 32 ∨ ∃ r ∈ hash.idx.ranges, 2 ^ 32 ≤ r.start ∨ 2 ^ 32 ≤ r.stop := by
  constructor
  · intro h
    by_contra hnone
    push Not at hnone
    obtain ⟨halg, hone, hvalue, hfit⟩ := hnone
    obtain ⟨range, hidx⟩ := List.length_eq_one_iff.mp hone
    exact h ⟨halg, ⟨range, hidx, hfit range (by simp [hidx])⟩, hvalue⟩
  · rintro hfail ⟨halg, ⟨range, hidx, hstart, hstop⟩, hvalue⟩
    simp only [halg, hidx, hvalue, List.length_singleton, List.mem_singleton, exists_eq_left,
      ne_eq, not_true_eq_false, false_or] at hfail
    omega

theorem ObservedSession.Inside.not_describable (hin : session.Inside) :
    ¬ session.Describable ↔ (∃ direction, 2 ^ 32 ≤ session.transcript.len direction) ∨
      ∃ hash, .hash hash ∈ session.commitments ∧ ¬ hash.Describable := by
  constructor
  · intro h
    by_contra hnone
    push Not at hnone
    exact h ⟨hnone.1, fun direction r hr => (hin direction r hr).trans_lt (hnone.1 direction),
      hnone.2⟩
  · rintro (⟨direction, hlen⟩ | ⟨hash, hmem, hnot⟩) h
    · exact absurd (h.len direction) (by omega)
    · exact hnot (h.commitments hash hmem)

theorem exists_error_iff {ε α : Type} {x : Except ε α} :
    (∃ e, x = .error e) ↔ ¬ ∃ a, x = .ok a := by
  cases x <;> simp

/-- A session has a record exactly when the format can describe it, and the record says
what the session opened and hashed. -/
theorem AttestedData.fromObserved_faithful (keccak256 : Bytes → ByteArrayOf 32)
    (session : ObservedSession) (hin : session.Inside)
    (hcount : session.commitments.length < 256 ^ 8) :
    ((∃ e, fromObserved keccak256 session = .error e) ↔
      (∃ direction, 2 ^ 32 ≤ session.transcript.len direction) ∨
      ∃ hash, .hash hash ∈ session.commitments ∧
        (hash.alg ≠ .sha256 ∨ hash.idx.ranges.length ≠ 1 ∨ hash.value.length ≠ 32 ∨
          ∃ r ∈ hash.idx.ranges, 2 ^ 32 ≤ r.start ∨ 2 ^ 32 ≤ r.stop)) ∧
    ∀ record, fromObserved keccak256 session = .ok record →
      (∀ direction, Reports session direction (record.block direction) ∧
        (record.transcriptLength direction).toNat = session.transcript.len direction) ∧
      record.createdAt = session.createdAt ∧
      record.authorityId = keccak256 (session.authority.map toAsciiLowercase) := by
  constructor
  · rw [exists_error_iff, exists_fromObserved_eq_ok, hin.not_describable]
    simp only [PlaintextHash.not_describable]
  · intro record h
    have hlen := ((exists_fromObserved_eq_ok keccak256 session).mp ⟨record, h⟩).len
    obtain ⟨hdirections, hcreated, hauthority⟩ := fromObserved_eq_ok.mp h
    refine ⟨fun direction => ⟨?_, (hdirections direction).1⟩, hcreated, hauthority⟩
    obtain ⟨-, out, hout, hblock⟩ :=
      DirectionBlock.fromObserved_eq_ok.mp (hdirections direction).2
    rw [hblock]
    exact reports_blockOf hin (hlen direction) hcount hout

theorem AttestedData.fromObserved_faithful_run :
    ∃ session : ObservedSession, ∃ record,
      fromObserved (fun _ => ⟨List.replicate 32 0, by decide⟩) session = .ok record ∧
      session.commitments.length = 4 ∧ record.sent.commitments.val.length = 2 ∧
      ∀ direction, Reports session direction (record.block direction) := by
  refine ⟨{
      transcript := {
        lenSent := 3
        lenReceived := 2
        sentAuthed := .single ⟨0, 1⟩ (by decide)
        receivedAuthed := .single ⟨1, 2⟩ (by decide)
        sentUnsafe := [1, 0, 0]
        receivedUnsafe := [0, 5]
        sent_inside := by decide
        received_inside := by decide }
      authority := ascii "A.B"
      commitments := [
        .hash ⟨.sent, idxOf ⟨2, 3⟩, .sha256, List.replicate 32 7⟩, .other,
        .hash ⟨.received, idxOf ⟨0, 1⟩, .sha256, List.replicate 32 8⟩,
        .hash ⟨.sent, idxOf ⟨1, 2⟩, .sha256, List.replicate 32 9⟩]
      createdAt := 6 }, _, rfl, rfl, rfl, fun direction => ?_⟩
  refine (((AttestedData.fromObserved_faithful _ _ ?_ ?_).2 _ rfl).1 direction).1
  · rintro (_ | _) <;> decide
  · decide

end Tlsn

end Libid
