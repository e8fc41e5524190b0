import Libid.Tlsn.Attest
import Libid.Transcript.Ceremony

/-! The record of a session that opened what two layouts reveal and hashed what they
commit: its entries tile each transcript. -/

namespace Libid

namespace Ceremony

/-- The end is the bytes' own length. -/
def RevealedRange.span (r : RevealedRange) : Range :=
  ⟨r.start.toNat, r.start.toNat + r.bytes.val.length⟩

def RangeCommitment.span (c : RangeCommitment) : Range := ⟨c.start.toNat, c.stop.toNat⟩

def DirectionBlock.revealedSpans (b : DirectionBlock) : List Range :=
  b.revealed.val.map RevealedRange.span

def DirectionBlock.commitmentSpans (b : DirectionBlock) : List Range :=
  b.commitments.val.map RangeCommitment.span

end Ceremony

namespace Tlsn

open Ceremony Transcript

theorem u32Of_of_lt {value : Nat} (h : value < 2 ^ 32) :
    u32Of value = .ok (UInt32.ofNat value) := if_pos h

theorem vecOf_val {α : Type} {as : List α} (h : as.length < 256 ^ 8) : (vecOf as).val = as :=
  List.take_of_length_le (by omega)

structure Fits (r : Range) : Prop where
  nonempty : r.start < r.stop
  stop : r.stop < 2 ^ 32

theorem Fits.start {r : Range} (h : Fits r) : r.start < 2 ^ 32 := h.nonempty.trans h.stop

theorem Fits.of_le {r : Range} {len : Nat} (hne : r.start < r.stop) (hin : r.stop ≤ len)
    (hlen : len < 2 ^ 32) : Fits r := ⟨hne, hin.trans_lt hlen⟩

theorem Fits.of_tiles {rs : List Range} {len : Nat} (h : Tiles len rs) (hlen : len < 2 ^ 32)
    {r : Range} (hr : r ∈ rs) : Fits r := .of_le (h.nonempty r hr) (h.inside r hr) hlen

namespace PartialTranscript

variable (t : PartialTranscript)

def len : Direction → Nat
  | .sent => t.lenSent
  | .received => t.lenReceived

def authed : Direction → RangeSet
  | .sent => t.sentAuthed
  | .received => t.receivedAuthed

def data : Direction → Bytes
  | .sent => t.sentUnsafe
  | .received => t.receivedUnsafe

/-- What `to_partial` leaves of one direction: its length, and the bytes of `reveal`. -/
structure Opens (direction : Direction) (bytes : Bytes) (reveal : List Range) : Prop where
  len : t.len direction = bytes.length
  authed : (t.authed direction).IsUnion reveal
  data : ∀ i, Covers (t.authed direction).ranges i → (t.data direction)[i]? = bytes[i]?

variable {t}

theorem inside (t : PartialTranscript) (direction : Direction) :
    ∀ r ∈ (t.authed direction).ranges, r.stop ≤ (t.data direction).length := by
  cases direction with
  | sent => exact t.sent_inside
  | received => exact t.received_inside

theorem Opens.slice_eq {direction : Direction} {bytes : Bytes} {reveal : List Range}
    (h : t.Opens direction bytes reveal) {r : Range} (hr : r ∈ (t.authed direction).ranges) :
    slice (t.data direction) r = slice bytes r :=
  slice_congr fun i hi hlt => h.data i ⟨r, hr, hi, hlt⟩

end PartialTranscript

namespace DirectionBlock

def revealedOf (data : Bytes) (range : Range) : RevealedRange :=
  ⟨UInt32.ofNat range.start, vecOf (slice data range)⟩

theorem revealedRanges_eq_ok (data : Bytes) {ranges : List Range}
    (hfit : ∀ r ∈ ranges, Fits r) :
    revealedRanges data ranges = .ok (ranges.map (revealedOf data)) := by
  induction ranges with
  | nil => rfl
  | cons range ranges ih =>
    have hrange := hfit range (by simp)
    rw [revealedRanges, ih fun r hr => hfit r (by simp [hr]), revealedRange,
      u32Of_of_lt hrange.stop, u32Of_of_lt hrange.start]
    rfl

theorem revealedOf_bytes {data : Bytes} {range : Range} (hfit : Fits range)
    (hin : range.stop ≤ data.length) : (revealedOf data range).bytes.val = slice data range := by
  have hlen := length_slice data range hin
  have hstop := hfit.stop
  exact vecOf_val (by omega)

theorem revealedOf_span {data : Bytes} {range : Range} (hfit : Fits range)
    (hin : range.stop ≤ data.length) : (revealedOf data range).span = range := by
  have hstart : (revealedOf data range).start.toNat = range.start :=
    UInt32.toNat_ofNat_of_lt' hfit.start
  rw [RevealedRange.span, hstart, revealedOf_bytes hfit hin, length_slice data range hin,
    Nat.add_sub_cancel' hfit.nonempty.le]

theorem map_span_revealedOf {data : Bytes} {ranges : List Range} (hfit : ∀ r ∈ ranges, Fits r)
    (hin : ∀ r ∈ ranges, r.stop ≤ data.length) :
    (ranges.map (revealedOf data)).map RevealedRange.span = ranges := by
  rw [List.map_map]
  exact (List.map_congr_left fun r hr => revealedOf_span (hfit r hr) (hin r hr)).trans
    (List.map_id _)

theorem rangeCommitments_perm {direction : Direction} {cs ds : List TranscriptCommitment}
    (h : cs.Perm ds) {out : List RangeCommitment} (hd : rangeCommitments direction ds = .ok out) :
    ∃ out', rangeCommitments direction cs = .ok out' ∧ out'.Perm out := by
  induction h generalizing out with
  | nil => exact ⟨out, hd, .refl _⟩
  | cons c _ ih =>
    simp only [rangeCommitments, bind_eq_ok] at hd ⊢
    obtain ⟨first, hc, rest, hrest, hout⟩ := hd
    obtain ⟨rest', hrest', hperm⟩ := ih hrest
    obtain rfl : first.toList ++ rest = out := by simpa [pure, Except.pure] using hout
    exact ⟨_, ⟨first, hc, rest', hrest', rfl⟩, hperm.append_left _⟩
  | swap c d cs =>
    simp only [rangeCommitments, bind_eq_ok] at hd ⊢
    obtain ⟨x, hx, _, ⟨y, hy, rest, hrest, hyrest⟩, hout⟩ := hd
    cases hyrest
    obtain rfl : x.toList ++ (y.toList ++ rest) = out := by simpa [pure, Except.pure] using hout
    refine ⟨_, ⟨y, hy, _, ⟨x, hx, rest, hrest, rfl⟩, rfl⟩, ?_⟩
    rw [← List.append_assoc, ← List.append_assoc]
    exact List.perm_append_comm.append_right rest
  | trans _ _ ih₁ ih₂ =>
    obtain ⟨mid, hmid, hp⟩ := ih₂ hd
    obtain ⟨out', hout', hp'⟩ := ih₁ hmid
    exact ⟨out', hout', hp'.trans hp⟩

theorem rangeCommitments_append {direction : Direction} {cs ds : List TranscriptCommitment}
    {x y : List RangeCommitment} (hc : rangeCommitments direction cs = .ok x)
    (hd : rangeCommitments direction ds = .ok y) :
    rangeCommitments direction (cs ++ ds) = .ok (x ++ y) := by
  induction cs generalizing x with
  | nil =>
    obtain rfl : [] = x := by simpa [rangeCommitments] using hc
    exact hd
  | cons c cs ih =>
    simp only [List.cons_append, rangeCommitments, bind_eq_ok] at hc ⊢
    obtain ⟨first, hfirst, rest, hrest, hx⟩ := hc
    obtain rfl : first.toList ++ rest = x := by simpa [pure, Except.pure] using hx
    exact ⟨first, hfirst, rest ++ y, ih hrest, by rw [List.append_assoc]; rfl⟩

end DirectionBlock

def commitmentOf (idx : Range → RangeSet) (digest : Direction → Range → ByteArrayOf 32)
    (direction : Direction) (range : Range) : TranscriptCommitment :=
  .hash ⟨direction, idx range, .sha256, (digest direction range).val⟩

def signedOf (digest : Range → ByteArrayOf 32) (range : Range) : RangeCommitment :=
  ⟨UInt32.ofNat range.start, UInt32.ofNat range.stop, digest range⟩

namespace DirectionBlock

variable (idx : Range → RangeSet) (digest : Direction → Range → ByteArrayOf 32)

theorem rangeCommitments_other {direction other : Direction} (h : other ≠ direction)
    (ranges : List Range) :
    rangeCommitments direction (ranges.map (commitmentOf idx digest other)) = .ok [] := by
  induction ranges with
  | nil => rfl
  | cons range ranges ih =>
    rw [List.map_cons, rangeCommitments, ih, commitmentOf, rangeCommitment, if_pos h]
    rfl

theorem rangeCommitments_own (hidx : ∀ r, r.start < r.stop → (idx r).IsUnion [r])
    (direction : Direction) {ranges : List Range} (hfit : ∀ r ∈ ranges, Fits r) :
    rangeCommitments direction (ranges.map (commitmentOf idx digest direction)) =
      .ok (ranges.map (signedOf (digest direction))) := by
  induction ranges with
  | nil => rfl
  | cons range ranges ih =>
    have hrange := hfit range (by simp)
    have hone : (idx range).ranges = [range] :=
      (hidx range hrange.nonempty).ranges_eq_singleton hrange.nonempty
    have hturn : rangeCommitment direction (commitmentOf idx digest direction range) =
        .ok (some (signedOf (digest direction) range)) := by
      simp only [commitmentOf, rangeCommitment, ne_eq, not_true_eq_false, if_false, hone, arrayOf,
        (digest direction range).property, u32Of_of_lt hrange.stop, u32Of_of_lt hrange.start]
      rfl
    rw [List.map_cons, rangeCommitments, hturn, ih fun r hr => hfit r (by simp [hr])]
    rfl

theorem signedOf_span {digest : Range → ByteArrayOf 32} {range : Range} (hfit : Fits range) :
    (signedOf digest range).span = range := by
  have hstart : (signedOf digest range).start.toNat = range.start :=
    UInt32.toNat_ofNat_of_lt' hfit.start
  have hstop : (signedOf digest range).stop.toNat = range.stop :=
    UInt32.toNat_ofNat_of_lt' hfit.stop
  rw [RangeCommitment.span, hstart, hstop]

theorem map_span_signedOf {digest : Range → ByteArrayOf 32} {ranges : List Range}
    (hfit : ∀ r ∈ ranges, Fits r) :
    (ranges.map (signedOf digest)).map (fun c => (c.span, c.commitment)) =
      ranges.map fun r => (r, digest r) := by
  rw [List.map_map]
  exact List.map_congr_left fun r hr => Prod.ext (signedOf_span (hfit r hr)) rfl

theorem sortByStart_perm (cs : List RangeCommitment) : (sortByStart cs).Perm cs :=
  List.perm_insertionSort ..

theorem sortByStart_span (cs : List RangeCommitment) :
    (sortByStart cs).map RangeCommitment.span =
      Layout.sortByStart (cs.map RangeCommitment.span) :=
  List.map_insertionSort _ _ _ cs fun _ _ _ _ => by
    simp only [RangeCommitment.span, UInt32.le_iff_toNat_le]

theorem ascending_sortByStart {cs : List RangeCommitment} {ranges : List Range}
    (hp : (cs.map RangeCommitment.span).Perm ranges) (hne : ∀ r ∈ ranges, r.start < r.stop)
    (hdis : ranges.Pairwise Range.Disjoint) :
    Ascending ((sortByStart cs).map RangeCommitment.span) := by
  rw [sortByStart_span]
  exact Layout.ascending_sortByStart (fun r hr => hne r (hp.mem_iff.mp hr))
    (hp.symm.pairwise hdis Range.Disjoint.symm)

end DirectionBlock

/-- Each direction opens what its layout reveals, and the commitments of both come in
any order. -/
structure ObservedSession.Follows (session : ObservedSession) (bytes : Direction → Bytes)
    (layout : Direction → Layout) (idx : Range → RangeSet)
    (digest : Direction → Range → ByteArrayOf 32) : Prop where
  opens : ∀ direction,
    session.transcript.Opens direction (bytes direction) (layout direction).reveal
  commitments : session.commitments.Perm
    ((layout .sent).commit.map (commitmentOf idx digest .sent) ++
      (layout .received).commit.map (commitmentOf idx digest .received))

structure Signs (block : DirectionBlock) (len : UInt32) (bytes : Bytes) (layout : Layout)
    (digest : Range → ByteArrayOf 32) : Prop where
  length : len.toNat = bytes.length
  tiles : Tiles len.toNat (block.revealedSpans ++ block.commitmentSpans)
  revealed_ascending : Ascending block.revealedSpans
  commitments_ascending : Ascending block.commitmentSpans
  revealed : ∀ r ∈ block.revealed.val, r.bytes.val = slice bytes r.span
  commitments : (block.commitments.val.map fun c => (c.span, c.commitment)).Perm
    (layout.commit.map fun r => (r, digest r))

section Follows

variable {session : ObservedSession} {bytes : Direction → Bytes} {layout : Direction → Layout}
  {idx : Range → RangeSet} {digest : Direction → Range → ByteArrayOf 32}

theorem ObservedSession.Follows.rangeCommitments (hs : session.Follows bytes layout idx digest)
    (hidx : ∀ r, r.start < r.stop → (idx r).IsUnion [r])
    (hfit : ∀ direction, ∀ r ∈ (layout direction).commit, Fits r) (direction : Direction) :
    ∃ out, DirectionBlock.rangeCommitments direction session.commitments = .ok out ∧
      out.Perm ((layout direction).commit.map (signedOf (digest direction))) := by
  apply DirectionBlock.rangeCommitments_perm hs.commitments
  have hown := DirectionBlock.rangeCommitments_own idx digest hidx direction (hfit direction)
  cases direction with
  | sent =>
    have hother := DirectionBlock.rangeCommitments_other idx digest
      (show Direction.received ≠ .sent by decide) (layout .received).commit
    simpa using DirectionBlock.rangeCommitments_append hown hother
  | received =>
    exact DirectionBlock.rangeCommitments_append
      (DirectionBlock.rangeCommitments_other idx digest (by decide) _) hown

theorem DirectionBlock.fromObserved_eq (session : ObservedSession) (direction : Direction) :
    fromObserved session direction = do
      let revealed ← revealedRanges (session.transcript.data direction)
        (session.transcript.authed direction).ranges
      let commitments ← DirectionBlock.rangeCommitments direction session.commitments
      return { revealed := vecOf revealed, commitments := vecOf (sortByStart commitments) } := by
  cases direction <;> rfl

theorem signs_of_entries {data bytes : Bytes} {layout : Layout} {digest : Range → ByteArrayOf 32}
    {authed : RangeSet} {out : List RangeCommitment}
    (htile : Tiles bytes.length (layout.reveal ++ layout.commit)) (hlen : bytes.length < 2 ^ 32)
    (hauthed : authed.IsUnion layout.reveal) (hin : ∀ r ∈ authed.ranges, r.stop ≤ data.length)
    (hslice : ∀ r ∈ authed.ranges, slice data r = slice bytes r)
    (hout : out.Perm (layout.commit.map (signedOf digest))) :
    Signs ⟨vecOf (authed.ranges.map (DirectionBlock.revealedOf data)),
        vecOf (DirectionBlock.sortByStart out)⟩
      (UInt32.ofNat bytes.length) bytes layout digest := by
  have htoNat : (UInt32.ofNat bytes.length).toNat = bytes.length := UInt32.toNat_ofNat_of_lt' hlen
  have hstop : ∀ r ∈ authed.ranges, r.stop ≤ bytes.length :=
    hauthed.inside fun r hr => htile.inside r (by simp [hr])
  have hfit : ∀ r ∈ authed.ranges, Fits r := fun r hr =>
    .of_le (authed.nonempty r hr) (hstop r hr) hlen
  have hrspans := DirectionBlock.map_span_revealedOf hfit hin
  have hentries : (out.map fun c => (c.span, c.commitment)).Perm
      (layout.commit.map fun r => (r, digest r)) := by
    rw [← DirectionBlock.map_span_signedOf fun r hr => .of_tiles htile hlen (by simp [hr])]
    exact hout.map _
  have hcspans : (out.map RangeCommitment.span).Perm layout.commit := by
    simpa [List.map_map, Function.comp_def] using hentries.map Prod.fst
  have hsorted := DirectionBlock.ascending_sortByStart hcspans
    (fun r hr => htile.nonempty r (by simp [hr])) (List.pairwise_append.mp htile.disjoint).2.1
  have htiles := hauthed.tiles htile
    (((DirectionBlock.sortByStart_perm out).map _).trans hcspans) hsorted
  -- There are fewer entries than bytes, so both vectors hold all of theirs.
  have hrevealed : (vecOf (authed.ranges.map (DirectionBlock.revealedOf data))).val =
      authed.ranges.map (DirectionBlock.revealedOf data) := by
    have := authed.ascending.length_le (a := 0) (by simp) hstop
    exact vecOf_val (by rw [List.length_map]; omega)
  have hcommitments : (vecOf (DirectionBlock.sortByStart out)).val =
      DirectionBlock.sortByStart out := by
    have := hsorted.length_le (a := 0) (by simp) fun r hr => htiles.inside r (by simp [hr])
    rw [List.length_map] at this
    exact vecOf_val (by omega)
  constructor
  · exact htoNat
  · rwa [htoNat, DirectionBlock.revealedSpans, DirectionBlock.commitmentSpans, hrevealed,
      hcommitments, hrspans]
  · rw [DirectionBlock.revealedSpans, hrevealed, hrspans]
    exact authed.ascending
  · rwa [DirectionBlock.commitmentSpans, hcommitments]
  · intro entry hentry
    rw [hrevealed] at hentry
    obtain ⟨r, hr, rfl⟩ := List.mem_map.mp hentry
    rw [DirectionBlock.revealedOf_bytes (hfit r hr) (hin r hr),
      DirectionBlock.revealedOf_span (hfit r hr) (hin r hr), hslice r hr]
  · rw [hcommitments]
    exact ((DirectionBlock.sortByStart_perm out).map _).trans hentries

theorem ObservedSession.Follows.block (hs : session.Follows bytes layout idx digest)
    (hidx : ∀ r, r.start < r.stop → (idx r).IsUnion [r])
    (htile : ∀ direction, Tiles (bytes direction).length
      ((layout direction).reveal ++ (layout direction).commit))
    (hlen : ∀ direction, (bytes direction).length < 2 ^ 32) (direction : Direction) :
    ∃ block, DirectionBlock.fromObserved session direction = .ok block ∧
      Signs block (UInt32.ofNat (bytes direction).length) (bytes direction) (layout direction)
        (digest direction) := by
  have hopens := hs.opens direction
  obtain ⟨out, hok, hperm⟩ := hs.rangeCommitments hidx
    (fun d r hr => .of_tiles (htile d) (hlen d) (by simp [hr])) direction
  have hstop := hopens.authed.inside fun r hr => (htile direction).inside r (by simp [hr])
  have hrevealed := DirectionBlock.revealedRanges_eq_ok (session.transcript.data direction)
    fun r hr => .of_le ((session.transcript.authed direction).nonempty r hr) (hstop r hr)
      (hlen direction)
  refine ⟨_, ?_, signs_of_entries (htile direction) (hlen direction) hopens.authed
    (session.transcript.inside direction) (fun r => hopens.slice_eq) hperm⟩
  rw [DirectionBlock.fromObserved_eq, hrevealed, hok]
  rfl

end Follows

/-- A session that follows two layouts is accepted, and its record accounts for every
byte of both transcripts, whatever order its commitments came in. -/
theorem AttestedData.fromObserved_signs (keccak256 : Bytes → ByteArrayOf 32)
    (session : ObservedSession) (bytes : Direction → Bytes) (layout : Direction → Layout)
    (idx : Range → RangeSet) (digest : Direction → Range → ByteArrayOf 32)
    (hidx : ∀ r, r.start < r.stop → (idx r).IsUnion [r])
    (htile : ∀ direction, Tiles (bytes direction).length
      ((layout direction).reveal ++ (layout direction).commit))
    (hlen : ∀ direction, (bytes direction).length < 2 ^ 32)
    (hs : session.Follows bytes layout idx digest) :
    ∃ record, AttestedData.fromObserved keccak256 session = .ok record ∧
      Signs record.sent record.sentTranscriptLength (bytes .sent) (layout .sent)
        (digest .sent) ∧
      Signs record.received record.recvTranscriptLength (bytes .received) (layout .received)
        (digest .received) := by
  obtain ⟨sent, hsent, hsigns⟩ := hs.block hidx htile hlen .sent
  obtain ⟨received, hreceived, hrsigns⟩ := hs.block hidx htile hlen .received
  have hls : session.transcript.lenSent = (bytes .sent).length := (hs.opens .sent).len
  have hlr : session.transcript.lenReceived = (bytes .received).length :=
    (hs.opens .received).len
  refine ⟨⟨AttestedData.authorityIdOf keccak256 session.authority, session.createdAt,
    UInt32.ofNat (bytes .sent).length, UInt32.ofNat (bytes .received).length, sent, received⟩,
    ?_, hsigns, hrsigns⟩
  rw [AttestedData.fromObserved, hls, hlr, u32Of_of_lt (hlen .sent), u32Of_of_lt (hlen .received),
    hsent, hreceived]
  rfl

def idxOf (r : Range) : RangeSet :=
  if h : r.start < r.stop then .single r h
  else { ranges := [], nonempty := by simp, maximal := .nil }

theorem idxOf_isUnion {r : Range} (h : r.start < r.stop) : (idxOf r).IsUnion [r] := by
  rw [idxOf, dif_pos h]
  exact fun i => Iff.rfl

def PartialTranscript.unopened (sent received : Bytes) : PartialTranscript where
  lenSent := sent.length
  lenReceived := received.length
  sentAuthed := idxOf ⟨0, 0⟩
  receivedAuthed := idxOf ⟨0, 0⟩
  sentUnsafe := sent
  receivedUnsafe := received
  sent_inside := nofun
  received_inside := nofun

theorem AttestedData.fromObserved_signs_run :
    ∃ record, AttestedData.fromObserved (fun _ => ⟨List.replicate 32 0, by decide⟩)
        { transcript := {
            lenSent := 3
            lenReceived := 2
            sentAuthed := .single ⟨0, 2⟩ (by decide)
            receivedAuthed := .single ⟨1, 2⟩ (by decide)
            sentUnsafe := [1, 2, 0]
            receivedUnsafe := [0, 5]
            sent_inside := by decide
            received_inside := by decide }
          authority := []
          commitments := [
            .hash ⟨.received, idxOf ⟨0, 1⟩, .sha256, List.replicate 32 8⟩,
            .hash ⟨.sent, idxOf ⟨2, 3⟩, .sha256, List.replicate 32 7⟩]
          createdAt := 6 } = .ok record ∧
      Signs record.sent record.sentTranscriptLength [1, 2, 3] ⟨[⟨0, 1⟩, ⟨1, 2⟩], [⟨2, 3⟩]⟩
        (fun _ => ⟨List.replicate 32 7, by decide⟩) ∧
      Signs record.received record.recvTranscriptLength [4, 5] ⟨[⟨1, 2⟩], [⟨0, 1⟩]⟩
        (fun _ => ⟨List.replicate 32 8, by decide⟩) := by
  refine AttestedData.fromObserved_signs _ _
    (fun | .sent => [1, 2, 3] | .received => [4, 5])
    (fun | .sent => ⟨[⟨0, 1⟩, ⟨1, 2⟩], [⟨2, 3⟩]⟩ | .received => ⟨[⟨1, 2⟩], [⟨0, 1⟩]⟩) idxOf
    (fun
      | .sent => fun _ => ⟨List.replicate 32 7, by decide⟩
      | .received => fun _ => ⟨List.replicate 32 8, by decide⟩)
    (fun r => idxOf_isUnion) ?_ ?_ ⟨?_, ?_⟩
  · rintro (_ | _)
    · refine ⟨by decide, by decide, by simp [Range.Disjoint]; omega, fun i hi => ?_⟩
      simp only [List.length_cons, List.length_nil] at hi
      simp only [List.cons_append, List.nil_append, covers_cons, covers_nil, Range.mem_iff,
        or_false]
      omega
    · refine ⟨by decide, by decide, by simp [Range.Disjoint]; omega, fun i hi => ?_⟩
      simp only [List.length_cons, List.length_nil] at hi
      simp only [List.cons_append, List.nil_append, covers_cons, covers_nil, Range.mem_iff,
        or_false]
      omega
  · rintro (_ | _) <;> decide
  · rintro (_ | _)
    · refine ⟨rfl, fun i => ?_, fun i hi => ?_⟩
      · simp only [PartialTranscript.authed, RangeSet.single, covers_cons, covers_nil,
          Range.mem_iff, or_false]
        omega
      · simp only [PartialTranscript.authed, RangeSet.single, covers_cons, covers_nil,
          Range.mem_iff, or_false] at hi
        obtain rfl | rfl : i = 0 ∨ i = 1 := by omega
        · rfl
        · rfl
    · refine ⟨rfl, fun i => Iff.rfl, fun i hi => ?_⟩
      simp only [PartialTranscript.authed, RangeSet.single, covers_cons, covers_nil,
        Range.mem_iff, or_false] at hi
      obtain rfl : i = 1 := by omega
      rfl
  · exact List.Perm.swap ..

end Tlsn

end Libid
