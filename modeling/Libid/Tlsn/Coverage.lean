import Libid.Base.Runs
import Libid.Tlsn.Faithful

/-! The coverage check of a Platform Verifier, as the ceremony's own test makes it on a record:
what it accepts is what the session itself tiled. -/

namespace Libid.Tlsn

open Ceremony Transcript

/-! ### `ceremony_end_to_end.rs` -/

/-- `r.start + r.bytes.len() as u32`.  The sum that does not fit panics. -/
def endOf (r : RevealedRange) : Option UInt32 :=
  let stop := r.start.toNat + r.bytes.val.length % 2 ^ 32
  if stop < 2 ^ 32 then some (UInt32.ofNat stop) else none

def checkedSpans (block : DirectionBlock) : Option (List (UInt32 × UInt32)) := do
  let revealed ← block.revealed.val.mapM fun r => (endOf r).map fun stop => (r.start, stop)
  return revealed ++ block.commitments.val.map fun c => (c.start, c.stop)

/-- The loop of `assert_tiles`. -/
def tilesFrom : UInt32 → List (UInt32 × UInt32) → Option UInt32
  | pos, [] => some pos
  | pos, (start, stop) :: spans =>
    if start ≠ pos then none else if ¬ stop > start then none else tilesFrom stop spans

/-- No assertion of `assert_tiles` fails. -/
def assertTiles (block : DirectionBlock) (length : UInt32) : Bool :=
  match checkedSpans block with
  | none => false
  | some spans => tilesFrom 0 (spans.insertionSort fun a b => a.1 ≤ b.1) == some length

def joined (block : DirectionBlock) : Bytes :=
  (block.revealed.val.insertionSort fun a b => a.start ≤ b.start).flatMap (·.bytes.val)

/-! ### The check on any block -/

def spanOf (s : UInt32 × UInt32) : Range := ⟨s.1.toNat, s.2.toNat⟩

theorem tilesFrom_eq_walk (pos : UInt32) (spans : List (UInt32 × UInt32)) :
    (tilesFrom pos spans).map UInt32.toNat = walk pos.toNat (spans.map spanOf) := by
  induction spans generalizing pos with
  | nil => rfl
  | cons s spans ih =>
    obtain ⟨start, stop⟩ := s
    rw [tilesFrom, List.map_cons, walk]
    by_cases hstart : start = pos
    · subst hstart
      by_cases hstop : stop > start
      · rw [if_neg (by simp), if_neg (by simpa using hstop), ih, if_pos]
        · rfl
        · exact ⟨rfl, UInt32.lt_iff_toNat_lt.mp hstop⟩
      · rw [if_neg (by simp), if_pos hstop, if_neg]
        · rfl
        · exact fun h => hstop (UInt32.lt_iff_toNat_lt.mpr h.2)
    · rw [if_pos hstart, if_neg]
      · rfl
      · exact fun h => hstart (UInt32.toNat_inj.mp h.1)

theorem endOf_eq_some {r : RevealedRange} (hr : r.bytes.val.length < 2 ^ 32) {stop : UInt32} :
    endOf r = some stop ↔ r.start.toNat + r.bytes.val.length = stop.toNat := by
  rw [endOf, Nat.mod_eq_of_lt hr]
  split
  case isTrue hlt =>
    rw [Option.some.injEq]
    constructor
    · rintro rfl
      exact (UInt32.toNat_ofNat_of_lt' hlt).symm
    · intro h
      rw [h, UInt32.ofNat_toNat]
  case isFalse hge =>
    have := stop.toNat_lt
    simp only [reduceCtorEq, false_iff]
    omega

theorem revealedEnds_eq_some {rs : List RevealedRange}
    (hfit : ∀ r ∈ rs, r.bytes.val.length < 2 ^ 32) {spans : List (UInt32 × UInt32)} :
    (rs.mapM fun r => (endOf r).map fun stop => (r.start, stop)) = some spans ↔
      spans.map spanOf = rs.map RevealedRange.span := by
  induction rs generalizing spans with
  | nil =>
    rw [List.mapM_nil, List.map_nil, List.map_eq_nil_iff, Option.pure_def, Option.some.injEq,
      eq_comm]
  | cons r rs ih =>
    have hrs := fun spans => @ih (fun t ht => hfit t (List.mem_cons_of_mem _ ht)) spans
    have hr : ∀ {stop}, endOf r = some stop ↔ _ := @endOf_eq_some r (hfit r List.mem_cons_self)
    simp only [List.mapM_cons, Option.pure_def, Option.bind_eq_bind, Option.bind_eq_some_iff,
      Option.map_eq_some_iff, Option.some.injEq, hrs, hr, List.map_cons]
    constructor
    · rintro ⟨_, ⟨stop, hstop, rfl⟩, rest, hrest, rfl⟩
      rw [List.map_cons, hrest, spanOf, RevealedRange.span, hstop]
    · intro h
      obtain ⟨⟨start, stop⟩, rest, rfl, hs, hrest⟩ := List.map_eq_cons_iff.mp h
      obtain ⟨hstart, hstop⟩ := Range.mk.inj hs
      obtain rfl := UInt32.toNat_inj.mp hstart
      exact ⟨_, ⟨stop, hstop.symm, rfl⟩, rest, hrest, rfl⟩

theorem checkedSpans_eq_some {block : DirectionBlock}
    (hfit : ∀ r ∈ block.revealed.val, r.bytes.val.length < 2 ^ 32)
    {spans : List (UInt32 × UInt32)} (h : checkedSpans block = some spans) :
    spans.map spanOf = block.revealedSpans ++ block.commitmentSpans := by
  obtain ⟨revealed, hrevealed, hspans⟩ := Option.bind_eq_some_iff.mp h
  obtain rfl := Option.some.inj hspans
  rw [List.map_append, (revealedEnds_eq_some hfit).mp hrevealed, List.map_map]
  rfl

theorem exists_checkedSpans {block : DirectionBlock}
    (hfit : ∀ r ∈ block.revealed.val, r.bytes.val.length < 2 ^ 32)
    (hstop : ∀ r ∈ block.revealedSpans, r.stop < 2 ^ 32) :
    ∃ spans, checkedSpans block = some spans := by
  let revealed := block.revealed.val.map fun r =>
    (r.start, UInt32.ofNat (r.start.toNat + r.bytes.val.length))
  have hrevealed : revealed.map spanOf = block.revealed.val.map RevealedRange.span := by
    rw [List.map_map]
    refine List.map_congr_left fun r hr => ?_
    have hend : (UInt32.ofNat (r.start.toNat + r.bytes.val.length)).toNat = r.span.stop :=
      UInt32.toNat_ofNat_of_lt' (hstop _ (List.mem_map_of_mem hr))
    rw [Function.comp_apply, spanOf, hend, RevealedRange.span]
  exact ⟨_, Option.bind_eq_some_iff.mpr ⟨revealed, (revealedEnds_eq_some hfit).mpr hrevealed, rfl⟩⟩

theorem tilesFrom_insertionSort (spans : List (UInt32 × UInt32)) (length : UInt32) :
    tilesFrom 0 (spans.insertionSort fun a b => a.1 ≤ b.1) = some length ↔
      Tiles length.toNat (spans.map spanOf) := by
  have hsort : (spans.insertionSort fun a b => a.1 ≤ b.1).map spanOf =
      Layout.sortByStart (spans.map spanOf) :=
    List.map_insertionSort _ _ _ spans fun _ _ _ _ => by
      simp only [spanOf, UInt32.le_iff_toNat_le]
  have hwalk := tilesFrom_eq_walk 0 (spans.insertionSort fun a b => a.1 ≤ b.1)
  rw [hsort] at hwalk
  have hperm := Layout.perm_sortByStart (spans.map spanOf)
  have htoNat : tilesFrom 0 (spans.insertionSort fun a b => a.1 ≤ b.1) = some length ↔
      walk 0 (Layout.sortByStart (spans.map spanOf)) = some length.toNat := by
    rw [show (0 : Nat) = (0 : UInt32).toNat from rfl, ← hwalk, Option.map_eq_some_iff]
    constructor
    · exact fun h => ⟨length, h, rfl⟩
    · rintro ⟨stop, h, hstop⟩
      rw [h, UInt32.toNat_inj.mp hstop]
  rw [htoNat, walk_zero_iff (Layout.pairwise_sortByStart _)]
  exact ⟨fun h => h.perm hperm, fun h => h.perm hperm.symm⟩

theorem assertTiles_iff {block : DirectionBlock} {length : UInt32}
    (hfit : ∀ r ∈ block.revealed.val, r.bytes.val.length < 2 ^ 32) :
    assertTiles block length = true ↔
      Tiles length.toNat (block.revealedSpans ++ block.commitmentSpans) := by
  rw [assertTiles]
  split
  case h_1 hnone =>
    refine iff_of_false Bool.false_ne_true fun htiles => ?_
    obtain ⟨spans, hspans⟩ := exists_checkedSpans hfit fun r hr =>
      (htiles.inside r (List.mem_append_left _ hr)).trans_lt length.toNat_lt
    simp [hnone] at hspans
  case h_2 spans hspans =>
    rw [beq_iff_eq, tilesFrom_insertionSort, checkedSpans_eq_some hfit hspans]

def ObservedSession.hashedRanges (session : ObservedSession) (direction : Direction) :
    List Range :=
  (session.commitments.filterMap (·.hashed direction)).flatMap (·.idx.ranges)

variable {session : ObservedSession} {direction : Direction} {block : DirectionBlock}

theorem Reports.revealedSpans (h : Reports session direction block) :
    block.revealedSpans = (session.transcript.authed direction).ranges := by
  have := congrArg (List.map Prod.fst) h.revealed
  simpa [List.map_map, Function.comp_def, DirectionBlock.revealedSpans] using this

theorem Reports.commitmentSpans (h : Reports session direction block) :
    block.commitmentSpans.Perm (session.hashedRanges direction) := by
  have := h.commitments.flatMap_right Prod.fst
  rwa [List.flatMap_map, List.flatMap_map, ← List.map_eq_flatMap] at this

theorem Reports.joined (h : Reports session direction block) :
    joined block = (session.transcript.authed direction).ranges.flatMap
      (slice (session.transcript.data direction)) := by
  have hsorted : block.revealed.val.Pairwise fun a b => a.start ≤ b.start := by
    refine (List.pairwise_map.mp h.ascending.ordered).imp_of_mem fun {a b} ha hb hab => ?_
    rw [UInt32.le_iff_toNat_le]
    exact (Nat.le_add_right ..).trans hab
  rw [Tlsn.joined, hsorted.insertionSort_eq]
  have := congrArg (List.flatMap Prod.snd) h.revealed
  simpa [List.flatMap_map, Function.comp_def] using this

theorem reports_fromObserved {keccak256 : Bytes → ByteArrayOf 32} (hin : session.Inside)
    (hcount : session.commitments.length < 256 ^ 8) {record : AttestedData}
    (h : AttestedData.fromObserved keccak256 session = .ok record) (direction : Direction) :
    Reports session direction (record.block direction) ∧
      (record.transcriptLength direction).toNat = session.transcript.len direction := by
  have hlen := ((AttestedData.exists_fromObserved_eq_ok keccak256 session).mp ⟨record, h⟩).len
  obtain ⟨hdirections, -, -⟩ := AttestedData.fromObserved_eq_ok.mp h
  obtain ⟨-, out, hout, hblock⟩ := DirectionBlock.fromObserved_eq_ok.mp (hdirections direction).2
  exact ⟨hblock ▸ reports_blockOf hin (hlen direction) hcount hout, (hdirections direction).1⟩

theorem Reports.assertTiles_iff (h : Reports session direction block) {length : UInt32} :
    assertTiles block length = true ↔ Tiles length.toNat
      ((session.transcript.authed direction).ranges ++ session.hashedRanges direction) := by
  rw [Tlsn.assertTiles_iff fun r hr => (Nat.le_add_left ..).trans_lt (h.fits r hr),
    h.revealedSpans]
  have hperm := h.commitmentSpans.append_left (session.transcript.authed direction).ranges
  exact ⟨fun ht => ht.perm hperm, fun ht => ht.perm hperm.symm⟩

/-- The verifier's coverage check accepts the record of a session exactly when what the
session opened and what it hashed tile the transcript, and the bytes it then reads are those
the session opened. -/
theorem assertTiles_fromObserved (keccak256 : Bytes → ByteArrayOf 32) (session : ObservedSession)
    (hin : session.Inside) (hcount : session.commitments.length < 256 ^ 8)
    {record : AttestedData} (h : AttestedData.fromObserved keccak256 session = .ok record)
    (direction : Direction) :
    (assertTiles (record.block direction) (record.transcriptLength direction) = true ↔
      Tiles (session.transcript.len direction)
        ((session.transcript.authed direction).ranges ++ session.hashedRanges direction)) ∧
    joined (record.block direction) = (session.transcript.authed direction).ranges.flatMap
      (slice (session.transcript.data direction)) := by
  obtain ⟨hreports, hlen⟩ := reports_fromObserved hin hcount h direction
  exact ⟨hlen ▸ hreports.assertTiles_iff, hreports.joined⟩

theorem assertTiles_fromObserved_run :
    ∃ session : ObservedSession,
      Tiles 3 ((session.transcript.authed .sent).ranges ++ session.hashedRanges .sent) ∧
      ¬ Tiles 2 ((session.transcript.authed .received).ranges ++
        session.hashedRanges .received) := by
  let session : ObservedSession := {
    transcript := {
      lenSent := 3
      lenReceived := 2
      sentAuthed := .single ⟨1, 2⟩ (by decide)
      receivedAuthed := .single ⟨0, 1⟩ (by decide)
      sentUnsafe := [0, 4, 0]
      receivedUnsafe := [3, 0]
      sent_inside := by decide
      received_inside := by decide }
    authority := ascii "a.b"
    commitments := [
      .hash ⟨.sent, idxOf ⟨2, 3⟩, .sha256, List.replicate 32 1⟩,
      .hash ⟨.sent, idxOf ⟨0, 1⟩, .sha256, List.replicate 32 2⟩]
    createdAt := 8 }
  have hin : session.Inside := by
    rintro (_ | _) <;> decide
  have hrecord := assertTiles_fromObserved (fun _ => ⟨List.replicate 32 0, by decide⟩) session hin
    (by decide) rfl
  exact ⟨session, (hrecord .sent).1.mp rfl,
    fun ht => Bool.false_ne_true ((hrecord .received).1.mpr ht)⟩

end Libid.Tlsn
