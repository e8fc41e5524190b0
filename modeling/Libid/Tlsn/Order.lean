import Libid.Base.Sorting
import Libid.Tlsn.Faithful

namespace Libid

namespace Ceremony

theorem RangeCommitment.eq_of_span {c d : RangeCommitment} (hs : c.span = d.span)
    (hv : c.commitment.val = d.commitment.val) : c = d := by
  obtain ⟨start, stop, commitment⟩ := c
  obtain ⟨start', stop', commitment'⟩ := d
  obtain ⟨rfl, rfl⟩ : start = start' ∧ stop = stop' := by
    simpa only [span, Range.mk.injEq, UInt32.toNat_inj] using hs
  obtain rfl : commitment = commitment' := Subtype.ext hv
  rfl

end Ceremony

namespace Tlsn

open Ceremony Transcript

/-- Hashes of one direction that start at one offset are of the same range, and equal. -/
def SeparateStarts (cs : List TranscriptCommitment) : Prop :=
  ∀ g h, .hash g ∈ cs → .hash h ∈ cs → g.direction = h.direction →
    ∀ a ∈ g.idx.ranges, ∀ b ∈ h.idx.ranges, a.start = b.start → a = b ∧ g.value = h.value

theorem exists_perm_cons_cons {α : Type} {a b : α} {as : List α} (ha : a ∈ as) (hb : b ∈ as)
    (hne : a ≠ b) : ∃ rest, (a :: b :: rest).Perm as := by
  obtain ⟨s, t, rfl⟩ := List.append_of_mem ha
  have hb : b ∈ s ++ t := by
    rcases List.mem_append.mp hb with hb | hb
    · exact List.mem_append_left t hb
    · exact List.mem_append_right s ((List.mem_cons.mp hb).resolve_left hne.symm)
  obtain ⟨u, v, huv⟩ := List.append_of_mem hb
  refine ⟨u ++ v, (List.Perm.cons a ?_).trans List.perm_middle.symm⟩
  rw [huv]
  exact List.perm_middle.symm

variable {session : ObservedSession}

theorem SeparateStarts.eq_of_tied (hsep : SeparateStarts session.commitments)
    {direction : Direction} {out : List RangeCommitment}
    (hout : List.Forall₂ Records (session.commitments.filterMap (·.hashed direction)) out)
    {c d : RangeCommitment} (hc : c ∈ out) (hd : d ∈ out)
    (htied : Sorting.Tied (fun a b : RangeCommitment => a.start ≤ b.start) c d) : c = d := by
  obtain ⟨g, hg, hgc⟩ := exists_of_mem_records hout hc
  obtain ⟨h, hh, hhd⟩ := exists_of_mem_records hout hd
  obtain ⟨hg, hgdir⟩ := mem_hashed.mp hg
  obtain ⟨hh, hhdir⟩ := mem_hashed.mp hh
  have hstart : c.span.start = d.span.start :=
    congrArg UInt32.toNat (UInt32.le_antisymm htied.1 htied.2)
  obtain ⟨hspan, hvalue⟩ := hsep g h hg hh (hgdir.trans hhdir.symm) c.span (by simp [hgc.idx])
    d.span (by simp [hhd.idx]) hstart
  exact RangeCommitment.eq_of_span hspan (by rw [← hgc.value, hvalue, hhd.value])

theorem DirectionBlock.fromObserved_perm (hsep : SeparateStarts session.commitments)
    {ds : List TranscriptCommitment} (hp : ds.Perm session.commitments) {direction : Direction}
    {block : DirectionBlock} (h : fromObserved session direction = .ok block) :
    fromObserved { session with commitments := ds } direction = .ok block := by
  obtain ⟨hstop, out, hout, rfl⟩ := fromObserved_eq_ok.mp h
  obtain ⟨out', hout', hperm⟩ := rangeCommitments_perm hp (rangeCommitments_eq_ok.mpr hout)
  have hsort : sortByStart out = sortByStart out' :=
    Sorting.insertionSort_eq_of_perm (fun c hc d hd => hsep.eq_of_tied hout hc hd) hperm.symm
  refine fromObserved_eq_ok.mpr ⟨hstop, out', rangeCommitments_eq_ok.mp hout', ?_⟩
  rw [blockOf, blockOf, hsort]

theorem DirectionBlock.fromObserved_commitments {direction : Direction} {block : DirectionBlock}
    (h : fromObserved session direction = .ok block)
    (hcount : session.commitments.length < 256 ^ 8) {out : List RangeCommitment}
    (hout : List.Forall₂ Records (session.commitments.filterMap (·.hashed direction)) out) :
    block.commitments.val = sortByStart out := by
  have heq := Except.ok.inj (h.symm.trans
    (fromObserved_eq_ok.mpr ⟨(fromObserved_eq_ok.mp h).1, out, hout, rfl⟩))
  rw [heq, commitments_val hcount hout]

theorem DirectionBlock.eq_of_fromObserved_swap {g h : PlaintextHash}
    {rest : List TranscriptCommitment} (hdir : h.direction = g.direction)
    (hcount : rest.length + 2 < 256 ^ 8) {block : DirectionBlock}
    (hgh : fromObserved { session with commitments := .hash g :: .hash h :: rest } g.direction =
      .ok block)
    (hhg : fromObserved { session with commitments := .hash h :: .hash g :: rest } g.direction =
      .ok block)
    {a b : Range} (ha : a ∈ g.idx.ranges) (hb : b ∈ h.idx.ranges) (hstart : a.start = b.start) :
    a = b ∧ g.value = h.value := by
  have hg : (TranscriptCommitment.hash g).hashed g.direction = some g := if_pos rfl
  have hh : (TranscriptCommitment.hash h).hashed g.direction = some h := if_pos hdir
  obtain ⟨-, out, hout, -⟩ := fromObserved_eq_ok.mp hgh
  simp only [List.filterMap_cons_some hg, List.filterMap_cons_some hh] at hout
  obtain ⟨c, _, hgc, htail, rfl⟩ := List.forall₂_cons_left_iff.mp hout
  obtain ⟨d, out, hhd, hrest, rfl⟩ := List.forall₂_cons_left_iff.mp htail
  obtain rfl : a = c.span := by simpa [hgc.idx] using ha
  obtain rfl : b = d.span := by simpa [hhd.idx] using hb
  have hfirst : block.commitments.val = sortByStart (c :: d :: out) := by
    apply fromObserved_commitments hgh hcount
    simp only [List.filterMap_cons_some hg, List.filterMap_cons_some hh]
    exact .cons hgc (.cons hhd hrest)
  have hsecond : block.commitments.val = sortByStart (d :: c :: out) := by
    apply fromObserved_commitments hhg hcount
    simp only [List.filterMap_cons_some hg, List.filterMap_cons_some hh]
    exact .cons hhd (.cons hgc hrest)
  have htied : Sorting.Tied (fun a b : RangeCommitment => a.start ≤ b.start) c d := by
    have hcd : c.start = d.start := UInt32.toNat_inj.mp hstart
    exact ⟨UInt32.le_of_eq hcd, UInt32.le_of_eq hcd.symm⟩
  obtain rfl : c = d := htied.eq_of_insertionSort_swap (hfirst.symm.trans hsecond)
  exact ⟨rfl, by rw [hgc.value, hhd.value]⟩

/-- A session has one record, whatever order its commitments come in, exactly when no two
different hashes of one direction start at one offset. -/
theorem AttestedData.fromObserved_perm_iff (keccak256 : Bytes → ByteArrayOf 32)
    (session : ObservedSession) (hcount : session.commitments.length < 256 ^ 8) :
    (∀ ds, ds.Perm session.commitments → ∀ record,
      fromObserved keccak256 session = .ok record →
        fromObserved keccak256 { session with commitments := ds } = .ok record) ↔
    (session.Describable → SeparateStarts session.commitments) := by
  constructor
  · intro hperm hdesc g h hg hh hdir a ha b hb hstart
    obtain ⟨record, hrecord⟩ := (exists_fromObserved_eq_ok keccak256 session).mpr hdesc
    by_cases hne : g = h
    · subst hne
      obtain ⟨range, hidx, -⟩ := (hdesc.commitments g hg).idx
      simp only [hidx, List.mem_singleton] at ha hb
      exact ⟨ha.trans hb.symm, rfl⟩
    · obtain ⟨rest, hrest⟩ := exists_perm_cons_cons hg hh (by simpa using hne)
      have hlen := hrest.length_eq
      have hgh := fromObserved_eq_ok.mp (hperm _ hrest record hrecord)
      have hhg := fromObserved_eq_ok.mp (hperm _ ((List.Perm.swap ..).trans hrest) record hrecord)
      simp only [List.length_cons] at hlen
      exact DirectionBlock.eq_of_fromObserved_swap hdir.symm (by omega) (hgh.1 g.direction).2
        (hhg.1 g.direction).2 ha hb hstart
  · intro hsep ds hp record hrecord
    have hsep := hsep ((exists_fromObserved_eq_ok keccak256 session).mp ⟨record, hrecord⟩)
    obtain ⟨hdirections, hcreated, hauthority⟩ := fromObserved_eq_ok.mp hrecord
    exact fromObserved_eq_ok.mpr ⟨fun direction => ⟨(hdirections direction).1,
      DirectionBlock.fromObserved_perm hsep hp (hdirections direction).2⟩, hcreated, hauthority⟩

theorem AttestedData.fromObserved_perm_iff_run :
    ∃ session : ObservedSession, ∃ record,
      fromObserved (fun _ => ⟨List.replicate 32 0, by decide⟩) session = .ok record ∧
      session.commitments.length = 2 ∧
      fromObserved (fun _ => ⟨List.replicate 32 0, by decide⟩)
        { session with commitments := session.commitments.reverse } = .ok record := by
  refine ⟨{
      transcript := .unopened [0, 0] []
      authority := []
      commitments := [
        .hash ⟨.sent, idxOf ⟨1, 2⟩, .sha256, List.replicate 32 7⟩,
        .hash ⟨.sent, idxOf ⟨0, 1⟩, .sha256, List.replicate 32 9⟩]
      createdAt := 6 }, _, rfl, rfl, ?_⟩
  refine (AttestedData.fromObserved_perm_iff _ _ (by decide)).mpr (fun _ => ?_) _
    (List.reverse_perm _) _ rfl
  intro g h hg hh _ a ha b hb hstart
  simp only [List.mem_cons, TranscriptCommitment.hash.injEq, List.not_mem_nil, or_false] at hg hh
  obtain rfl | rfl := hg <;> obtain rfl | rfl := hh <;>
    simp_all [idxOf, RangeSet.single]

/-- A prover commits to one byte and to that byte with the next. -/
theorem AttestedData.fromObserved_order_matters :
    ∃ session : ObservedSession, ∃ ds record record',
      ds.Perm session.commitments ∧
      fromObserved (fun _ => ⟨List.replicate 32 0, by decide⟩) session = .ok record ∧
      fromObserved (fun _ => ⟨List.replicate 32 0, by decide⟩)
        { session with commitments := ds } = .ok record' ∧
      record ≠ record' ∧ record.encode ≠ record'.encode := by
  refine ⟨{
      transcript := .unopened [0, 0] []
      authority := []
      commitments := [
        .hash ⟨.sent, idxOf ⟨0, 1⟩, .sha256, List.replicate 32 7⟩,
        .hash ⟨.sent, idxOf ⟨0, 2⟩, .sha256, List.replicate 32 9⟩]
      createdAt := 6 }, [
        .hash ⟨.sent, idxOf ⟨0, 2⟩, .sha256, List.replicate 32 9⟩,
        .hash ⟨.sent, idxOf ⟨0, 1⟩, .sha256, List.replicate 32 7⟩],
    _, _, List.Perm.swap .., rfl, rfl, ?_⟩
  have hencode : ∀ {d d' : AttestedData}, d.encode ≠ d'.encode → d ≠ d' ∧ d.encode ≠ d'.encode :=
    fun h => ⟨fun e => h (congrArg _ e), h⟩
  exact hencode (by decide)

end Tlsn

end Libid
