import Libid.Base.Hex
import Libid.Base.Runs
import Libid.Tlsn.Script
import Libid.Tlsn.Order
import Mathlib.Data.List.Nodup

/-! A prover's configuration from its two layouts, and the record the fixture generator builds
on it, with what opens its commitments. -/

namespace Libid.Tlsn

open Ceremony Transcript

/-! ### What the notarization library does -/

abbrev CommitItem := Direction × RangeSet × HashAlgId

structure ProveConfig where
  serverIdentity : Bool
  revealSent : List Range
  revealRecv : List Range
  transcriptCommit : Option (List CommitItem)

def ProveConfig.request (config : ProveConfig) : ProveRequest :=
  ⟨config.serverIdentity, config.transcriptCommit⟩

/-- The library's builders, over transcripts of the lengths they are given, its hash of a
plaintext and a blinder, and the transcript its verifier is left with. -/
structure Notarization where
  commit : Nat → Range → Except String RangeSet
  buildCommit : List CommitItem → Except String (List CommitItem)
  reveal : Nat → Range → Except String Unit
  buildProve : ProveConfig → Except String Unit
  reveals : List Range → List Range → Option (RangeSet × RangeSet)
  toPartial : Bytes → Bytes → RangeSet → RangeSet → PartialTranscript
  hashPrefixed : Bytes → Bytes → ByteArrayOf 32

/-- A range within the transcript is taken as it is, and a set of commitments comes back whole,
in some order. -/
structure Notarization.Lawful (lib : Notarization) : Prop where
  commit : ∀ len r, r.start < r.stop → r.stop ≤ len →
    ∃ idx, lib.commit len r = .ok idx ∧ idx.IsUnion [r]
  buildCommit : ∀ items, items.Nodup → ∃ commit, lib.buildCommit items = .ok commit ∧
    commit.Perm items
  reveal : ∀ len r, r.stop ≤ len → lib.reveal len r = .ok ()
  buildProve : ∀ config, lib.buildProve config = .ok ()
  reveals : ∀ sent recv, sent ≠ [] ∨ recv ≠ [] →
    ∃ s r, lib.reveals sent recv = some (s, r) ∧ s.IsUnion sent ∧ r.IsUnion recv
  toPartial : ∀ sent recv s r, (∀ d ∈ s.ranges, d.stop ≤ sent.length) →
    (∀ d ∈ r.ranges, d.stop ≤ recv.length) →
    (lib.toPartial sent recv s r).Opens .sent sent s.ranges ∧
      (lib.toPartial sent recv s r).Opens .received recv r.ranges

/-! ### `session.rs` -/

section

variable (lib : Notarization)

/-- The loop over the ranges of one direction. -/
def commitAll (len : Nat) (direction : Direction) (refuse : String → ProveConfigError) :
    List Range → Except ProveConfigError (List CommitItem)
  | [] => .ok []
  | range :: ranges => do
    let idx ← (lib.commit len range).mapError refuse
    let rest ← commitAll len direction refuse ranges
    return (direction, idx, .sha256) :: rest

def transcriptCommitConfig (sentLen recvLen : Nat) (sent recv : List Range) :
    Except ProveConfigError (List CommitItem) := do
  let sent ← commitAll lib sentLen .sent .commitSent sent
  let recv ← commitAll lib recvLen .received .commitRecv recv
  (lib.buildCommit (sent ++ recv)).mapError .transcriptCommitConfig

def revealAll (len : Nat) (refuse : String → ProveConfigError) :
    List Range → Except ProveConfigError Unit
  | [] => .ok ()
  | range :: ranges => do
    (lib.reveal len range).mapError refuse
    revealAll len refuse ranges

/-- What the prover does between its transcript and the proof. -/
def configure (selectLayout : Bytes → Bytes → Except SessionError (Layout × Layout))
    (sent recv : Bytes) : Except ProveConfigError ProveConfig := do
  let (sentLayout, recvLayout) ← (selectLayout sent recv).mapError .selectLayout
  let commit ← transcriptCommitConfig lib sent.length recv.length sentLayout.commit
    recvLayout.commit
  revealAll lib sent.length .revealSent sentLayout.reveal
  revealAll lib recv.length .revealRecv recvLayout.reveal
  let config : ProveConfig := ⟨true, sentLayout.reveal, recvLayout.reveal, some commit⟩
  (lib.buildProve config).mapError .proveConfig
  return config

/-! ### `ceremony_fixtures.rs` -/

def fixtureClock : UInt64 := 1770000000

def blinder (keccak256 : Bytes → ByteArrayOf 32) (session : String) (index : Nat) : Bytes :=
  (keccak256 s!"libid ceremony fixture {session} {index}".toUTF8.toList).val.take 16

def hex0x (bs : Bytes) : Bytes := ascii "0x" ++ hexEncode bs

/-- `ranges[0].start`.  A commitment to nothing has no record, so what it sorts by is all one. -/
def startOf (idx : RangeSet) : Nat := (idx.ranges.head?.map Range.start).getD 0

def ItemBefore (a b : Direction × RangeSet) : Prop :=
  (a.1 = .sent ∧ b.1 = .received) ∨ (a.1 = b.1 ∧ startOf a.2 ≤ startOf b.2)

instance : DecidableRel ItemBefore := fun _ _ => instDecidableOr

/-- `blinder` is its text. -/
structure FixtureOpening where
  direction : Direction
  ranges : List Range
  blinder : Bytes

structure FixtureRecord where
  data : AttestedData
  openings : List FixtureOpening

/-- `none` is a panic: the code expects every step to succeed. -/
def build (keccak256 : Bytes → ByteArrayOf 32) (session : String) (bytes : Direction → Bytes)
    (layout : Direction → Layout) (authority : Bytes) : Option FixtureRecord := do
  let config ← (configure lib (fun _ _ => .ok (layout .sent, layout .received)) (bytes .sent)
    (bytes .received)).toOption
  let (revealSent, revealRecv) ← lib.reveals config.revealSent config.revealRecv
  let commit ← config.transcriptCommit
  let ordered := (commit.map fun item => (item.1, item.2.1)).insertionSort ItemBefore
  let blinders := ordered.zipIdx.map fun item => (item.1, blinder keccak256 session item.2)
  let data ← (AttestedData.fromObserved keccak256 {
    transcript := lib.toPartial (bytes .sent) (bytes .received) revealSent revealRecv
    authority := authority
    commitments := blinders.map fun ((direction, idx), blinder) =>
      let plaintext := idx.ranges.flatMap (slice (bytes direction))
      .hash ⟨direction, idx, .sha256, (lib.hashPrefixed plaintext blinder).val⟩
    createdAt := fixtureClock }).toOption
  return {
    data := data
    openings := blinders.map fun ((direction, idx), blinder) =>
      ⟨direction, idx.ranges, hex0x blinder⟩ }

end

/-! ### The configuration -/

theorem RangeSet.eq_of_ranges {s t : RangeSet} (h : s.ranges = t.ranges) : s = t := by
  cases s
  cases t
  cases h
  rfl

theorem eq_idxOf {idx : RangeSet} {r : Range} (hr : r.start < r.stop) (h : idx.IsUnion [r]) :
    idx = idxOf r :=
  RangeSet.eq_of_ranges
    ((h.ranges_eq_singleton hr).trans ((idxOf_isUnion hr).ranges_eq_singleton hr).symm)

theorem idxOf_ranges {r : Range} (hr : r.start < r.stop) : (idxOf r).ranges = [r] :=
  (idxOf_isUnion hr).ranges_eq_singleton hr

def itemsOf (direction : Direction) (ranges : List Range) : List CommitItem :=
  ranges.map fun r => (direction, idxOf r, .sha256)

section Lawful

variable {lib : Notarization}

theorem Notarization.Lawful.commitAll (hlib : lib.Lawful) {len : Nat} (direction : Direction)
    (refuse : String → ProveConfigError) {ranges : List Range}
    (hne : ∀ r ∈ ranges, r.start < r.stop) (hin : ∀ r ∈ ranges, r.stop ≤ len) :
    commitAll lib len direction refuse ranges = .ok (itemsOf direction ranges) := by
  induction ranges with
  | nil => rfl
  | cons range ranges ih =>
    rw [List.forall_mem_cons] at hne hin
    obtain ⟨idx, hidx, hunion⟩ := hlib.commit len range hne.1 hin.1
    obtain rfl := eq_idxOf hne.1 hunion
    rw [Tlsn.commitAll, hidx, ih hne.2 hin.2]
    rfl

theorem Notarization.Lawful.revealAll (hlib : lib.Lawful) {len : Nat}
    (refuse : String → ProveConfigError) {ranges : List Range} (hin : ∀ r ∈ ranges, r.stop ≤ len) :
    revealAll lib len refuse ranges = .ok () := by
  induction ranges with
  | nil => rfl
  | cons range ranges ih =>
    rw [List.forall_mem_cons] at hin
    rw [Tlsn.revealAll, hlib.reveal len range hin.1]
    exact ih hin.2

theorem nodup_itemsOf {direction : Direction} {ranges : List Range}
    (hne : ∀ r ∈ ranges, r.start < r.stop) (hdis : ranges.Pairwise Range.Disjoint) :
    (itemsOf direction ranges).Nodup := by
  refine List.Nodup.map_on ?_ ?_
  · intro a ha b hb h
    have hranges := congrArg RangeSet.ranges (Prod.mk.inj (Prod.mk.inj h).2).1
    rw [idxOf_ranges (hne a ha), idxOf_ranges (hne b hb)] at hranges
    exact (List.cons.inj hranges).1
  · exact hdis.imp_of_mem fun {a b} ha _ h hab => h a.start ⟨le_rfl, hne a ha⟩
      (hab ▸ ⟨le_rfl, hne a ha⟩)

theorem mem_itemsOf {direction : Direction} {ranges : List Range} {item : CommitItem} :
    item ∈ itemsOf direction ranges ↔ ∃ r ∈ ranges, item = (direction, idxOf r, .sha256) := by
  simp only [itemsOf, List.mem_map, eq_comm]

section Layouts

variable {bytes : Direction → Bytes} {layout : Direction → Layout}

def itemsOfLayouts (layout : Direction → Layout) : List CommitItem :=
  itemsOf .sent (layout .sent).commit ++ itemsOf .received (layout .received).commit

theorem nodup_itemsOfLayouts (htile : ∀ direction, Tiles (bytes direction).length
    ((layout direction).reveal ++ (layout direction).commit)) :
    (itemsOfLayouts layout).Nodup := by
  have hown : ∀ direction, (itemsOf direction (layout direction).commit).Nodup := fun direction =>
    nodup_itemsOf (fun r hr => (htile direction).nonempty r (List.mem_append_right _ hr))
      (List.pairwise_append.mp (htile direction).disjoint).2.1
  refine (hown .sent).append (hown .received) ?_
  intro item hsent hreceived
  obtain ⟨_, _, rfl⟩ := mem_itemsOf.mp hsent
  obtain ⟨_, _, h⟩ := mem_itemsOf.mp hreceived
  cases (Prod.mk.inj h).1

theorem Notarization.Lawful.configure (hlib : lib.Lawful)
    (htile : ∀ direction, Tiles (bytes direction).length
      ((layout direction).reveal ++ (layout direction).commit))
    (selectLayout : Bytes → Bytes → Except SessionError (Layout × Layout))
    (hselect : selectLayout (bytes .sent) (bytes .received) =
      .ok (layout .sent, layout .received)) :
    ∃ commit, configure lib selectLayout (bytes .sent) (bytes .received) =
        .ok ⟨true, (layout .sent).reveal, (layout .received).reveal, some commit⟩ ∧
      commit.Perm (itemsOfLayouts layout) := by
  have hcommit := fun direction refuse => hlib.commitAll direction refuse
    (fun r hr => (htile direction).nonempty r (List.mem_append_right _ hr))
    (fun r hr => (htile direction).inside r (List.mem_append_right _ hr))
  have hreveal := fun direction refuse => hlib.revealAll refuse
    (fun r hr => (htile direction).inside r (List.mem_append_left _ hr))
  obtain ⟨commit, hbuild, hperm⟩ := hlib.buildCommit _ (nodup_itemsOfLayouts htile)
  have hconfig : transcriptCommitConfig lib (bytes .sent).length (bytes .received).length
      (layout .sent).commit (layout .received).commit = .ok commit := by
    rw [transcriptCommitConfig, hcommit, hcommit]
    exact congrArg (Except.mapError _) hbuild
  refine ⟨commit, ?_, hperm⟩
  simp only [Tlsn.configure, hselect, Except.mapError, bind, Except.bind, hconfig, hreveal,
    hlib.buildProve, pure, Except.pure]

theorem admits_of_perm {config : ProveConfig} {commit : List CommitItem}
    (htile : ∀ direction, Tiles (bytes direction).length
      ((layout direction).reveal ++ (layout direction).commit))
    (hidentity : config.serverIdentity = true) (hcommit : config.transcriptCommit = some commit)
    (hperm : commit.Perm (itemsOfLayouts layout)) {tlsTranscript : TlsTranscript}
    (hlen : ∀ direction, tlsTranscript.dataLen direction = (bytes direction).length) :
    VerifierSetup.Admits tlsTranscript config.request := by
  refine ⟨hidentity, ?_⟩
  rintro direction idx ⟨commit', alg, hcommit', hmem⟩ d hd
  obtain rfl := Option.some.inj (hcommit.symm.trans hcommit')
  have hown : (direction, idx, alg) ∈ itemsOf direction (layout direction).commit := by
    rcases List.mem_append.mp (hperm.mem_iff.mp hmem) with h | h
    all_goals
      obtain ⟨_, _, heq⟩ := mem_itemsOf.mp h
      obtain rfl := (Prod.mk.inj heq).1
      exact h
  obtain ⟨r, hr, heq⟩ := mem_itemsOf.mp hown
  obtain rfl := (Prod.mk.inj (Prod.mk.inj heq).2).1
  rw [idxOf_ranges ((htile direction).nonempty r (List.mem_append_right _ hr)),
    List.mem_singleton] at hd
  rw [hlen, hd]
  exact (htile direction).inside r (List.mem_append_right _ hr)

end Layouts

end Lawful

instance : Std.Total ItemBefore where
  total a b := by
    obtain ⟨da, ia⟩ := a
    obtain ⟨db, ib⟩ := b
    cases da <;> cases db <;> simp [ItemBefore, Nat.le_total]

instance : IsTrans (Direction × RangeSet) ItemBefore where
  trans a b c := by
    rintro (⟨ha, hb⟩ | ⟨hab, hle⟩) (⟨hb', hc⟩ | ⟨hbc, hle'⟩)
    · exact .inl ⟨ha, hc⟩
    · exact .inl ⟨ha, hbc ▸ hb⟩
    · exact .inl ⟨hab ▸ hb', hc⟩
    · exact .inr ⟨hab.trans hbc, hle.trans hle'⟩

def entriesOf (layout : Direction → Layout) : List (Direction × Range) :=
  (Layout.sortByStart (layout .sent).commit).map (Prod.mk .sent) ++
    (Layout.sortByStart (layout .received).commit).map (Prod.mk .received)

section Layouts

variable {bytes : Direction → Bytes} {layout : Direction → Layout}

theorem mem_entriesOf {e : Direction × Range} :
    e ∈ entriesOf layout ↔ e.2 ∈ (layout e.1).commit := by
  obtain ⟨direction, r⟩ := e
  have hsort := fun rs => (Layout.perm_sortByStart rs).mem_iff (a := r)
  cases direction <;> simp [entriesOf, hsort]

theorem entriesOf_perm : ((entriesOf layout).map fun e => (e.1, idxOf e.2)).Perm
    ((itemsOfLayouts layout).map fun item => (item.1, item.2.1)) := by
  simp only [entriesOf, itemsOfLayouts, itemsOf, List.map_append, List.map_map, Function.comp_def]
  exact ((Layout.perm_sortByStart _).map _).append ((Layout.perm_sortByStart _).map _)

section

variable (hne : ∀ direction, ∀ r ∈ (layout direction).commit, r.start < r.stop)
include hne

theorem startOf_entry {e : Direction × Range} (he : e ∈ entriesOf layout) :
    startOf (idxOf e.2) = e.2.start := by
  rw [startOf, idxOf_ranges (hne e.1 e.2 (mem_entriesOf.mp he))]
  rfl

theorem pairwise_entriesOf :
    ((entriesOf layout).map fun e => (e.1, idxOf e.2)).Pairwise ItemBefore := by
  have hown : ∀ direction, ((Layout.sortByStart (layout direction).commit).map
      (Prod.mk direction)).Pairwise fun a b => a.1 = b.1 ∧ a.2.start ≤ b.2.start :=
    fun direction => List.pairwise_map.mpr
      ((Layout.pairwise_sortByStart _).imp fun h => ⟨rfl, h⟩)
  rw [List.pairwise_map]
  refine (List.pairwise_append.mpr ⟨(hown .sent).imp .inr, (hown .received).imp .inr, ?_⟩
    : (entriesOf layout).Pairwise fun a b => (a.1 = .sent ∧ b.1 = .received) ∨
      (a.1 = b.1 ∧ a.2.start ≤ b.2.start)).imp_of_mem ?_
  · intro a ha b hb
    obtain ⟨_, -, rfl⟩ := List.mem_map.mp ha
    obtain ⟨_, -, rfl⟩ := List.mem_map.mp hb
    exact .inl ⟨rfl, rfl⟩
  · intro a b ha hb h
    rwa [ItemBefore, startOf_entry hne ha, startOf_entry hne hb]

end

theorem eq_of_start_eq {rs : List Range} (hne : ∀ r ∈ rs, r.start < r.stop)
    (hdis : rs.Pairwise Range.Disjoint) {a b : Range} (ha : a ∈ rs) (hb : b ∈ rs)
    (h : a.start = b.start) : a = b := by
  have : Std.Symm Range.Disjoint := ⟨fun _ _ => Range.Disjoint.symm⟩
  by_contra hab
  have hstart := hdis.forall ha hb hab a.start ⟨le_rfl, hne a ha⟩
  exact hstart ⟨h.ge, h ▸ hne b hb⟩

theorem insertionSort_items (htile : ∀ direction, Tiles (bytes direction).length
      ((layout direction).reveal ++ (layout direction).commit))
    {commit : List CommitItem} (hperm : commit.Perm (itemsOfLayouts layout)) :
    (commit.map fun item => (item.1, item.2.1)).insertionSort ItemBefore =
      (entriesOf layout).map fun e => (e.1, idxOf e.2) := by
  have hne : ∀ direction, ∀ r ∈ (layout direction).commit, r.start < r.stop :=
    fun direction r hr => (htile direction).nonempty r (List.mem_append_right _ hr)
  have hsorted := pairwise_entriesOf hne
  rw [← hsorted.insertionSort_eq]
  refine (Sorting.insertionSort_eq_of_perm ?_ (entriesOf_perm.trans (hperm.map _).symm)).symm
  -- Entries that sort together are of one direction and begin together, so they are the same.
  intro a ha b hb htied
  obtain ⟨e, he, rfl⟩ := List.mem_map.mp ha
  obtain ⟨f, hf, rfl⟩ := List.mem_map.mp hb
  have hef := htied.1
  have hfe := htied.2
  simp only [ItemBefore, startOf_entry hne he, startOf_entry hne hf] at hef hfe
  obtain ⟨hdirection, hstart⟩ : e.1 = f.1 ∧ e.2.start = f.2.start := by
    rcases hef with ⟨hsent, hreceived⟩ | ⟨hdirection, hle⟩
    · simp [hsent, hreceived] at hfe
    · rcases hfe with ⟨hsent, hreceived⟩ | ⟨-, hge⟩
      · simp [hsent, hreceived] at hdirection
      · exact ⟨hdirection, Nat.le_antisymm hle hge⟩
  have hrange : e.2 = f.2 := eq_of_start_eq (hne e.1)
    (List.pairwise_append.mp (htile e.1).disjoint).2.1 (mem_entriesOf.mp he)
    (hdirection ▸ mem_entriesOf.mp hf) hstart
  rw [hdirection, hrange]

theorem nodup_entriesOf (htile : ∀ direction, Tiles (bytes direction).length
    ((layout direction).reveal ++ (layout direction).commit)) : (entriesOf layout).Nodup := by
  have hproj : Set.InjOn (fun item : CommitItem => (item.1, item.2.1))
      { item | item ∈ itemsOfLayouts layout } := by
    intro a ha b hb h
    have halg : ∀ item ∈ itemsOfLayouts layout, item.2.2 = .sha256 := by
      intro item hitem
      rcases List.mem_append.mp hitem with hitem | hitem
      all_goals
        obtain ⟨_, _, rfl⟩ := mem_itemsOf.mp hitem
        rfl
    exact Prod.ext (Prod.mk.inj h).1 (Prod.ext (Prod.mk.inj h).2
      ((halg a ha).trans (halg b hb).symm))
  have hitems := (nodup_itemsOfLayouts htile).map_on fun a ha b hb h => hproj ha hb h
  exact .of_map _ (entriesOf_perm.nodup_iff.mpr hitems)

end Layouts

theorem map_zipIdx_of_nodup {α β : Type} [BEq α] [LawfulBEq α] {as : List α} (h : as.Nodup)
    (f : α → Nat → β) : (as.zipIdx.map fun p => f p.1 p.2) = as.map fun a => f a (as.idxOf a) := by
  apply List.ext_getElem
  · simp
  · intro i hi _
    simp [h.idxOf_getElem]

def blockOfLayout (bytes : Bytes) (layout : Layout) (digest : Range → ByteArrayOf 32) :
    DirectionBlock where
  revealed := vecOf ((RangeSet.ofRanges layout.reveal).ranges.map (DirectionBlock.revealedOf bytes))
  commitments := vecOf ((Layout.sortByStart layout.commit).map (signedOf digest))

def recordOfLayouts (keccak256 : Bytes → ByteArrayOf 32) (authority : Bytes) (createdAt : UInt64)
    (bytes : Direction → Bytes) (layout : Direction → Layout)
    (digest : Direction → Range → ByteArrayOf 32) : AttestedData where
  authorityId := AttestedData.authorityIdOf keccak256 authority
  createdAt := createdAt
  sentTranscriptLength := UInt32.ofNat (bytes .sent).length
  recvTranscriptLength := UInt32.ofNat (bytes .received).length
  sent := blockOfLayout (bytes .sent) (layout .sent) (digest .sent)
  received := blockOfLayout (bytes .received) (layout .received) (digest .received)

section Record

variable {bytes : Direction → Bytes} {layout : Direction → Layout}
  {digest : Direction → Range → ByteArrayOf 32}

theorem rangeCommitments_entries (hfit : ∀ direction, ∀ r ∈ (layout direction).commit, Fits r)
    (direction : Direction) :
    DirectionBlock.rangeCommitments direction
        ((entriesOf layout).map fun e => commitmentOf idxOf digest e.1 e.2) =
      .ok ((Layout.sortByStart (layout direction).commit).map (signedOf (digest direction))) := by
  have hown : ∀ direction, DirectionBlock.rangeCommitments direction
      ((Layout.sortByStart (layout direction).commit).map (commitmentOf idxOf digest direction)) =
        .ok ((Layout.sortByStart (layout direction).commit).map (signedOf (digest direction))) :=
    fun direction => DirectionBlock.rangeCommitments_own idxOf digest (fun r => idxOf_isUnion)
      direction fun r hr => hfit direction r ((Layout.perm_sortByStart _).mem_iff.mp hr)
  simp only [entriesOf, List.map_append, List.map_map, Function.comp_def]
  cases direction with
  | sent =>
    have hother := DirectionBlock.rangeCommitments_other idxOf digest
      (show Direction.received ≠ .sent by decide) (Layout.sortByStart (layout .received).commit)
    simpa using DirectionBlock.rangeCommitments_append (hown .sent) hother
  | received =>
    exact DirectionBlock.rangeCommitments_append
      (DirectionBlock.rangeCommitments_other idxOf digest (by decide) _) (hown .received)

theorem sortByStart_signed (digest : Range → ByteArrayOf 32) {ranges : List Range}
    (hfit : ∀ r ∈ ranges, Fits r) :
    DirectionBlock.sortByStart ((Layout.sortByStart ranges).map (signedOf digest)) =
      (Layout.sortByStart ranges).map (signedOf digest) := by
  apply List.Pairwise.insertionSort_eq
  rw [List.pairwise_map]
  refine (Layout.pairwise_sortByStart ranges).imp_of_mem fun {a b} ha hb h => ?_
  have hfit' := fun r hr => hfit r ((Layout.perm_sortByStart ranges).mem_iff.mp hr)
  simp only [signedOf, UInt32.le_iff_toNat_le]
  rw [UInt32.toNat_ofNat_of_lt' (hfit' a ha).start, UInt32.toNat_ofNat_of_lt' (hfit' b hb).start]
  exact h

theorem signs_blockOfLayout {bytes : Bytes} {layout : Layout} {digest : Range → ByteArrayOf 32}
    (htile : Tiles bytes.length (layout.reveal ++ layout.commit)) (hlen : bytes.length < 2 ^ 32) :
    Signs (blockOfLayout bytes layout digest) (UInt32.ofNat bytes.length) bytes layout digest := by
  have hfit : ∀ r ∈ layout.commit, Fits r := fun r hr =>
    .of_tiles htile hlen (List.mem_append_right _ hr)
  rw [blockOfLayout, ← sortByStart_signed digest hfit]
  have hunion := RangeSet.ofRanges_isUnion layout.reveal
  exact signs_of_entries htile hlen hunion
    (hunion.inside fun r hr => htile.inside r (List.mem_append_left _ hr)) (fun _ _ => rfl)
    ((Layout.perm_sortByStart _).map _)

/-- The library is free in what its transcript holds where nothing is opened. -/
theorem fromObserved_entries {session : ObservedSession} {direction : Direction}
    (htile : ∀ direction, Tiles (bytes direction).length
      ((layout direction).reveal ++ (layout direction).commit))
    (hlen : ∀ direction, (bytes direction).length < 2 ^ 32)
    (hopens : session.transcript.Opens direction (bytes direction) (layout direction).reveal)
    (hcommit : session.commitments =
      (entriesOf layout).map fun e => commitmentOf idxOf digest e.1 e.2) :
    DirectionBlock.fromObserved session direction =
      .ok (blockOfLayout (bytes direction) (layout direction) (digest direction)) := by
  have hfit : ∀ direction, ∀ r ∈ (layout direction).commit, Fits r := fun direction r hr =>
    .of_tiles (htile direction) (hlen direction) (List.mem_append_right _ hr)
  have hranges : (session.transcript.authed direction).ranges =
      (RangeSet.ofRanges (layout direction).reveal).ranges :=
    RangeSet.ext_covers fun i => (hopens.authed i).trans (RangeSet.ofRanges_isUnion _ i).symm
  have hstop := hopens.authed.inside fun r hr =>
    (htile direction).inside r (List.mem_append_left _ hr)
  have hrevealed := DirectionBlock.revealedRanges_eq_ok (session.transcript.data direction)
    fun r hr => .of_le ((session.transcript.authed direction).nonempty r hr) (hstop r hr)
      (hlen direction)
  have hentries : (session.transcript.authed direction).ranges.map
      (DirectionBlock.revealedOf (session.transcript.data direction)) =
        (RangeSet.ofRanges (layout direction).reveal).ranges.map
          (DirectionBlock.revealedOf (bytes direction)) := by
    rw [← hranges]
    refine List.map_congr_left fun r hr => ?_
    rw [DirectionBlock.revealedOf, DirectionBlock.revealedOf, hopens.slice_eq hr]
  have hsorted := sortByStart_signed (digest direction) (hfit direction)
  rw [DirectionBlock.fromObserved_eq, hrevealed, hcommit, rangeCommitments_entries hfit, hentries]
  exact congrArg (fun out => Except.ok (DirectionBlock.mk _ (vecOf out))) hsorted

theorem AttestedData.fromObserved_entries {keccak256 : Bytes → ByteArrayOf 32}
    {session : ObservedSession}
    (htile : ∀ direction, Tiles (bytes direction).length
      ((layout direction).reveal ++ (layout direction).commit))
    (hlen : ∀ direction, (bytes direction).length < 2 ^ 32)
    (hopens : ∀ direction,
      session.transcript.Opens direction (bytes direction) (layout direction).reveal)
    (hcommit : session.commitments =
      (entriesOf layout).map fun e => commitmentOf idxOf digest e.1 e.2) :
    AttestedData.fromObserved keccak256 session = .ok (recordOfLayouts keccak256 session.authority
      session.createdAt bytes layout digest) := by
  refine AttestedData.fromObserved_eq_ok.mpr ⟨fun direction => ?_, rfl, rfl⟩
  have hblock := Tlsn.fromObserved_entries htile hlen (hopens direction) hcommit
  have hlength := (hopens direction).len
  cases direction with
  | sent => exact ⟨(UInt32.toNat_ofNat_of_lt' (hlen .sent)).trans hlength.symm, hblock⟩
  | received => exact ⟨(UInt32.toNat_ofNat_of_lt' (hlen .received)).trans hlength.symm, hblock⟩

end Record

section Build

variable {lib : Notarization} {keccak256 : Bytes → ByteArrayOf 32} {session : String}
  {bytes : Direction → Bytes} {layout : Direction → Layout}

/-- The blinder of an entry is numbered by where the entry stands. -/
def blinderOf (keccak256 : Bytes → ByteArrayOf 32) (session : String)
    (layout : Direction → Layout) (e : Direction × Range) : Bytes :=
  blinder keccak256 session ((entriesOf layout).idxOf e)

def digestOf (hashPrefixed : Bytes → Bytes → ByteArrayOf 32) (keccak256 : Bytes → ByteArrayOf 32)
    (session : String) (bytes : Direction → Bytes) (layout : Direction → Layout)
    (direction : Direction) (range : Range) : ByteArrayOf 32 :=
  hashPrefixed (slice (bytes direction) range)
    (blinderOf keccak256 session layout (direction, range))

def fixtureOf (hashPrefixed : Bytes → Bytes → ByteArrayOf 32) (keccak256 : Bytes → ByteArrayOf 32)
    (session : String) (bytes : Direction → Bytes) (layout : Direction → Layout)
    (authority : Bytes) : FixtureRecord where
  data := recordOfLayouts keccak256 authority fixtureClock bytes layout
    (digestOf hashPrefixed keccak256 session bytes layout)
  openings := (entriesOf layout).map fun e =>
    ⟨e.1, [e.2], hex0x (blinderOf keccak256 session layout e)⟩

theorem build_eq (hlib : lib.Lawful)
    (htile : ∀ direction, Tiles (bytes direction).length
      ((layout direction).reveal ++ (layout direction).commit))
    (hlen : ∀ direction, (bytes direction).length < 2 ^ 32)
    (hreveal : ∃ direction, (layout direction).reveal ≠ []) (authority : Bytes) :
    build lib keccak256 session bytes layout authority =
      some (fixtureOf lib.hashPrefixed keccak256 session bytes layout authority) := by
  obtain ⟨commit, hconfig, hperm⟩ :=
    hlib.configure htile (fun _ _ => .ok (layout .sent, layout .received)) rfl
  have hnonempty : (layout .sent).reveal ≠ [] ∨ (layout .received).reveal ≠ [] := by
    obtain ⟨direction, h⟩ := hreveal
    cases direction with
    | sent => exact .inl h
    | received => exact .inr h
  obtain ⟨s, r, hsets, hs, hr⟩ := hlib.reveals _ _ hnonempty
  obtain ⟨hsent, hreceived⟩ := hlib.toPartial (bytes .sent) (bytes .received) s r
    (hs.inside fun d hd => (htile .sent).inside d (List.mem_append_left _ hd))
    (hr.inside fun d hd => (htile .received).inside d (List.mem_append_left _ hd))
  have hblinders : ((entriesOf layout).map fun e => (e.1, idxOf e.2)).zipIdx.map
      (fun item => (item.1, blinder keccak256 session item.2)) =
        (entriesOf layout).map fun e =>
          ((e.1, idxOf e.2), blinderOf keccak256 session layout e) := by
    rw [List.zipIdx_map, List.map_map]
    exact map_zipIdx_of_nodup (nodup_entriesOf htile)
      fun e i => ((e.1, idxOf e.2), blinder keccak256 session i)
  have hranges : ∀ e ∈ entriesOf layout, (idxOf e.2).ranges = [e.2] := fun e he =>
    idxOf_ranges ((htile e.1).nonempty e.2 (List.mem_append_right _ (mem_entriesOf.mp he)))
  have hdata : AttestedData.fromObserved keccak256 {
      transcript := lib.toPartial (bytes .sent) (bytes .received) s r
      authority := authority
      commitments := (entriesOf layout).map fun e => .hash ⟨e.1, idxOf e.2, .sha256,
        (lib.hashPrefixed ((idxOf e.2).ranges.flatMap (slice (bytes e.1)))
          (blinderOf keccak256 session layout e)).val⟩
      createdAt := fixtureClock } =
        .ok (fixtureOf lib.hashPrefixed keccak256 session bytes layout authority).data := by
    refine AttestedData.fromObserved_entries htile hlen (fun direction => ?_)
      (List.map_congr_left fun e he => ?_)
    · cases direction with
      | sent => exact ⟨hsent.len, fun i => (hsent.authed i).trans (hs i), hsent.data⟩
      | received =>
        exact ⟨hreceived.len, fun i => (hreceived.authed i).trans (hr i), hreceived.data⟩
    · rw [hranges e he, List.flatMap_cons, List.flatMap_nil, List.append_nil]
      rfl
  have hopenings : ((entriesOf layout).map fun e => (⟨e.1, (idxOf e.2).ranges,
      hex0x (blinderOf keccak256 session layout e)⟩ : FixtureOpening)) =
        (fixtureOf lib.hashPrefixed keccak256 session bytes layout authority).openings :=
    List.map_congr_left fun e he => by rw [hranges e he]
  simp only [build, hconfig, Except.toOption, Option.bind_eq_bind, Option.bind_some, hsets,
    insertionSort_items htile hperm, hblinders]
  simp only [List.map_map, Function.comp_def, hdata, hopenings, Option.bind_some]
  rfl

def entries (record : AttestedData) : List (Direction × RangeCommitment) :=
  record.sent.commitments.val.map (Prod.mk .sent) ++
    record.received.commitments.val.map (Prod.mk .received)

structure FixtureOpening.Opens (hashPrefixed : Bytes → Bytes → ByteArrayOf 32)
    (bytes : Direction → Bytes) (opening : FixtureOpening) (e : Direction × RangeCommitment) :
    Prop where
  direction : opening.direction = e.1
  ranges : opening.ranges = [e.2.span]
  blinder : ∃ blinder, opening.blinder = hex0x blinder ∧
    hashPrefixed (slice (bytes e.1) e.2.span) blinder = e.2.commitment

theorem commitments_blockOfLayout {bytes : Bytes} {layout : Layout}
    {digest : Range → ByteArrayOf 32}
    (htile : Tiles bytes.length (layout.reveal ++ layout.commit)) (hlen : bytes.length < 2 ^ 32) :
    (blockOfLayout bytes layout digest).commitments.val =
      (Layout.sortByStart layout.commit).map (signedOf digest) := by
  have hasc := Layout.ascending_sortByStart
    (fun r hr => htile.nonempty r (List.mem_append_right _ hr))
    (List.pairwise_append.mp htile.disjoint).2.1
  have hle := hasc.length_le (a := 0) (by simp) fun r hr => htile.inside r
    (List.mem_append_right _ ((Layout.perm_sortByStart _).mem_iff.mp hr))
  exact vecOf_val (by rw [List.length_map]; omega)

theorem opens_fixtureOf {hashPrefixed : Bytes → Bytes → ByteArrayOf 32}
    (htile : ∀ direction, Tiles (bytes direction).length
      ((layout direction).reveal ++ (layout direction).commit))
    (hlen : ∀ direction, (bytes direction).length < 2 ^ 32) (authority : Bytes) :
    List.Forall₂ (FixtureOpening.Opens hashPrefixed bytes)
      (fixtureOf hashPrefixed keccak256 session bytes layout authority).openings
      (entries (fixtureOf hashPrefixed keccak256 session bytes layout authority).data) := by
  let digest := digestOf hashPrefixed keccak256 session bytes layout
  have hentries : entries (fixtureOf hashPrefixed keccak256 session bytes layout authority).data =
      (entriesOf layout).map fun e => (e.1, signedOf (digest e.1) e.2) := by
    simp only [entries, fixtureOf, recordOfLayouts,
      commitments_blockOfLayout (htile _) (hlen _), entriesOf, List.map_append, List.map_map,
      Function.comp_def, digest]
  rw [hentries, fixtureOf, List.forall₂_map_left_iff, List.forall₂_map_right_iff,
    List.forall₂_same]
  intro e he
  have hspan : (signedOf (digest e.1) e.2).span = e.2 := DirectionBlock.signedOf_span
    (.of_tiles (htile e.1) (hlen e.1) (List.mem_append_right _ (mem_entriesOf.mp he)))
  refine ⟨rfl, by rw [hspan], _, rfl, ?_⟩
  rw [hspan]
  rfl

/-- Two layouts that account for their transcripts make a configuration that the verifier
takes, and a fixture that is one and the same whatever the library is free in: its record
signs both transcripts, and its openings open the record's commitments one by one. -/
theorem build_opens (lib : Notarization) (hlib : lib.Lawful) (keccak256 : Bytes → ByteArrayOf 32)
    (session : String) (bytes : Direction → Bytes) (layout : Direction → Layout)
    (authority : Bytes)
    (htile : ∀ direction, Tiles (bytes direction).length
      ((layout direction).reveal ++ (layout direction).commit))
    (hlen : ∀ direction, (bytes direction).length < 2 ^ 32)
    (hreveal : ∃ direction, (layout direction).reveal ≠ []) :
    (∃ config, configure lib (fun _ _ => .ok (layout .sent, layout .received)) (bytes .sent)
        (bytes .received) = .ok config ∧
      ∀ tlsTranscript, (∀ direction, TlsTranscript.dataLen tlsTranscript direction =
          (bytes direction).length) →
        VerifierSetup.examine tlsTranscript config.request = .acceptVerify tlsTranscript) ∧
    ∃ record, (∀ lib' : Notarization, lib'.Lawful → lib'.hashPrefixed = lib.hashPrefixed →
        build lib' keccak256 session bytes layout authority = some record) ∧
      (∃ digest : Direction → Range → ByteArrayOf 32, ∀ direction,
        Signs (record.data.block direction) (record.data.transcriptLength direction)
          (bytes direction) (layout direction) (digest direction)) ∧
      List.Forall₂ (FixtureOpening.Opens lib.hashPrefixed bytes) record.openings
        (entries record.data) := by
  constructor
  · obtain ⟨commit, hconfig, hperm⟩ :=
      hlib.configure htile (fun _ _ => .ok (layout .sent, layout .received)) rfl
    exact ⟨_, hconfig, fun tlsTranscript hdata =>
      VerifierSetup.examine_of_admits (admits_of_perm htile rfl rfl hperm hdata)⟩
  · refine ⟨fixtureOf lib.hashPrefixed keccak256 session bytes layout authority, ?_,
      ⟨digestOf lib.hashPrefixed keccak256 session bytes layout, fun direction => ?_⟩,
      opens_fixtureOf htile hlen authority⟩
    · intro lib' hlib' hhash
      rw [build_eq hlib' htile hlen hreveal, hhash]
    · cases direction with
      | sent => exact signs_blockOfLayout (htile .sent) (hlen .sent)
      | received => exact signs_blockOfLayout (htile .received) (hlen .received)

end Build

def clip (len : Nat) (s : RangeSet) : RangeSet :=
  if ∀ d ∈ s.ranges, d.stop ≤ len then s else .ofRanges []

theorem clip_inside (len : Nat) (s : RangeSet) : ∀ d ∈ (clip len s).ranges, d.stop ≤ len := by
  rw [clip]
  split
  case isTrue h => exact h
  case isFalse => exact fun d hd => absurd hd List.not_mem_nil

def blank (bytes : Bytes) (s : RangeSet) : Bytes :=
  bytes.zipIdx.map fun p => if s.ranges.any fun d => decide (p.2 ∈ d) then p.1 else 0

theorem length_blank (bytes : Bytes) (s : RangeSet) : (blank bytes s).length = bytes.length := by
  simp [blank]

theorem getElem?_blank {bytes : Bytes} {s : RangeSet} {i : Nat} (h : Covers s.ranges i) :
    (blank bytes s)[i]? = bytes[i]? := by
  obtain ⟨d, hd, hi⟩ := h
  have hany : (s.ranges.any fun d => decide (i ∈ d)) = true :=
    List.any_eq_true.mpr ⟨d, hd, decide_eq_true hi⟩
  rw [blank, List.getElem?_map, List.getElem?_zipIdx]
  cases bytes[i]? with
  | none => rfl
  | some b => simp only [Option.map_some, Nat.zero_add, hany, if_true]

def openedOnly (sent received : Bytes) (s r : RangeSet) : PartialTranscript where
  lenSent := sent.length
  lenReceived := received.length
  sentAuthed := clip sent.length s
  receivedAuthed := clip received.length r
  sentUnsafe := blank sent s
  receivedUnsafe := blank received r
  sent_inside := by
    rw [length_blank]
    exact clip_inside _ _
  received_inside := by
    rw [length_blank]
    exact clip_inside _ _

def Notarization.plain (hashPrefixed : Bytes → Bytes → ByteArrayOf 32) : Notarization where
  commit len r :=
    if h : r.start < r.stop ∧ r.stop ≤ len then .ok (.single r h.1) else .error "out of bounds"
  buildCommit := .ok
  reveal len r := if r.stop ≤ len then .ok () else .error "out of bounds"
  buildProve _ := .ok ()
  reveals sent recv :=
    if sent = [] ∧ recv = [] then none else some (.ofRanges sent, .ofRanges recv)
  toPartial := openedOnly
  hashPrefixed := hashPrefixed

theorem Notarization.plain_lawful (hashPrefixed : Bytes → Bytes → ByteArrayOf 32) :
    (plain hashPrefixed).Lawful where
  commit len r hne hin := ⟨.single r hne, dif_pos ⟨hne, hin⟩, fun _ => Iff.rfl⟩
  buildCommit items _ := ⟨items, rfl, .refl _⟩
  reveal _ _ hin := if_pos hin
  buildProve _ := rfl
  reveals sent recv h := ⟨.ofRanges sent, .ofRanges recv,
    if_neg fun hnone => h.elim (· hnone.1) (· hnone.2), RangeSet.ofRanges_isUnion _,
    RangeSet.ofRanges_isUnion _⟩
  toPartial sent recv s r hs hr := by
    have hsent : clip sent.length s = s := if_pos hs
    have hreceived : clip recv.length r = r := if_pos hr
    constructor
    · refine ⟨rfl, fun i => ?_, fun i hi => ?_⟩
      · exact Iff.of_eq (congrArg (fun s => Covers s.ranges i) hsent)
      · exact getElem?_blank (hsent ▸ hi)
    · refine ⟨rfl, fun i => ?_, fun i hi => ?_⟩
      · exact Iff.of_eq (congrArg (fun s => Covers s.ranges i) hreceived)
      · exact getElem?_blank (hreceived ▸ hi)

theorem build_opens_run : ∃ lib : Notarization, ∃ bytes layout record,
    build lib (fun _ => ⟨List.replicate 32 0, by decide⟩) "x token" bytes layout (ascii "a.b") =
      some record ∧
    record.openings.map (fun o => (o.direction, o.ranges)) = [(.received, [⟨0, 2⟩])] ∧
    List.Forall₂ (FixtureOpening.Opens lib.hashPrefixed bytes) record.openings
      (entries record.data) := by
  let hash : Bytes → Bytes → ByteArrayOf 32 := fun plaintext blinder =>
    ⟨(plaintext ++ blinder ++ List.replicate 32 0).take 32, by simp; omega⟩
  let bytes : Direction → Bytes := fun direction =>
    if direction = .sent then [1, 2] else [3, 4, 5]
  let layout : Direction → Layout := fun direction =>
    if direction = .sent then ⟨[⟨0, 2⟩], []⟩ else ⟨[⟨2, 3⟩], [⟨0, 2⟩]⟩
  have htile : ∀ direction, Tiles (bytes direction).length
      ((layout direction).reveal ++ (layout direction).commit) := by
    rintro (_ | _)
    · exact (walk_zero_iff (by decide)).mp rfl
    · have htiles : Tiles 3 [⟨0, 2⟩, ⟨2, 3⟩] := (walk_zero_iff (by decide)).mp rfl
      exact htiles.perm (.swap ..)
  obtain ⟨-, record, hbuild, -, hopens⟩ := build_opens (.plain hash)
    (Notarization.plain_lawful hash)
    (fun _ => ⟨List.replicate 32 0, by decide⟩) "x token" bytes layout (ascii "a.b") htile
    (by rintro (_ | _) <;> decide) ⟨.sent, by decide⟩
  have hrecord := hbuild (.plain hash) (Notarization.plain_lawful hash) rfl
  refine ⟨.plain hash, bytes, layout, record, hrecord, ?_, hopens⟩
  have hranges := congrArg (Option.map fun r =>
    r.openings.map fun o => (o.direction, o.ranges)) hrecord
  exact (Option.some.inj hranges).symm

end Libid.Tlsn
