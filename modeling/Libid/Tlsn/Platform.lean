import Libid.Base.Count
import Libid.Tlsn.Build
import Libid.Tlsn.Coverage
import Libid.Transcript.Headers
import Libid.Transcript.Layouts

/-! What a Platform Verifier demands of the two records that hide the bearer, as the
ceremony's own test makes the demands: of a token response, and of the head of an identity
request. -/

namespace Libid.Tlsn

open Ceremony Transcript

/-! ### `ceremony_end_to_end.rs` -/

def hash32 (byte : UInt8) : ByteArrayOf 32 := ⟨List.replicate 32 byte, List.length_replicate⟩

def hashAt (direction : Direction) (first : UInt8) (item : Range × Nat) : PlaintextHash :=
  ⟨direction, idxOf item.1, .sha256, (hash32 (UInt8.ofNat item.2 + first)).val⟩

def hashesOf (direction : Direction) (first : UInt8) (ranges : List Range) :
    List TranscriptCommitment :=
  ranges.zipIdx.map fun item => .hash (hashAt direction first item)

/-- The session a notary's verifier holds once a prover has disclosed two layouts. -/
def observed (lib : Notarization) (sent recv : Bytes) (sl rl : Layout) (createdAt : UInt64) :
    ObservedSession where
  transcript := lib.toPartial sent recv (.ofRanges sl.reveal) (.ofRanges rl.reveal)
  authority := ascii "api.x.com"
  commitments := hashesOf .sent 1 sl.commit ++ hashesOf .received 100 rl.commit
  createdAt := createdAt

/-- `r.start + r.bytes.len() as u32 == pos`. -/
def endsAt (r : RevealedRange) (pos : UInt32) : Bool := endOf r == some pos

/-- The commitments that stand right behind an access token's opening delimiter. -/
def framed (block : DirectionBlock) : List RangeCommitment :=
  block.commitments.val.filter fun c => block.revealed.val.any fun r =>
    endsAt r c.start && (ascii "\"access_token\":\"").isSuffixOf r.bytes.val

/-- The assertions on a token response.  An offset that overflows has failed the first. -/
def tokenResponseAccepted (bearer : Bytes) (block : DirectionBlock) (length : UInt32) : Bool :=
  assertTiles block length && (framed block).length == 1 && count (joined block) bearer == 0

/-- `min_by_key`: the first of the ranges that none begins before. -/
def minByStart : List RevealedRange → Option RevealedRange
  | [] => none
  | r :: rs =>
    match minByStart rs with
    | none => some r
    | some m => if r.start ≤ m.start then some r else some m

def opensWith (line : Bytes) (block : DirectionBlock) : Bool :=
  match minByStart block.revealed.val with
  | none => false
  | some first => first.start == 0 && line.isPrefixOf first.bytes.val

def framesBearer (block : DirectionBlock) : Bool :=
  match block.commitments.val with
  | [bearer] =>
    match block.revealed.val.find? (endsAt · bearer.start) with
    | none => false
    | some before =>
      match block.revealed.val.find? (·.start == bearer.stop) with
      | none => false
      | some after =>
        Layout.bearerPrefix.isSuffixOf before.bytes.val && crlf.isPrefixOf after.bytes.val
  | _ => false

/-- `to_ascii_lowercase`, then `retain` of what is no blank. -/
def normalize (bs : Bytes) : Bytes := (lowercase bs).filter (!isBlank ·)

/-- The assertions on an identity request whose request line begins with `line`. -/
def identityRequestAccepted (line : Bytes) (block : DirectionBlock) (length : UInt32) : Bool :=
  assertTiles block length && opensWith line block && framesBearer block &&
    count (normalize (joined block)) (ascii "\r\nauthorization:bearer") == 1

/-! ### The record of a session of one layout -/

structure ObservedSession.Discloses (session : ObservedSession) (direction : Direction)
    (bytes : Bytes) (layout : Layout) : Prop where
  opens : session.transcript.Opens direction bytes layout.reveal
  hashes : (session.hashedRanges direction).Perm layout.commit

structure TwoReveals (block : DirectionBlock) (bytes : Bytes) (r t : Range) : Prop where
  exists_entries : ∃ x y, block.revealed.val = [x, y] ∧ x.span = r ∧ x.bytes.val = slice bytes r ∧
    y.span = t ∧ y.bytes.val = slice bytes t
  joined : Tlsn.joined block = slice bytes r ++ slice bytes t

variable {session : ObservedSession} {direction : Direction} {block : DirectionBlock}
  {bytes : Bytes} {layout : Layout}

theorem hashed_hashesOf (direction : Direction) (first : UInt8) {ranges : List Range}
    (hne : ∀ r ∈ ranges, r.start < r.stop) :
    ((hashesOf direction first ranges).filterMap (·.hashed direction)).flatMap (·.idx.ranges) =
      ranges := by
  have hown : (hashesOf direction first ranges).filterMap (·.hashed direction) =
      ranges.zipIdx.map (hashAt direction first) := by
    rw [hashesOf, List.filterMap_map, ← List.filterMap_eq_map]
    exact List.filterMap_congr fun item _ => if_pos rfl
  have hidx : ∀ item ∈ ranges.zipIdx, (hashAt direction first item).idx.ranges = [item.1] :=
    fun item hmem => idxOf_ranges (hne item.1 (List.fst_mem_of_mem_zipIdx hmem))
  rw [hown, List.flatMap_map, List.flatMap_congr hidx, ← List.map_eq_flatMap,
    List.zipIdx_map_fst]

theorem hashed_hashesOf_other {other : Direction} (h : other ≠ direction) (first : UInt8)
    (ranges : List Range) : (hashesOf other first ranges).filterMap (·.hashed direction) = [] := by
  rw [List.filterMap_eq_nil_iff]
  intro _ hmem
  obtain ⟨-, -, rfl⟩ := List.mem_map.mp hmem
  exact if_neg h

theorem observed_discloses {lib : Notarization} (hlib : lib.Lawful) {sent recv : Bytes}
    {sl rl : Layout} (hsl : sl.Accounts sent.length) (hrl : rl.Accounts recv.length)
    (createdAt : UInt64) :
    (observed lib sent recv sl rl createdAt).Discloses .sent sent sl ∧
      (observed lib sent recv sl rl createdAt).Discloses .received recv rl := by
  have hsent := RangeSet.ofRanges_isUnion sl.reveal
  have hrecv := RangeSet.ofRanges_isUnion rl.reveal
  obtain ⟨hopens, hopensRecv⟩ := hlib.toPartial sent recv (.ofRanges sl.reveal)
    (.ofRanges rl.reveal) (hsent.inside fun r hr => hsl.tiles.inside r (by simp [hr]))
    (hrecv.inside fun r hr => hrl.tiles.inside r (by simp [hr]))
  have hhashes := hashed_hashesOf .sent 1 fun r hr =>
    hsl.tiles.nonempty r (List.mem_append_right sl.reveal hr)
  have hhashesRecv := hashed_hashesOf .received 100 fun r hr =>
    hrl.tiles.nonempty r (List.mem_append_right rl.reveal hr)
  constructor
  · refine ⟨⟨hopens.len, fun i => (hopens.authed i).trans (hsent i), hopens.data⟩, .of_eq ?_⟩
    rw [ObservedSession.hashedRanges, observed, List.filterMap_append,
      hashed_hashesOf_other (by decide) 100, List.append_nil]
    exact hhashes
  · refine ⟨⟨hopensRecv.len, fun i => (hopensRecv.authed i).trans (hrecv i), hopensRecv.data⟩,
      .of_eq ?_⟩
    rw [ObservedSession.hashedRanges, observed, List.filterMap_append,
      hashed_hashesOf_other (by decide) 1, List.nil_append]
    exact hhashesRecv

theorem ObservedSession.Discloses.authed (h : session.Discloses direction bytes layout)
    (hne : ∀ r ∈ layout.reveal, r.start < r.stop)
    (hsep : layout.reveal.Pairwise fun a b => a.stop < b.start) :
    (session.transcript.authed direction).ranges = layout.reveal :=
  RangeSet.ext_covers (t := ⟨layout.reveal, hne, hsep⟩) h.opens.authed

theorem Reports.twoReveals (h : Reports session direction block)
    (hd : session.Discloses direction bytes layout) {r t : Range} (hreveal : layout.reveal = [r, t])
    (hr : r.start < r.stop) (ht : t.start < t.stop) (hrt : r.stop < t.start) :
    TwoReveals block bytes r t := by
  have hauthed : (session.transcript.authed direction).ranges = [r, t] := by
    rw [← hreveal]
    refine hd.authed ?_ ?_
    · simpa [hreveal] using ⟨hr, ht⟩
    · simpa [hreveal] using hrt
  have hslice : ∀ u ∈ [r, t], slice (session.transcript.data direction) u = slice bytes u :=
    fun u hu => hd.opens.slice_eq (hauthed ▸ hu)
  have hrevealed := h.revealed
  rw [hauthed, List.map_cons, List.map_cons, List.map_nil, hslice r (by simp),
    hslice t (by simp)] at hrevealed
  constructor
  · obtain ⟨x, rest, hxy, hx, hrest⟩ := List.map_eq_cons_iff.mp hrevealed
    obtain ⟨y, rest, rfl, hy, hrest⟩ := List.map_eq_cons_iff.mp hrest
    obtain rfl := List.map_eq_nil_iff.mp hrest
    obtain ⟨hxspan, hxbytes⟩ := Prod.mk.inj hx
    obtain ⟨hyspan, hybytes⟩ := Prod.mk.inj hy
    exact ⟨x, y, hxy, hxspan, hxbytes, hyspan, hybytes⟩
  · rw [h.joined, hauthed, List.flatMap_cons, List.flatMap_cons, List.flatMap_nil,
      List.append_nil, hslice r (by simp), hslice t (by simp)]

theorem Reports.commits (h : Reports session direction block)
    (hd : session.Discloses direction bytes layout) :
    block.commitmentSpans.Perm layout.commit := h.commitmentSpans.trans hd.hashes

theorem ObservedSession.Discloses.tiles (hd : session.Discloses direction bytes layout)
    (hacc : layout.Accounts bytes.length) : Tiles (session.transcript.len direction)
      ((session.transcript.authed direction).ranges ++ session.hashedRanges direction) := by
  have hcommit := (List.pairwise_append.mp hacc.tiles.disjoint).2.1
  have hsorted := hd.opens.authed.tiles hacc.tiles (Layout.perm_sortByStart layout.commit)
    (Layout.ascending_sortByStart
      (fun r hr => hacc.tiles.nonempty r (List.mem_append_right _ hr)) hcommit)
  rw [hd.opens.len]
  exact hsorted.perm
    (((Layout.perm_sortByStart _).trans hd.hashes.symm).append_left _)

theorem Reports.tiles (h : Reports session direction block)
    (hd : session.Discloses direction bytes layout) (hacc : layout.Accounts bytes.length)
    {length : UInt32} (hlen : length.toNat = session.transcript.len direction) :
    assertTiles block length = true := by
  rw [h.assertTiles_iff, hlen]
  exact hd.tiles hacc

theorem eq_of_isSuffix_concat {x y : Bytes} {a b : UInt8} (h : x ++ [a] <:+ y ++ [b]) :
    x <:+ y ∧ a = b := by
  obtain ⟨t, ht⟩ := h
  rw [← List.append_assoc] at ht
  obtain ⟨hxy, hab⟩ := List.append_inj' ht rfl
  exact ⟨⟨t, hxy⟩, (List.cons.inj hab).1⟩

theorem eq_nil_of_isSuffix {x y ws : Bytes} {a : UInt8} (ha : isJsonWhitespace a = false)
    (hws : ∀ b ∈ ws, isJsonWhitespace b) (h : x ++ [a] <:+ y ++ ws) : ws = [] := by
  rcases List.eq_nil_or_concat ws with rfl | ⟨u, b, rfl⟩
  · rfl
  · rw [List.concat_eq_append] at hws h
    rw [← List.append_assoc] at h
    obtain ⟨-, rfl⟩ := eq_of_isSuffix_concat h
    exact absurd (hws a (List.mem_append_right _ List.mem_cons_self)) (by simp [ha])

theorem isSuffix_delimiter_iff {ws ws' : Bytes} (hws : ∀ b ∈ ws, isJsonWhitespace b)
    (hws' : ∀ b ∈ ws', isJsonWhitespace b) :
    ascii "\"access_token\":\"" <:+
        quotedKey Layout.accessToken ++ ws ++ [colon] ++ ws' ++ [quote] ↔
      quotedKey Layout.accessToken ++ ws ++ [colon] ++ ws' ++ [quote] =
        ascii "\"access_token\":\"" := by
  have hneedle : ascii "\"access_token\":\"" =
      quote :: Layout.accessToken ++ [quote] ++ [colon] ++ [quote] := by decide
  refine ⟨fun h => ?_, fun h => h ▸ List.suffix_rfl⟩
  rw [hneedle] at h ⊢
  obtain ⟨h, -⟩ := eq_of_isSuffix_concat h
  obtain rfl := eq_nil_of_isSuffix (by decide) hws' h
  rw [List.append_nil] at h ⊢
  obtain ⟨h, -⟩ := eq_of_isSuffix_concat h
  obtain rfl := eq_nil_of_isSuffix (by decide) hws h
  rw [List.append_nil]
  rfl

theorem endsAt_iff {r : RevealedRange} (hfit : r.start.toNat + r.bytes.val.length < 2 ^ 32)
    {pos : UInt32} : endsAt r pos = true ↔ pos.toNat = r.span.stop := by
  rw [endsAt, beq_iff_eq, endOf_eq_some ((Nat.le_add_left ..).trans_lt hfit), eq_comm]
  rfl

theorem length_framed_iff (h : Reports session direction block) {a b c d len : Nat}
    (hreveals : TwoReveals block bytes ⟨a, b⟩ ⟨c, d⟩) (hab : a < b) (hbc : b < c) (hcd : c < d)
    (hcommits : block.commitmentSpans.Perm
      (Layout.revealing [⟨a, b⟩, ⟨c, d⟩] len).commit)
    (hclosing : slice bytes ⟨c, d⟩ = [quote]) :
    (framed block).length = 1 ↔ ascii "\"access_token\":\"" <:+ slice bytes ⟨a, b⟩ := by
  obtain ⟨x, y, hval, hx, hxb, -, hyb⟩ := hreveals.exists_entries
  have hfit := h.fits x (by simp [hval])
  have hframes : ∀ commitment : RangeCommitment,
      (block.revealed.val.any fun r => endsAt r commitment.start &&
        (ascii "\"access_token\":\"").isSuffixOf r.bytes.val) =
      (decide (commitment.span.start = b) &&
        decide (ascii "\"access_token\":\"" <:+ slice bytes ⟨a, b⟩)) := by
    intro commitment
    have hlast : (ascii "\"access_token\":\"").isSuffixOf y.bytes.val = false := by
      rw [hyb, hclosing]
      decide
    have hend : endsAt x commitment.start = decide (commitment.span.start = b) := by
      rw [Bool.eq_iff_iff, endsAt_iff hfit, hx, decide_eq_true_eq]
      rfl
    rw [hval, List.any_cons, List.any_cons, List.any_nil, hlast, hend, hxb, Bool.and_false,
      Bool.or_false, Bool.or_false]
    congr 1
    rw [Bool.eq_iff_iff, List.isSuffixOf_iff_suffix, decide_eq_true_eq]
  have hcount := hcommits.countP_eq fun r => decide (r.start = b) &&
    decide (ascii "\"access_token\":\"" <:+ slice bytes ⟨a, b⟩)
  rw [DirectionBlock.commitmentSpans, List.countP_map, Layout.revealing_two_commit hab hbc.le hcd,
    if_pos hbc] at hcount
  -- Of the three places where something is committed, one begins where the delimiter ends.
  have hhead : ¬ 0 = b := by omega
  have htail : ¬ d = b := by omega
  have hzero : List.countP (fun r : Range => decide (r.start = b) &&
      decide (ascii "\"access_token\":\"" <:+ slice bytes ⟨a, b⟩))
      (if 0 < a then [⟨0, a⟩] else []) = 0 := by
    split <;> simp [hhead]
  have hrest : List.countP (fun r : Range => decide (r.start = b) &&
      decide (ascii "\"access_token\":\"" <:+ slice bytes ⟨a, b⟩))
      (if d < len then [⟨d, len⟩] else []) = 0 := by
    split <;> simp [htail]
  rw [List.countP_append, List.countP_append, hzero, hrest, List.countP_singleton] at hcount
  rw [framed, ← List.countP_eq_length_filter, List.countP_congr fun c _ => by rw [hframes c]]
  refine (Eq.congr_left hcount).trans ?_
  simp

theorem exists_placesBearer {recv : Bytes} {l : Layout} (h : Layout.tokenResponse recv = .ok l) :
    ∃ a b c d, a < b ∧ c < d ∧ l = Layout.revealing [⟨a, b⟩, ⟨c, d⟩] recv.length ∧
      l.Accounts recv.length ∧ Layout.PlacesBearer recv l a b c d := by
  obtain ⟨n, s, c, q, e, -, -, hmem, hne, rfl⟩ := Layout.tokenResponse_memberAt h
  obtain ⟨hacc, hplaces⟩ := Layout.memberAt_places hmem hne
  refine ⟨_, _, _, _, ?_, Nat.lt_succ_self _, rfl, hacc, hplaces⟩
  have := (memberAt_drop.mp hmem).keyAt.lt
  have := (memberAt_drop.mp hmem).ws.le
  omega

/-- The verifier accepts the record of a token response exactly when the response spells its
member without a blank, and the bearer cannot be read in the member's name. -/
theorem tokenResponseAccepted_iff (keccak256 : Bytes → ByteArrayOf 32) (session : ObservedSession)
    (hin : session.Inside) (hcount : session.commitments.length < 256 ^ 8)
    {record : AttestedData} (h : AttestedData.fromObserved keccak256 session = .ok record)
    {recv : Bytes} {l : Layout} (hl : Layout.tokenResponse recv = .ok l)
    (hd : session.Discloses .received recv l) {bearer : Bytes} (hne : bearer ≠ []) :
    tokenResponseAccepted bearer record.received record.recvTranscriptLength = true ↔
      (∃ r ∈ l.reveal, slice recv r = ascii "\"access_token\":\"") ∧
        ¬ bearer <:+: ascii "\"access_token\":\"\"" := by
  obtain ⟨hreports, hlen⟩ := reports_fromObserved hin hcount h .received
  obtain ⟨a, b, c, d, hab, hcd, rfl, hacc, hplaces⟩ := exists_placesBearer hl
  have htwo := hreports.twoReveals hd hplaces.reveal hab hcd hplaces.lt
  have htiles : assertTiles record.received record.recvTranscriptLength = true :=
    hreports.tiles hd hacc hlen
  have hframed := length_framed_iff hreports htwo hab hplaces.lt hcd (hreports.commits hd)
    hplaces.closing
  have hshort : (framed record.received).length = 1 ↔
      slice recv ⟨a, b⟩ = ascii "\"access_token\":\"" := by
    obtain ⟨ws, ws', hws, hws', hopening⟩ := hplaces.opening
    rw [hopening] at hframed ⊢
    exact hframed.trans (isSuffix_delimiter_iff hws hws')
  have hjoined : joined record.received = slice recv ⟨a, b⟩ ++ [quote] :=
    hplaces.closing ▸ htwo.joined
  have hreveal : (∃ r ∈ (Layout.revealing [⟨a, b⟩, ⟨c, d⟩] recv.length).reveal,
      slice recv r = ascii "\"access_token\":\"") ↔
        slice recv ⟨a, b⟩ = ascii "\"access_token\":\"" := by
    have hclosing : ¬ [quote] = ascii "\"access_token\":\"" := by decide
    rw [hplaces.reveal]
    simp [hplaces.closing, hclosing]
  rw [hreveal, tokenResponseAccepted, htiles, Bool.true_and, Bool.and_eq_true, beq_iff_eq,
    beq_iff_eq, hshort, hjoined]
  refine and_congr_right fun hcompact => ?_
  rw [hcompact, count_eq_zero_iff hne]
  rfl

def bearerField : Bytes := ascii "authorization: Bearer "

/-- The field is a bearer's to a reader that knows neither case nor blanks. -/
def ClaimsBearer (f : Field) : Prop := ascii "authorization:bearer" <+: normalize f.line

instance : DecidablePred ClaimsBearer := fun _ => inferInstanceAs (Decidable (_ <+: _))

/-- The field is spelled as the layout looks for it, and has a bearer in it. -/
def CarriesBearer (f : Field) : Prop := ∃ bearer, f.line = bearerField ++ bearer ∧ bearer ≠ []

theorem fieldLines_eq_joinLines (fields : List Field) :
    fieldLines fields = joinLines 0x0d [0x0a] (fields.map Field.line) := by
  rw [fieldLines, joinLines, List.flatMap_map]
  rfl

theorem normalize_append (x y : Bytes) : normalize (x ++ y) = normalize x ++ normalize y := by
  rw [normalize, lowercase_append, List.filter_append]
  rfl

theorem cr_notMem_normalize {bs : Bytes} (h : 0x0d ∉ bs) : 0x0d ∉ normalize bs := by
  intro hmem
  obtain ⟨b, hb, hlower⟩ := List.mem_map.mp (List.mem_of_mem_filter hmem)
  exact h (toAsciiLowercase_eq_cr hlower ▸ hb)

theorem normalize_joinLines (lines : List Bytes) :
    normalize (joinLines 0x0d [0x0a] lines) = joinLines 0x0d [0x0a] (lines.map normalize) := by
  induction lines with
  | nil => rfl
  | cons line lines ih =>
    rw [joinLines_cons, normalize_append, ih, List.map_cons, joinLines_cons]
    rfl

theorem count_normalize {status : Bytes} (hstatus : 0x0d ∉ status) {lines : List Bytes}
    (hlines : ∀ line ∈ lines, 0x0d ∉ line) :
    count (normalize (status ++ (joinLines 0x0d [0x0a] lines ++ headBoundary)))
        (ascii "\r\nauthorization:bearer") =
      lines.countP (ascii "authorization:bearer" <+: normalize ·) := by
  have hneedle : ascii "\r\nauthorization:bearer" =
      0x0d :: ([0x0a] ++ ascii "authorization:bearer") := by decide
  have hstop : normalize headBoundary = 0x0d :: [0x0a, 0x0d, 0x0a] := rfl
  have hnormal : ∀ line ∈ lines.map normalize, (0x0d : UInt8) ∉ line := by
    intro _ hmem
    obtain ⟨line, hline, rfl⟩ := List.mem_map.mp hmem
    exact cr_notMem_normalize (hlines line hline)
  rw [normalize_append, normalize_append, normalize_joinLines, hneedle, hstop,
    count_append_of_notMem (cr_notMem_normalize hstatus),
    count_joinLines (by decide) (by decide) hnormal, List.countP_map]
  rfl

def before (request : Head) (x : List Field) : Bytes :=
  request.status ++ (fieldLines x ++ Layout.bearerPrefix)

def after (y : List Field) : Bytes := fieldLines y ++ headBoundary

structure CutAt (request : Head) (l : Layout) (x : List Field) (f : Field) (y : List Field)
    (bearer : Bytes) : Prop where
  fields : request.fields = x ++ f :: y
  line : f.line = bearerField ++ bearer
  bytes : request.bytes = before request x ++ (bearer ++ after y)
  layout : l = Layout.revealing [⟨0, (before request x).length⟩,
    ⟨(before request x).length + bearer.length, request.bytes.length⟩] request.bytes.length

theorem exists_cutAt {request : Head} {l : Layout}
    (h : Layout.identityRequest request.bytes = .ok l) :
    ∃ x f y bearer, CutAt request l x f y bearer := by
  obtain ⟨p, k, hp, hk, rfl⟩ := Layout.identityRequest_eq_ok.mp h
  have hbegins : Layout.bearerPrefix = 0x0d :: ([0x0a] ++ bearerField) := by decide
  have hboundary : headBoundary = 0x0d :: [0x0a, 0x0d, 0x0a] := rfl
  have hstatus : request.status.length ≤ p := by
    by_contra hlt
    have hcr := hp.1.getElem? (k := 0) (a := 0x0d) (by rw [hbegins]; rfl)
    rw [Nat.add_zero, Head.bytes, List.getElem?_append_left (by omega)] at hcr
    exact request.status_cr (List.mem_of_getElem? hcr)
  obtain ⟨i, rfl⟩ := Nat.exists_eq_add_of_le hstatus
  have hi := hp.1
  rw [Head.bytes, Occurs, ← List.drop_drop, List.drop_left, fieldLines_eq_joinLines, hbegins,
    hboundary] at hi
  have hlines : ∀ line ∈ request.fields.map Field.line, (0x0d : UInt8) ∉ line := by
    intro _ hmem
    obtain ⟨f, -, rfl⟩ := List.mem_map.mp hmem
    exact f.line_cr
  rcases occurs_joinLines (by decide) (by decide) hlines _ hi with
    ⟨x, line, y, hsplit, ⟨bearer, hbearer⟩, rfl⟩ | ⟨j, -, hj⟩
  case inr =>
    have := hj.le_length (by simp)
    simp [bearerField, ascii] at this
  obtain ⟨x, y', hfields, rfl, hy⟩ := List.map_eq_append_iff.mp hsplit
  obtain ⟨f, y, rfl, rfl, rfl⟩ := List.map_eq_cons_iff.mp hy
  rw [← fieldLines_eq_joinLines] at hk ⊢
  have hbytes : request.bytes = before request x ++ (bearer ++ after y) := by
    rw [Head.bytes, hfields, fieldLines, List.flatMap_append, List.flatMap_cons, ← fieldLines,
      ← fieldLines, ← hbearer, before, after,
      show Layout.bearerPrefix = crlf ++ bearerField from rfl]
    simp
  have hstart : request.status.length + (fieldLines x).length + Layout.bearerPrefix.length =
      (before request x).length := by
    rw [before, List.length_append, List.length_append, Nat.add_assoc]
  have hcr : 0x0d ∉ bearer := fun hmem =>
    f.line_cr (hbearer ▸ List.mem_append_right bearerField hmem)
  obtain ⟨t, ht⟩ := fieldLines_append_crlf y crlf
  have hrest : request.bytes.drop (before request x).length = bearer ++ (crlf ++ t) := by
    rw [hbytes, List.drop_left, ← ht]
    rfl
  rw [hstart, hrest] at hk
  obtain rfl := hk.unique (firstAt_crlf hcr t)
  exact ⟨x, f, y, bearer, hfields, hbearer.symm, hbytes, by rw [hstart]⟩

namespace CutAt

variable {request : Head} {l : Layout} {x y : List Field} {f : Field} {bearer : Bytes}

theorem before_pos (request : Head) (x : List Field) : 0 < (before request x).length := by
  have : 0 < Layout.bearerPrefix.length := by decide
  rw [before, List.length_append, List.length_append]
  omega

theorem after_pos (y : List Field) : 0 < (after y).length := by
  have : 0 < headBoundary.length := by decide
  rw [after, List.length_append]
  omega

theorem length_bytes (h : CutAt request l x f y bearer) : request.bytes.length =
    (before request x).length + bearer.length + (after y).length := by
  rw [h.bytes, List.length_append, List.length_append, Nat.add_assoc]

theorem slice_before (h : CutAt request l x f y bearer) :
    slice request.bytes ⟨0, (before request x).length⟩ = before request x := by
  rw [h.bytes, slice, List.drop_zero, Nat.sub_zero, List.take_left]

theorem slice_after (h : CutAt request l x f y bearer) :
    slice request.bytes ⟨(before request x).length + bearer.length, request.bytes.length⟩ =
      after y := by
  have hlen := h.length_bytes
  rw [slice, hlen, Nat.add_sub_cancel_left, h.bytes, ← List.append_assoc,
    ← List.length_append, List.drop_left, List.take_length]

theorem accounts (h : CutAt request l x f y bearer) : l.Accounts request.bytes.length := by
  have hlen := h.length_bytes
  have hafter := after_pos y
  rw [h.layout]
  exact (Layout.revealing_two (before_pos request x) (Nat.le_add_right ..) (by omega) le_rfl).1

theorem commit (h : CutAt request l x f y bearer) : l.commit =
    if bearer = [] then []
    else [⟨(before request x).length, (before request x).length + bearer.length⟩] := by
  have hlen := h.length_bytes
  have hafter := after_pos y
  rw [h.layout, Layout.revealing_two_commit (before_pos request x) (Nat.le_add_right ..)
    (by omega), if_neg (Nat.lt_irrefl 0), if_neg (Nat.lt_irrefl _)]
  by_cases hne : bearer = []
  · simp [hne]
  · have hpos := List.length_pos_of_ne_nil hne
    rw [if_neg hne, if_pos (by omega)]
    rfl

theorem before_append_after (request : Head) (x y : List Field) :
    before request x ++ after y = request.status ++ (joinLines 0x0d [0x0a]
      (x.map Field.line ++ bearerField :: y.map Field.line) ++ headBoundary) := by
  rw [joinLines_append, joinLines_cons, ← fieldLines_eq_joinLines, ← fieldLines_eq_joinLines,
    before, after, show Layout.bearerPrefix = 0x0d :: ([0x0a] ++ bearerField) by decide]
  simp

theorem claims (h : CutAt request l x f y bearer) : ClaimsBearer f := by
  rw [ClaimsBearer, h.line, normalize_append]
  exact (show ascii "authorization:bearer" = normalize bearerField by decide) ▸
    List.prefix_append ..

theorem count_eq (h : CutAt request l x f y bearer) :
    count (normalize (before request x ++ after y)) (ascii "\r\nauthorization:bearer") =
      (request.fields.filter ClaimsBearer).length := by
  have hlines : ∀ line ∈ x.map Field.line ++ bearerField :: y.map Field.line,
      (0x0d : UInt8) ∉ line := by
    intro line hmem
    rcases List.mem_append.mp hmem with hmem | hmem
    · obtain ⟨g, -, rfl⟩ := List.mem_map.mp hmem
      exact g.line_cr
    · rcases List.mem_cons.mp hmem with rfl | hmem
      · decide
      · obtain ⟨g, -, rfl⟩ := List.mem_map.mp hmem
        exact g.line_cr
  have hbearer : ascii "authorization:bearer" <+: normalize bearerField := by decide
  rw [before_append_after, count_normalize request.status_cr hlines, h.fields,
    ← List.countP_eq_length_filter, List.countP_append, List.countP_append, List.countP_cons,
    List.countP_cons, List.countP_map, List.countP_map, if_pos (by simpa using hbearer),
    if_pos (by simpa using h.claims)]
  rfl

end CutAt

theorem commitments_of_spans {b : DirectionBlock} {r : Range} (h : b.commitmentSpans.Perm [r]) :
    ∃ c, b.commitments.val = [c] ∧ c.span = r := by
  obtain ⟨c, rest, hval, hc, hrest⟩ := List.map_eq_cons_iff.mp (List.perm_singleton.mp h)
  obtain rfl := List.map_eq_nil_iff.mp hrest
  exact ⟨c, hval, hc⟩

theorem framesBearer_of_nil (h : block.commitments.val = []) : framesBearer block = false := by
  rw [framesBearer, h]

section Cut

variable {request : Head} {l : Layout} {x y : List Field} {f : Field} {bearer line : Bytes}

theorem CutAt.twoReveals (hcut : CutAt request l x f y bearer) (h : Reports session .sent block)
    (hd : session.Discloses .sent request.bytes l) (hne : bearer ≠ []) :
    TwoReveals block request.bytes ⟨0, (before request x).length⟩
      ⟨(before request x).length + bearer.length, request.bytes.length⟩ := by
  have hlen := hcut.length_bytes
  have hbefore := CutAt.before_pos request x
  have hafter := CutAt.after_pos y
  have hpos := List.length_pos_of_ne_nil hne
  refine h.twoReveals hd ?_ hbefore (by simp only; omega) (Nat.lt_add_of_pos_right hpos)
  rw [hcut.layout]
  exact (Layout.revealing_two hbefore (Nat.le_add_right ..) (by omega) le_rfl).2

theorem CutAt.opensWith_iff (hcut : CutAt request l x f y bearer) (hline : 0x0d ∉ line)
    (htwo : TwoReveals block request.bytes ⟨0, (before request x).length⟩
      ⟨(before request x).length + bearer.length, request.bytes.length⟩) :
    opensWith line block = true ↔ line <+: request.status := by
  obtain ⟨r, t, hval, hr, hrb, -, -⟩ := htwo.exists_entries
  have hstart : r.start = 0 := UInt32.toNat_inj.mp (congrArg Range.start hr)
  have hmin : minByStart block.revealed.val = some r := by
    have hle : r.start ≤ t.start := by
      rw [hstart]
      exact UInt32.le_iff_toNat_le.mpr (Nat.zero_le _)
    rw [hval, minByStart, minByStart, minByStart]
    exact if_pos hle
  have hbefore : ∃ rest, before request x = request.status ++ 0x0d :: rest := by
    obtain ⟨t, ht⟩ := fieldLines_append_crlf x bearerField
    exact ⟨_, congrArg (request.status ++ ·) ht⟩
  obtain ⟨rest, hrest⟩ := hbefore
  rw [opensWith, hmin]
  simp only [hstart, BEq.rfl, Bool.true_and, List.isPrefixOf_iff_prefix]
  rw [hrb, hcut.slice_before, hrest, isPrefix_append_cons_iff hline]

theorem CutAt.framesBearer (hcut : CutAt request l x f y bearer) (h : Reports session .sent block)
    (hd : session.Discloses .sent request.bytes l) (hne : bearer ≠ []) :
    framesBearer block = true := by
  obtain ⟨r, t, hval, hr, hrb, ht, htb⟩ := (hcut.twoReveals h hd hne).exists_entries
  have hspans := h.commits hd
  rw [hcut.commit, if_neg hne] at hspans
  obtain ⟨c, hcommitments, hc⟩ := commitments_of_spans hspans
  have hfit := h.fits r (by simp [hval])
  have hbefore : block.revealed.val.find? (endsAt · c.start) = some r := by
    rw [hval, List.find?_cons_of_pos]
    rw [endsAt_iff hfit, hr]
    exact congrArg Range.start hc
  have hafter : block.revealed.val.find? (·.start == c.stop) = some t := by
    have hstart : r.start.toNat = 0 := congrArg Range.start hr
    have hstop : t.start.toNat = c.stop.toNat :=
      (congrArg Range.start ht).trans (congrArg Range.stop hc).symm
    have hpos := CutAt.before_pos request x
    have hcstop := congrArg Range.stop hc
    rw [hval, List.find?_cons_of_neg, List.find?_cons_of_pos]
    · rw [beq_iff_eq]
      exact UInt32.toNat_inj.mp hstop
    · rw [beq_iff_eq, ← UInt32.toNat_inj, hstart]
      simp only [RangeCommitment.span] at hcstop
      omega
  have hsuffix : Layout.bearerPrefix <:+ before request x :=
    ⟨request.status ++ fieldLines x, List.append_assoc ..⟩
  have hbegins : crlf <+: after y := by
    obtain ⟨rest, hrest⟩ := fieldLines_append_crlf y crlf
    exact ⟨rest, hrest.symm⟩
  rw [Tlsn.framesBearer, hcommitments]
  simp only [hbefore, hafter, hrb, htb, hcut.slice_before, hcut.slice_after, Bool.and_eq_true,
    List.isSuffixOf_iff_suffix, List.isPrefixOf_iff_prefix]
  exact ⟨hsuffix, hbegins⟩

end Cut

/-- The verifier accepts the record of a request of field lines exactly when the request line
is the one it expects, one field claims a bearer in whatever case and with whatever blanks, and
that field is spelled as the layout looks for it and holds something. -/
theorem identityRequestAccepted_iff (keccak256 : Bytes → ByteArrayOf 32)
    (session : ObservedSession) (hin : session.Inside)
    (hcount : session.commitments.length < 256 ^ 8) {record : AttestedData}
    (h : AttestedData.fromObserved keccak256 session = .ok record) {line : Bytes}
    (hline : 0x0d ∉ line) {request : Head} {l : Layout}
    (hl : Layout.identityRequest request.bytes = .ok l)
    (hd : session.Discloses .sent request.bytes l) :
    identityRequestAccepted line record.sent record.sentTranscriptLength = true ↔
      line <+: request.status ∧
        ∃ f, request.fields.filter ClaimsBearer = [f] ∧ CarriesBearer f := by
  obtain ⟨hreports, hlen⟩ := reports_fromObserved hin hcount h .sent
  obtain ⟨x, f, y, bearer, hcut⟩ := exists_cutAt hl
  have htiles : assertTiles record.sent record.sentTranscriptLength = true :=
    hreports.tiles hd hcut.accounts hlen
  have hfilter : ∀ g, request.fields.filter ClaimsBearer = [g] → g = f := by
    intro g hg
    have hmem : f ∈ request.fields.filter ClaimsBearer :=
      List.mem_filter.mpr ⟨by simp [hcut.fields], by simpa using hcut.claims⟩
    exact (List.mem_singleton.mp (hg ▸ hmem)).symm
  by_cases hne : bearer = []
  · have hspans := hreports.commits hd
    rw [hcut.commit, if_pos hne] at hspans
    have hframes : framesBearer record.sent = false :=
      framesBearer_of_nil (List.map_eq_nil_iff.mp (List.perm_nil.mp hspans))
    rw [identityRequestAccepted, hframes, Bool.and_false, Bool.false_and]
    refine iff_of_false Bool.false_ne_true ?_
    rintro ⟨-, g, hg, token, htoken, hsome⟩
    obtain rfl := hfilter g hg
    exact hsome ((List.append_cancel_left (hcut.line.symm.trans htoken)).symm.trans hne)
  · have htwo := hcut.twoReveals hreports hd hne
    have hopens : opensWith line record.sent = true ↔ _ := hcut.opensWith_iff hline htwo
    have hframes : framesBearer record.sent = true := hcut.framesBearer hreports hd hne
    have hjoined : joined record.sent = before request x ++ after y := by
      rw [← hcut.slice_before, ← hcut.slice_after]
      exact htwo.joined
    rw [identityRequestAccepted, htiles, hframes, hjoined, hcut.count_eq, Bool.true_and,
      Bool.and_true, Bool.and_eq_true, hopens, beq_iff_eq, List.length_eq_one_iff]
    refine and_congr_right fun _ => exists_congr fun g => iff_self_and.mpr fun hg => ?_
    exact ⟨bearer, hfilter g hg ▸ hcut.line, hne⟩

theorem observed_inside {lib : Notarization} (hlib : lib.Lawful) {sent recv : Bytes}
    {sl rl : Layout} (hsl : sl.Accounts sent.length) (hrl : rl.Accounts recv.length)
    (createdAt : UInt64) : (observed lib sent recv sl rl createdAt).Inside := by
  obtain ⟨hsent, hrecv⟩ := observed_discloses hlib hsl hrl createdAt
  rintro (_ | _)
  · exact hsent.opens.len ▸ hsent.opens.authed.inside fun r hr => hsl.tiles.inside r (by simp [hr])
  · exact hrecv.opens.len ▸ hrecv.opens.authed.inside fun r hr => hrl.tiles.inside r (by simp [hr])

theorem describable_of_mem_hashesOf {other : Direction} {first : UInt8} {ranges : List Range}
    (hfit : ∀ r ∈ ranges, Fits r) {hash : PlaintextHash}
    (h : .hash hash ∈ hashesOf other first ranges) : hash.Describable := by
  obtain ⟨item, hitem, heq⟩ := List.mem_map.mp h
  obtain rfl := TranscriptCommitment.hash.inj heq
  have hr := hfit item.1 (List.fst_mem_of_mem_zipIdx hitem)
  exact ⟨rfl, ⟨item.1, idxOf_ranges hr.nonempty, hr.start, hr.stop⟩, (hash32 _).property⟩

theorem exists_fromObserved_observed (keccak256 : Bytes → ByteArrayOf 32) {lib : Notarization}
    (hlib : lib.Lawful) {sent recv : Bytes} {sl rl : Layout} (hsl : sl.Accounts sent.length)
    (hrl : rl.Accounts recv.length) (hsent : sent.length < 2 ^ 32) (hrecv : recv.length < 2 ^ 32)
    (createdAt : UInt64) :
    ∃ record, AttestedData.fromObserved keccak256 (observed lib sent recv sl rl createdAt) =
      .ok record := by
  obtain ⟨hds, hdr⟩ := observed_discloses hlib hsl hrl createdAt
  have hin := observed_inside hlib hsl hrl createdAt
  have hlen (direction : Direction) :
      (observed lib sent recv sl rl createdAt).transcript.len direction < 2 ^ 32 := by
    cases direction with
    | sent => exact hds.opens.len ▸ hsent
    | received => exact hdr.opens.len ▸ hrecv
  refine (AttestedData.exists_fromObserved_eq_ok keccak256 _).mpr ⟨hlen, ?_, ?_⟩
  · exact fun direction r hr => (hin direction r hr).trans_lt (hlen direction)
  · intro hash hmem
    rcases List.mem_append.mp hmem with hmem | hmem
    · exact describable_of_mem_hashesOf
        (fun r hr => Fits.of_tiles hsl.tiles hsent (List.mem_append_right _ hr)) hmem
    · exact describable_of_mem_hashesOf
        (fun r hr => Fits.of_tiles hrl.tiles hrecv (List.mem_append_right _ hr)) hmem

theorem length_commitments_observed (lib : Notarization) (sent recv : Bytes) (sl rl : Layout)
    (createdAt : UInt64) : (observed lib sent recv sl rl createdAt).commitments.length =
      sl.commit.length + rl.commit.length := by
  simp [observed, hashesOf]

theorem tokenResponseAccepted_iff_run :
    ∃ recv blank : Bytes, ∃ l l', ∃ record record' : AttestedData,
      recv = ascii "HTTP/1.1 200 OK\r\n\r\n\x7b\"access_token\":\"u8\"\x7d" ∧
      blank = ascii "HTTP/1.1 200 OK\r\n\r\n\x7b\"access_token\": \"u8\"\x7d" ∧
      Layout.tokenResponse recv = .ok l ∧ Layout.tokenResponse blank = .ok l' ∧
      AttestedData.fromObserved (fun _ => hash32 0)
        (observed (.plain fun _ _ => hash32 0) [0] recv ⟨[⟨0, 1⟩], []⟩ l 8) = .ok record ∧
      AttestedData.fromObserved (fun _ => hash32 0)
        (observed (.plain fun _ _ => hash32 0) [0] blank ⟨[⟨0, 1⟩], []⟩ l' 8) = .ok record' ∧
      tokenResponseAccepted (ascii "u8") record.received record.recvTranscriptLength = true ∧
      ¬ tokenResponseAccepted (ascii "u8") record'.received record'.recvTranscriptLength =
        true := by
  have hl : Layout.tokenResponse
      (ascii "HTTP/1.1 200 OK\r\n\r\n\x7b\"access_token\":\"u8\"\x7d") =
      .ok ⟨[⟨20, 36⟩, ⟨38, 39⟩], [⟨0, 20⟩, ⟨36, 38⟩, ⟨39, 40⟩]⟩ := by decide +kernel
  have hl' : Layout.tokenResponse
      (ascii "HTTP/1.1 200 OK\r\n\r\n\x7b\"access_token\": \"u8\"\x7d") =
      .ok ⟨[⟨20, 37⟩, ⟨39, 40⟩], [⟨0, 20⟩, ⟨37, 39⟩, ⟨40, 41⟩]⟩ := by decide +kernel
  have hsl : (⟨[⟨0, 1⟩], []⟩ : Layout).Accounts [(0 : UInt8)].length :=
    (Layout.revealing_one (by decide) le_rfl).1
  obtain ⟨_, _, _, _, -, -, -, hrl, -⟩ := exists_placesBearer hl
  obtain ⟨_, _, _, _, -, -, -, hrl', -⟩ := exists_placesBearer hl'
  have hlib := Notarization.plain_lawful fun _ _ => hash32 0
  refine ⟨_, _, _, _, _, _, rfl, rfl, hl, hl', rfl, rfl, ?_, ?_⟩
  · rw [tokenResponseAccepted_iff (fun _ => hash32 0) _ (observed_inside hlib hsl hrl 8)
      (by decide) rfl hl (observed_discloses hlib hsl hrl 8).2 (by decide)]
    exact ⟨⟨⟨20, 36⟩, by decide, by decide⟩, by decide⟩
  · rw [tokenResponseAccepted_iff (fun _ => hash32 0) _ (observed_inside hlib hsl hrl' 8)
      (by decide) rfl hl' (observed_discloses hlib hsl hrl' 8).2 (by decide)]
    rintro ⟨⟨r, hr, hslice⟩, -⟩
    rcases List.mem_cons.mp hr with rfl | hr
    · revert hslice
      decide
    · obtain rfl := List.mem_singleton.mp hr
      revert hslice
      decide

theorem identityRequestAccepted_iff_run :
    ∃ request : Head, ∃ l, ∃ record : AttestedData,
      request.bytes = ascii "GET /\r\nauthorization: Bearer t\r\nAuthorization:bearer u\r\n\r\n" ∧
      Layout.identityRequest request.bytes = .ok l ∧
      AttestedData.fromObserved (fun _ => hash32 0)
        (observed (.plain fun _ _ => hash32 0) request.bytes [0] l ⟨[⟨0, 1⟩], []⟩ 8) = .ok record ∧
      ¬ identityRequestAccepted (ascii "GET /") record.sent record.sentTranscriptLength = true := by
  let request : Head := ⟨ascii "GET /", [
    ⟨ascii "authorization", ascii " Bearer t", by decide, by decide, by decide⟩,
    ⟨ascii "Authorization", ascii "bearer u", by decide, by decide, by decide⟩], by decide⟩
  have hl : Layout.identityRequest request.bytes = .ok ⟨[⟨0, 29⟩, ⟨30, 58⟩], [⟨29, 30⟩]⟩ := by
    decide
  have hsl := (Layout.identityRequest_hides hl).1
  have hrl : (⟨[⟨0, 1⟩], []⟩ : Layout).Accounts [(0 : UInt8)].length :=
    (Layout.revealing_one (by decide) le_rfl).1
  have hlib := Notarization.plain_lawful fun _ _ => hash32 0
  refine ⟨request, _, _, rfl, hl, rfl, ?_⟩
  rw [identityRequestAccepted_iff (fun _ => hash32 0) _ (observed_inside hlib hsl hrl 8)
    (by decide) rfl (by decide) hl (observed_discloses hlib hsl hrl 8).1]
  rintro ⟨-, f, hf, -⟩
  have hlen := congrArg List.length hf
  rw [List.length_singleton] at hlen
  revert hlen
  decide

end Libid.Tlsn
