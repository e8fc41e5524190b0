import Libid.Tlsn.Exchange
import Libid.Tlsn.Platform

/-! What a Platform Verifier demands of the record of a token request, as the ceremony's own
tests make the demands, and what becomes of a capture's requests. -/

namespace Libid.Tlsn

open Ceremony Transcript

/-! ### `ceremony_end_to_end.rs` -/

/-- The assertions on a token request that hides nothing. -/
def tokenRequestAccepted (line : Bytes) (block : DirectionBlock) (length : UInt32) : Bool :=
  assertTiles block length &&
    match block.revealed.val with
    | [shown] =>
      shown.start == 0 && block.commitments.val.isEmpty && line.isPrefixOf shown.bytes.val &&
        count shown.bytes.val headBoundary == 1 &&
        count shown.bytes.val (ascii "code_verifier=") == 1
    | _ => false

/-- The assertions on GitHub's exchange, which hides a suffix. -/
def exchangeAccepted (secret : Bytes) (block : DirectionBlock) (length : UInt32) : Bool :=
  assertTiles block length &&
    match block.revealed.val, block.commitments.val with
    | [shown], [hidden] =>
      shown.start == 0 && hidden.stop == length && count (joined block) secret == 0
    | _, _ => false

/-! ### Requests with a form for a body -/

theorem count_fieldLines {needle : Bytes} (hne : needle ≠ []) (hcr : 0x0d ∉ needle)
    (hlf : 0x0a ∉ needle) (x : Bytes) (fields : List Field) (stop : Bytes) :
    count (x ++ (fieldLines fields ++ 0x0d :: stop)) needle =
      count x needle + (fields.map fun f => count f.line needle).sum + count stop needle := by
  induction fields generalizing x with
  | nil => exact count_append_cons hcr x stop
  | cons f fields ih =>
    have hlines : x ++ (fieldLines (f :: fields) ++ 0x0d :: stop) =
        x ++ 0x0d :: ((0x0a :: f.line) ++ (fieldLines fields ++ 0x0d :: stop)) := by
      simp [fieldLines, crlf]
    have hline : count (0x0a :: f.line) needle = count f.line needle := by
      have := count_append_cons hlf [] f.line
      rwa [List.nil_append, count_nil hne, Nat.zero_add] at this
    rw [hlines, count_append_cons hcr, ih, hline, List.map_cons, List.sum_cons]
    omega

theorem count_headBoundary (request : Head) {body : Bytes} (hbody : 0x0d ∉ body) :
    count (request.bytes ++ body) headBoundary = 1 := by
  have hboundary : headBoundary = 0x0d :: [0x0a, 0x0d, 0x0a] := rfl
  have hstop : count (headBoundary ++ body) headBoundary = 1 := by
    have hnone : count (0x0a :: body) headBoundary = 0 := by
      have hcr : 0x0d ∉ 0x0a :: body := by simp [hbody]
      have hcount : count ((0x0a :: body) ++ []) (0x0d :: [0x0a, 0x0d, 0x0a]) =
          count [] (0x0d :: [0x0a, 0x0d, 0x0a]) := count_append_of_notMem hcr []
      rwa [List.append_nil, ← hboundary, count_nil (by decide)] at hcount
    have hshort : ¬ headBoundary <+: 0x0d :: 0x0a :: body := by
      rw [hboundary, List.cons_prefix_cons, List.cons_prefix_cons]
      exact fun h => hbody (h.2.2.subset (by simp))
    have hskip : count (0x0a :: 0x0d :: 0x0a :: body) headBoundary =
        count (0x0d :: 0x0a :: body) headBoundary := by
      have hlf : (0x0d : UInt8) ∉ [0x0a] := by decide
      exact count_append_of_notMem hlf (0x0d :: 0x0a :: body)
    have hfirst : headBoundary <+: 0x0d :: 0x0a :: 0x0d :: 0x0a :: body :=
      List.prefix_append headBoundary body
    rw [show headBoundary ++ body = 0x0d :: 0x0a :: 0x0d :: 0x0a :: body from rfl, count_cons,
      if_pos hfirst, hskip, count_cons, if_neg hshort, hnone]
  have hfields (fields : List Field) :
      count (fieldLines fields ++ (headBoundary ++ body)) headBoundary = 1 := by
    induction fields with
    | nil => exact hstop
    | cons f fields ih =>
      have hline : 0x0d ∉ 0x0a :: f.line := by simp [f.line_cr]
      have hlines : fieldLines (f :: fields) ++ (headBoundary ++ body) =
          0x0d :: ((0x0a :: f.line) ++ (fieldLines fields ++ (headBoundary ++ body))) := by
        simp [fieldLines, crlf]
      have hno : ¬ headBoundary <+:
          0x0d :: ((0x0a :: f.line) ++ (fieldLines fields ++ (headBoundary ++ body))) := by
        obtain ⟨b, line, hb⟩ := List.exists_cons_of_length_pos f.line_pos
        rw [hboundary, List.cons_append, List.cons_prefix_cons, List.cons_prefix_cons, hb,
          List.cons_append, List.cons_prefix_cons]
        exact fun h => f.line_cr (hb ▸ h.2.2.1 ▸ List.mem_cons_self)
      rw [hlines, count_cons, if_neg hno, hboundary, count_append_of_notMem hline, ← hboundary, ih]
  rw [Head.bytes, List.append_assoc, List.append_assoc, hboundary,
    count_append_of_notMem request.status_cr, ← hboundary, hfields]

theorem count_formQuery {name : Bytes} (hname : 0x3d ∉ name) (hamp : 0x26 ∉ name)
    (params : List (Bytes × Bytes)) :
    count (formQuery params) (name ++ [0x3d]) =
      params.countP fun p => name <:+ formEncode p.1 := by
  have hneedle : 0x26 ∉ name ++ [0x3d] := by simp [hamp]
  have hpair (p : Bytes × Bytes) :
      count (formPair p) (name ++ [0x3d]) = if name <:+ formEncode p.1 then 1 else 0 :=
    count_concat hname (notMem_formEncode (by decide) _) (notMem_formEncode (by decide) _)
  induction params with
  | nil => exact count_nil (by simp)
  | cons p params ih =>
    cases params with
    | nil =>
      rw [formQuery, List.map_singleton, List.intercalate_singleton, hpair, List.countP_cons,
        List.countP_nil, Nat.zero_add]
      simp only [decide_eq_true_eq]
    | cons q params =>
      have hquery : formQuery (p :: q :: params) =
          formPair p ++ 0x26 :: formQuery (q :: params) := by
        rw [formQuery, List.map_cons, List.map_cons, List.intercalate_cons_cons]
        simp [formQuery]
      rw [hquery, count_append_cons hneedle, hpair, ih, Nat.add_comm,
        List.countP_cons (l := q :: params)]
      simp only [decide_eq_true_eq]

theorem count_codeVerifier (clientId code redirectUri secret : String) {verifier : Bytes}
    (hverifier : ∀ b ∈ verifier, isUnreserved b = true) :
    count (tokenBody .x clientId code redirectUri secret verifier) (ascii "code_verifier=") =
      1 := by
  have hneedle : ascii "code_verifier=" = ascii "code_verifier" ++ [0x3d] := by decide
  rw [tokenBody_eq .x clientId code redirectUri secret hverifier, hneedle,
    count_formQuery (by decide) (by decide)]
  have hkeys : (tokenPairs .x clientId code redirectUri secret verifier).map Prod.fst =
      [ascii "grant_type", ascii "client_id", ascii "code", ascii "redirect_uri",
        ascii "code_verifier"] := rfl
  have hcount : [ascii "grant_type", ascii "client_id", ascii "code", ascii "redirect_uri",
      ascii "code_verifier"].countP
        (fun key => decide (ascii "code_verifier" <:+ formEncode key)) = 1 := by decide
  rw [← hkeys, List.countP_map] at hcount
  exact hcount

variable {session : ObservedSession} {direction : Direction} {block : DirectionBlock}
  {bytes : Bytes} {layout : Layout}

theorem Reports.oneReveal (h : Reports session direction block)
    (hd : session.Discloses direction bytes layout) {r : Range} (hreveal : layout.reveal = [r])
    (hr : r.start < r.stop) :
    (∃ x, block.revealed.val = [x] ∧ x.span = r ∧ x.bytes.val = slice bytes r) ∧
      Tlsn.joined block = slice bytes r := by
  have hauthed : (session.transcript.authed direction).ranges = [r] := by
    rw [← hreveal]
    exact hd.authed (by simpa [hreveal] using hr) (by simp [hreveal])
  have hslice : slice (session.transcript.data direction) r = slice bytes r :=
    hd.opens.slice_eq (hauthed ▸ List.mem_singleton_self r)
  have hrevealed := h.revealed
  rw [hauthed, List.map_singleton, hslice] at hrevealed
  constructor
  · obtain ⟨x, rest, hx, hxr, hrest⟩ := List.map_eq_cons_iff.mp hrevealed
    obtain rfl := List.map_eq_nil_iff.mp hrest
    obtain ⟨hspan, hbytes⟩ := Prod.mk.inj hxr
    exact ⟨x, hx, hspan, hbytes⟩
  · rw [h.joined, hauthed, List.flatMap_singleton, hslice]

theorem revealing_whole_commit (len : Nat) : (Layout.revealing [⟨0, len⟩] len).commit = [] := by
  rw [Layout.revealing_commit]
  simp [Layout.sortByStart, complement, complementFrom]

theorem slice_whole (bytes : Bytes) : slice bytes ⟨0, bytes.length⟩ = bytes := by
  simp [slice]

theorem prefix_head_iff {line : Bytes} (hline : 0x0d ∉ line) (request : Head) (body : Bytes) :
    line <+: request.bytes ++ body ↔ line <+: request.status := by
  obtain ⟨rest, hrest⟩ := fieldLines_append_crlf request.fields (crlf ++ body)
  have hbytes : request.bytes ++ body = request.status ++ 0x0d :: 0x0a :: rest := by
    rw [Head.bytes, List.append_assoc, List.append_assoc]
    exact congrArg (request.status ++ ·) hrest
  rw [hbytes, isPrefix_append_cons_iff hline]

theorem len_head_pos (request : Head) (body : Bytes) : 0 < (request.bytes ++ body).length := by
  simp [Head.bytes, headBoundary, crlf]

def headLines (request : Head) : List Bytes := request.status :: request.fields.map Field.line

theorem count_head_append {needle : Bytes} (hne : needle ≠ []) (hcr : 0x0d ∉ needle)
    (hlf : 0x0a ∉ needle) (request : Head) (body : Bytes) :
    count (request.bytes ++ body) needle =
      ((headLines request).map fun text => count text needle).sum + count body needle := by
  have hstop : count (0x0a :: 0x0d :: 0x0a :: body) needle = count body needle := by
    have hcrlf := count_append_cons hcr [0x0a] (0x0a :: body)
    have hfirst := count_append_cons hlf [] []
    have hlast := count_append_cons hlf [] body
    rw [count_nil hne, List.nil_append] at hfirst hlast
    rw [List.singleton_append, hfirst, hlast] at hcrlf
    omega
  rw [Head.bytes, List.append_assoc, List.append_assoc,
    show headBoundary ++ body = 0x0d :: 0x0a :: 0x0d :: 0x0a :: body from rfl,
    count_fieldLines hne hcr hlf, hstop, headLines, List.map_cons, List.sum_cons, List.map_map]
  rfl

/-- The verifier accepts the record of X's token request exactly when the request line is the
one it expects and no line of the head names a code verifier: whatever the app, its redirect and
its code are, the body names one. -/
theorem tokenRequestAccepted_iff (keccak256 : Bytes → ByteArrayOf 32) (session : ObservedSession)
    (hin : session.Inside) (hcount : session.commitments.length < 256 ^ 8)
    {record : AttestedData} (h : AttestedData.fromObserved keccak256 session = .ok record)
    {line : Bytes} (hline : 0x0d ∉ line) (request : Head)
    (clientId code redirectUri secret : String) {verifier : Bytes}
    (hverifier : ∀ b ∈ verifier, isUnreserved b = true)
    {profile : TokenSession} (hfield : profile.secretField = none) {l : Layout}
    (hl : Layout.tokenRequest
      (request.bytes ++ tokenBody .x clientId code redirectUri secret verifier) profile = .ok l)
    (hd : session.Discloses .sent
      (request.bytes ++ tokenBody .x clientId code redirectUri secret verifier) l) :
    tokenRequestAccepted line record.sent record.sentTranscriptLength = true ↔
      line <+: request.status ∧
        ∀ text ∈ headLines request, ¬ ascii "code_verifier=" <:+: text := by
  have hbody := count_codeVerifier clientId code redirectUri secret hverifier
  have hcr : 0x0d ∉ tokenBody .x clientId code redirectUri secret verifier := by
    rw [tokenBody_eq .x clientId code redirectUri secret hverifier]
    exact fun hmem => absurd (mem_formQuery hmem) (by decide)
  generalize tokenBody .x clientId code redirectUri secret verifier = body at *
  obtain ⟨hreports, hlen⟩ := reports_fromObserved hin hcount h .sent
  change Reports session .sent record.sent at hreports
  obtain rfl := (Layout.tokenRequest_none hfield).mp hl
  have hpos := len_head_pos request body
  obtain ⟨hacc, hreveal⟩ := Layout.revealing_one hpos le_rfl
  have htiles : assertTiles record.sent record.sentTranscriptLength = true :=
    hreports.tiles hd hacc hlen
  have hcommit : record.sent.commitments.val = [] := by
    have hspans := hreports.commits hd
    rw [revealing_whole_commit] at hspans
    exact List.map_eq_nil_iff.mp (List.perm_nil.mp hspans)
  obtain ⟨⟨shown, hshown, hspan, hbytes⟩, -⟩ := hreports.oneReveal hd hreveal hpos
  have hstart : shown.start = 0 := UInt32.toNat_inj.mp (congrArg Range.start hspan)
  have hneedle : ascii "code_verifier=" ≠ [] := by decide
  rw [slice_whole] at hbytes
  rw [tokenRequestAccepted, htiles, hshown]
  simp only [hstart, hcommit, hbytes, List.isEmpty_nil, BEq.rfl, Bool.true_and, Bool.and_eq_true,
    List.isPrefixOf_iff_prefix, beq_iff_eq, count_headBoundary request hcr, and_true]
  rw [prefix_head_iff hline, count_head_append hneedle (by decide) (by decide),
    hbody]
  refine and_congr_right fun _ => ?_
  rw [Nat.add_eq_right, List.sum_eq_zero_iff_forall_eq_nat]
  simp only [List.mem_map, forall_exists_index, and_imp, forall_apply_eq_imp_iff₂,
    count_eq_zero_iff hneedle]

set_option maxRecDepth 4000 in
theorem tokenRequestAccepted_iff_run :
    ∃ request request' : Head, ∃ l l', ∃ record record' : AttestedData,
      let body := tokenBody .x "app" "code_verifier=" "http://a" "" (ascii "v")
      request.bytes = ascii "POST /t\r\nhost:x\r\n\r\n" ∧
      request'.bytes = ascii "POST /t\r\nhost:code_verifier=\r\n\r\n" ∧
      Layout.tokenRequest (request.bytes ++ body) ⟨none⟩ = .ok l ∧
      Layout.tokenRequest (request'.bytes ++ body) ⟨none⟩ = .ok l' ∧
      AttestedData.fromObserved (fun _ => hash32 0) (observed (.plain fun _ _ => hash32 0)
        (request.bytes ++ body) [0] l ⟨[⟨0, 1⟩], []⟩ 8) = .ok record ∧
      AttestedData.fromObserved (fun _ => hash32 0) (observed (.plain fun _ _ => hash32 0)
        (request'.bytes ++ body) [0] l' ⟨[⟨0, 1⟩], []⟩ 8) = .ok record' ∧
      tokenRequestAccepted (ascii "POST /t") record.sent record.sentTranscriptLength = true ∧
      ¬ tokenRequestAccepted (ascii "POST /t") record'.sent record'.sentTranscriptLength =
        true := by
  let request : Head := ⟨ascii "POST /t",
    [⟨ascii "host", ascii "x", by decide, by decide, by decide⟩], by decide⟩
  let request' : Head := ⟨ascii "POST /t",
    [⟨ascii "host", ascii "code_verifier=", by decide, by decide, by decide⟩], by decide⟩
  have hrl : (⟨[⟨0, 1⟩], []⟩ : Layout).Accounts [(0 : UInt8)].length :=
    (Layout.revealing_one (by decide) le_rfl).1
  have hlib := Notarization.plain_lawful fun _ _ => hash32 0
  have hsl (request : Head) (body : Bytes) :=
    (Layout.revealing_one (len_head_pos request body) le_rfl).1
  have hl (request : Head) (body : Bytes) :
      Layout.tokenRequest (request.bytes ++ body) ⟨none⟩ = .ok _ :=
    (Layout.tokenRequest_none rfl).mpr rfl
  obtain ⟨record, hrecord⟩ := exists_fromObserved_observed (fun _ => hash32 0) hlib
    (hsl request (tokenBody .x "app" "code_verifier=" "http://a" "" (ascii "v"))) hrl
    (by decide) (by decide) 8
  obtain ⟨record', hrecord'⟩ := exists_fromObserved_observed (fun _ => hash32 0) hlib
    (hsl request' (tokenBody .x "app" "code_verifier=" "http://a" "" (ascii "v"))) hrl
    (by decide) (by decide) 8
  have hv : ∀ b ∈ ascii "v", isUnreserved b = true := List.all_eq_true.mp (by decide)
  have hline : 0x0d ∉ ascii "POST /t" := by decide
  refine ⟨request, request', _, _, record, record', rfl, rfl, hl request _, hl request' _, hrecord,
    hrecord', ?_, ?_⟩
  · rw [tokenRequestAccepted_iff _ _ (observed_inside hlib (hsl request _) hrl 8)
      (by rw [length_commitments_observed, revealing_whole_commit]; decide) hrecord hline request
      "app" "code_verifier=" "http://a" "" hv rfl (hl request _)
      (observed_discloses hlib (hsl request _) hrl 8).1]
    decide
  · rw [tokenRequestAccepted_iff _ _ (observed_inside hlib (hsl request' _) hrl 8)
      (by rw [length_commitments_observed, revealing_whole_commit]; decide) hrecord' hline request'
      "app" "code_verifier=" "http://a" "" hv rfl (hl request' _)
      (observed_discloses hlib (hsl request' _) hrl 8).1]
    decide

theorem count_beq_zero (haystack needle : Bytes) :
    (count haystack needle == 0) = true ↔ ¬ needle <:+: haystack := by
  rw [beq_iff_eq]
  by_cases hne : needle = []
  · subst hne
    have hpos : count haystack [] ≠ 0 := by
      cases haystack with
      | nil => decide
      | cons b haystack => simp [count_cons]
    exact iff_of_false hpos (not_not_intro List.nil_infix)
  · exact count_eq_zero_iff hne

/-- The verifier accepts the record of GitHub's exchange exactly when nothing that is shown, in
the head or of the app, happens to hold the secret. -/
theorem exchangeAccepted_iff (keccak256 : Bytes → ByteArrayOf 32) (session : ObservedSession)
    (hin : session.Inside) (hcount : session.commitments.length < 256 ^ 8)
    {record : AttestedData} (h : AttestedData.fromObserved keccak256 session = .ok record)
    {head : Bytes} (hhead : 0x26 ∉ head) (clientId code redirectUri secret : String)
    {verifier : Bytes} (hverifier : ∀ b ∈ verifier, isUnreserved b = true)
    {profile : TokenSession} (hfield : profile.secretField = some (ascii "client_secret"))
    {l : Layout} (hl : Layout.tokenRequest
      (head ++ tokenBody .github clientId code redirectUri secret verifier) profile = .ok l)
    (hd : session.Discloses .sent
      (head ++ tokenBody .github clientId code redirectUri secret verifier) l) :
    exchangeAccepted (utf8 secret) record.sent record.sentTranscriptLength = true ↔
      ¬ utf8 secret <:+: head ++ formQuery (publicPairs clientId code redirectUri verifier) := by
  obtain ⟨hreports, hlen⟩ := reports_fromObserved hin hcount h .sent
  change Reports session .sent record.sent at hreports
  rw [head_append_tokenBody head clientId code redirectUri secret hverifier] at hl hd
  obtain rfl := (tokenRequest_github hhead clientId code redirectUri secret verifier hfield).mp hl
  have hne := shownOf_ne_nil head clientId code redirectUri verifier
  obtain ⟨hacc, hreveal, hcommit⟩ := revealing_front hne (hiddenOf_ne_nil secret)
  rw [← shownOf]
  generalize shownOf head clientId code redirectUri verifier = shown at *
  have htiles : assertTiles record.sent record.sentTranscriptLength = true :=
    hreports.tiles hd hacc hlen
  obtain ⟨⟨entry, hentry, hspan, -⟩, hjoined⟩ :=
    hreports.oneReveal hd hreveal (List.length_pos_of_ne_nil hne)
  have hspans := hreports.commits hd
  rw [hcommit] at hspans
  obtain ⟨hidden, hhidden, hhiddenSpan⟩ := commitments_of_spans hspans
  have hstart : entry.start = 0 := UInt32.toNat_inj.mp (congrArg Range.start hspan)
  have hstop : hidden.stop = record.sentTranscriptLength :=
    UInt32.toNat_inj.mp ((congrArg Range.stop hhiddenSpan).trans (hd.opens.len ▸ hlen).symm)
  rw [slice_front] at hjoined
  rw [exchangeAccepted, htiles, hentry, hhidden, hjoined]
  simp only [hstart, hstop, BEq.rfl, Bool.true_and, count_beq_zero]

set_option maxRecDepth 4000 in
theorem exchangeAccepted_iff_run :
    ∃ head l l', ∃ record record' : AttestedData,
      let sent := fun clientId =>
        head ++ tokenBody .github clientId "code" "http://a" "deadbeef" (ascii "v")
      head = ascii "POST /login/oauth/access_token HTTP/1.1\r\n\r\n" ∧
      Layout.tokenRequest (sent "app") ⟨some (ascii "client_secret")⟩ = .ok l ∧
      Layout.tokenRequest (sent "deadbeefs") ⟨some (ascii "client_secret")⟩ = .ok l' ∧
      AttestedData.fromObserved (fun _ => hash32 0) (observed (.plain fun _ _ => hash32 0)
        (sent "app") [0] l ⟨[⟨0, 1⟩], []⟩ 8) = .ok record ∧
      AttestedData.fromObserved (fun _ => hash32 0) (observed (.plain fun _ _ => hash32 0)
        (sent "deadbeefs") [0] l' ⟨[⟨0, 1⟩], []⟩ 8) = .ok record' ∧
      exchangeAccepted (utf8 "deadbeef") record.sent record.sentTranscriptLength = true ∧
      ¬ exchangeAccepted (utf8 "deadbeef") record'.sent record'.sentTranscriptLength = true := by
  let head := ascii "POST /login/oauth/access_token HTTP/1.1\r\n\r\n"
  have hhead : 0x26 ∉ head := by decide
  have hv : ∀ b ∈ ascii "v", isUnreserved b = true := List.all_eq_true.mp (by decide)
  have hrl : (⟨[⟨0, 1⟩], []⟩ : Layout).Accounts [(0 : UInt8)].length :=
    (Layout.revealing_one (by decide) le_rfl).1
  have hlib := Notarization.plain_lawful fun _ _ => hash32 0
  have hsent (clientId : String) :=
    head_append_tokenBody head clientId "code" "http://a" "deadbeef" hv
  have hl (clientId : String) := (tokenRequest_github hhead clientId "code" "http://a" "deadbeef"
    (ascii "v") (show (TokenSession.mk _).secretField = _ from rfl)).mpr rfl
  have hsl (clientId : String) := revealing_front
    (shownOf_ne_nil head clientId "code" "http://a" (ascii "v")) (hiddenOf_ne_nil "deadbeef")
  simp only [← hsent] at hl hsl
  obtain ⟨record, hrecord⟩ := exists_fromObserved_observed (fun _ => hash32 0) hlib
    (hsl "app").1 hrl (by decide) (by decide) 8
  obtain ⟨record', hrecord'⟩ := exists_fromObserved_observed (fun _ => hash32 0) hlib
    (hsl "deadbeefs").1 hrl (by decide) (by decide) 8
  refine ⟨head, _, _, record, record', rfl, hl "app", hl "deadbeefs", hrecord, hrecord', ?_, ?_⟩
  · rw [exchangeAccepted_iff _ _ (observed_inside hlib (hsl "app").1 hrl 8)
      (by rw [length_commitments_observed, (hsl "app").2.2]; decide) hrecord hhead
      "app" "code" "http://a" "deadbeef" hv rfl (hl "app")
      (observed_discloses hlib (hsl "app").1 hrl 8).1]
    decide
  · rw [exchangeAccepted_iff _ _ (observed_inside hlib (hsl "deadbeefs").1 hrl 8)
      (by rw [length_commitments_observed, (hsl "deadbeefs").2.2]; decide) hrecord' hhead
      "deadbeefs" "code" "http://a" "deadbeef" hv rfl (hl "deadbeefs")
      (observed_discloses hlib (hsl "deadbeefs").1 hrl 8).1]
    decide

end Libid.Tlsn
