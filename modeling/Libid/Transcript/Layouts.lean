import Libid.Transcript.Ceremony
import Libid.Transcript.Template

namespace Libid.Transcript.Layout

theorem secretNeedle_ne_nil (field : Bytes) : secretNeedle field ≠ [] := by
  simp [secretNeedle, ascii]

theorem tokenRequest_none {sent : Bytes} {session : TokenSession} {l : Layout}
    (hs : session.secretField = none) :
    tokenRequest sent session = .ok l ↔ l = revealing [⟨0, sent.length⟩] sent.length := by
  simp [tokenRequest, hs, eq_comm]

theorem tokenRequest_some {sent field : Bytes} {session : TokenSession} {l : Layout}
    (hs : session.secretField = some field) :
    tokenRequest sent session = .ok l ↔
      ∃ p, FirstAt (secretNeedle field) sent p ∧ l = revealing [⟨0, p⟩] sent.length := by
  simp only [tokenRequest, hs, bind_eq_ok, okOr_eq_ok,
    windowsPosition_beq_eq_some (secretNeedle_ne_nil field)]
  simp [pure, Except.pure, eq_comm]

theorem tokenResponse_eq_ok {recv : Bytes} {l : Layout} :
    tokenResponse recv = .ok l ↔
      ∃ m, JsonMember.inResponse recv accessToken = some m ∧ m.value.start < m.value.stop ∧
        l = revealing [⟨m.member.start, m.value.start⟩, ⟨m.value.stop, m.member.stop⟩]
          recv.length := by
  simp only [tokenResponse, bind_eq_ok, okOr_eq_ok]
  refine exists_congr fun m => and_congr_right fun _ => ?_
  split
  · simp only [reduceCtorEq, false_iff]
    omega
  · simp only [pure, Except.pure, Except.ok.injEq, eq_comm, iff_and_self]
    omega

theorem identityRequest_eq_ok {sent : Bytes} {l : Layout} :
    identityRequest sent = .ok l ↔
      ∃ p k, FirstAt bearerPrefix sent p ∧
        FirstAt crlf (sent.drop (p + bearerPrefix.length)) k ∧
        l = revealing [⟨0, p + bearerPrefix.length⟩,
          ⟨p + bearerPrefix.length + k, sent.length⟩] sent.length := by
  simp only [identityRequest, bind_eq_ok, okOr_eq_ok,
    windowsPosition_beq_eq_some (show bearerPrefix ≠ [] by decide),
    windowsPosition_beq_eq_some (show crlf ≠ [] by decide), show 2 = crlf.length from rfl]
  simp [pure, Except.pure, eq_comm]

theorem tokenResponse_memberAt {recv : Bytes} {l : Layout} (h : tokenResponse recv = .ok l) :
    ∃ b s c q e, BodyAt recv b ∧ FirstValueAt (recv.drop b) accessToken true s q ∧
      MemberAt (recv.drop b) accessToken s c q e ∧ q + 1 < e ∧
      l = revealing [⟨b + s, b + q + 1⟩, ⟨b + e, b + e + 1⟩] recv.length := by
  obtain ⟨_, hm, hne, rfl⟩ := tokenResponse_eq_ok.mp h
  obtain ⟨b, decoded, d, raw, hb, -, -, hraw, -, rfl⟩ := inResponse_eq_some.mp hm
  obtain ⟨s, q, e, hfirst, hstr, rfl⟩ := inBody_eq_some.mp hraw
  obtain ⟨c, hmem⟩ := exists_memberAt_iff.mpr ⟨hfirst.1, hstr⟩
  refine ⟨b, s, c, q, e, hb, hfirst, hmem, ?_, rfl⟩
  simp only [memberOf, Range.shift_start, Range.shift_stop] at hne
  omega

theorem revealing_one {a len : Nat} (ha : 0 < a) (hlen : a ≤ len) :
    (revealing [⟨0, a⟩] len).Accounts len ∧ (revealing [⟨0, a⟩] len).reveal = [⟨0, a⟩] := by
  refine ⟨accounts_revealing ?_ ?_ ?_, rfl⟩
  · simpa using ha
  · simpa using hlen
  · simp

theorem ascending_pair {a b c d : Nat} (hab : a < b) (hbc : b ≤ c) (hcd : c < d) :
    Ascending [⟨a, b⟩, ⟨c, d⟩] := by
  simp only [Ascending.cons_iff, List.mem_cons, List.not_mem_nil, or_false]
  exact ⟨hab, by simpa using hbc, hcd, by simp, .nil⟩

theorem revealing_two {a b c d len : Nat} (hab : a < b) (hbc : b ≤ c) (hcd : c < d)
    (hlen : d ≤ len) :
    (revealing [⟨a, b⟩, ⟨c, d⟩] len).Accounts len ∧
      (revealing [⟨a, b⟩, ⟨c, d⟩] len).reveal = [⟨a, b⟩, ⟨c, d⟩] := by
  have hasc := ascending_pair hab hbc hcd
  refine ⟨accounts_revealing hasc.nonempty ?_ hasc.disjoint, ?_⟩
  · intro r hr
    simp only [List.mem_cons, List.not_mem_nil, or_false] at hr
    rcases hr with rfl | rfl <;> simp only <;> omega
  · rw [revealing_reveal, sortByStart_eq_self hasc]

theorem revealing_two_commit {a b c d len : Nat} (hab : a < b) (hbc : b ≤ c) (hcd : c < d) :
    (revealing [⟨a, b⟩, ⟨c, d⟩] len).commit =
      (if 0 < a then [⟨0, a⟩] else []) ++ (if b < c then [⟨b, c⟩] else []) ++
        (if d < len then [⟨d, len⟩] else []) := by
  have hasc := ascending_pair hab hbc hcd
  rw [revealing_commit, sortByStart_eq_self hasc]
  simp only [complement, complementFrom]
  split <;> split <;> simp

structure PlacesSecret (sent : Bytes) (session : TokenSession) (l : Layout) : Prop where
  without : session.secretField = none → l.commit = []
  suffix : ∀ field, session.secretField = some field →
    ∃ p, FirstAt (secretNeedle field) sent p ∧ l.commit = [⟨p, sent.length⟩]
  hidden : ∀ field, session.secretField = some field →
    ∀ r ∈ l.reveal, ∀ i, ¬ Occurs (secretNeedle field) (slice sent r) i

structure PlacesBearer (recv : Bytes) (l : Layout) (a b c d : Nat) : Prop where
  reveal : l.reveal = [⟨a, b⟩, ⟨c, d⟩]
  opening : ∃ ws ws' : Bytes, (∀ x ∈ ws, isJsonWhitespace x) ∧ (∀ x ∈ ws', isJsonWhitespace x) ∧
    slice recv ⟨a, b⟩ = quotedKey accessToken ++ ws ++ [colon] ++ ws' ++ [quote]
  closing : slice recv ⟨c, d⟩ = [quote]
  commit : ⟨b, c⟩ ∈ l.commit
  lt : b < c
  quoteFree : quote ∉ slice recv ⟨b, c⟩

/-- An identity request hides what stands between the first bearer header and its CRLF. -/
def HidesBearer (sent : Bytes) (l : Layout) : Prop :=
  ∃ p k, FirstAt bearerPrefix sent p ∧ FirstAt crlf (sent.drop (p + bearerPrefix.length)) k ∧
    ∀ i < sent.length, Covers l.reveal i ↔
      ¬ (p + bearerPrefix.length ≤ i ∧ i < p + bearerPrefix.length + k)

theorem tokenRequest_places {sent : Bytes} {session : TokenSession} {l : Layout}
    (hne : sent ≠ [])
    (h0 : ∀ field, session.secretField = some field → ¬ Occurs (secretNeedle field) sent 0)
    (h : tokenRequest sent session = .ok l) :
    l.Accounts sent.length ∧ PlacesSecret sent session l := by
  have hlen := List.length_pos_of_ne_nil hne
  cases hs : session.secretField with
  | none =>
    obtain rfl := (tokenRequest_none hs).mp h
    obtain ⟨hacc, -⟩ := revealing_one hlen le_rfl
    refine ⟨hacc, ?_, by simp [hs], by simp [hs]⟩
    intro _
    simp [sortByStart, complement, complementFrom]
  | some field =>
    obtain ⟨p, hp, rfl⟩ := (tokenRequest_some hs).mp h
    have hpos : 0 < p := by
      rcases Nat.eq_zero_or_pos p with rfl | hpos
      · exact absurd hp.1 (h0 field hs)
      · exact hpos
    have hneedle := List.length_pos_of_ne_nil (secretNeedle_ne_nil field)
    have hle := hp.1.le_length (secretNeedle_ne_nil field)
    obtain ⟨hacc, hrev⟩ := revealing_one hpos (show p ≤ sent.length by omega)
    refine ⟨hacc, by simp [hs], ?_, ?_⟩
    · rintro _ hs'
      obtain rfl := Option.some.inj (hs.symm.trans hs')
      refine ⟨p, hp, ?_⟩
      have : p < sent.length := by omega
      simp [sortByStart, complement, complementFrom, this]
    · rintro _ hs'
      obtain rfl := Option.some.inj (hs.symm.trans hs')
      intro r hr i hocc
      obtain rfl : r = ⟨0, p⟩ := by
        rw [hrev] at hr
        simpa using hr
      have hi := hocc.le_length (secretNeedle_ne_nil field)
      rw [length_slice _ _ (by simp only; omega)] at hi
      refine hp.2 i (by simp only at hi; omega) (hocc.congr fun j hj hlt => ?_)
      rw [getElem?_slice, if_pos (by simp only at hi ⊢; omega), Nat.zero_add]

theorem memberAt_places {recv : Bytes} {b s c q e : Nat}
    (h : MemberAt (recv.drop b) accessToken s c q e) (hne : q + 1 < e) :
    let l := revealing [⟨b + s, b + q + 1⟩, ⟨b + e, b + e + 1⟩] recv.length
    l.Accounts recv.length ∧
      PlacesBearer recv l (b + s) (b + q + 1) (b + e) (b + e + 1) := by
  have h' := memberAt_drop.mp h
  have hlt : b + s < b + q + 1 := by
    have := h'.keyAt.lt
    have := h'.ws.le
    omega
  have hlen := (List.getElem?_eq_some_iff.mp h'.string.closing).1
  obtain ⟨hacc, hrev⟩ := revealing_two hlt (show b + q + 1 ≤ b + e by omega)
    (Nat.lt_succ_self (b + e)) hlen
  refine ⟨hacc, hrev, h'.delimiter, slice_eq_singleton h'.string.closing, ?_, by omega, ?_⟩
  · rw [revealing_two_commit hlt (by omega) (by omega), if_pos (show b + q + 1 < b + e by omega)]
    simp
  · rw [mem_slice]
    rintro ⟨i, hi, hie, hq⟩
    exact h'.string.quoteFree i hi hie hq

theorem identityRequest_hides {sent : Bytes} {l : Layout} (h : identityRequest sent = .ok l) :
    l.Accounts sent.length ∧ HidesBearer sent l := by
  obtain ⟨p, k, hp, hk, rfl⟩ := identityRequest_eq_ok.mp h
  have hcr := (occurs_drop.mp hk.1).le_length (show crlf ≠ [] by decide)
  have hneedle : 0 < bearerPrefix.length := by decide
  have hlen : crlf.length = 2 := rfl
  obtain ⟨hacc, hrev⟩ := revealing_two (show 0 < p + bearerPrefix.length by omega)
    (Nat.le_add_right (p + bearerPrefix.length) k) (by omega) (le_refl sent.length)
  refine ⟨hacc, p, k, hp, hk, fun i hi => ?_⟩
  rw [hrev]
  simp only [covers_cons, covers_nil, Range.mem_iff, or_false]
  omega

/-- Each constructor accounts for every byte, and hides the credential it is for. -/
theorem accounts_and_places (bytes : Bytes) (l : Layout) :
    (∀ session : TokenSession, bytes ≠ [] →
      (∀ field, session.secretField = some field → ¬ Occurs (secretNeedle field) bytes 0) →
      tokenRequest bytes session = .ok l →
        l.Accounts bytes.length ∧ PlacesSecret bytes session l) ∧
    (tokenResponse bytes = .ok l →
      l.Accounts bytes.length ∧ ∃ a b c d, PlacesBearer bytes l a b c d) ∧
    (identityRequest bytes = .ok l → l.Accounts bytes.length ∧ HidesBearer bytes l) := by
  refine ⟨fun session => tokenRequest_places, fun h => ?_, identityRequest_hides⟩
  obtain ⟨b, s, c, q, e, -, -, hmem, hne, rfl⟩ := tokenResponse_memberAt h
  obtain ⟨hacc, hplaces⟩ := memberAt_places hmem hne
  exact ⟨hacc, _, _, _, _, hplaces⟩

theorem accounts_and_places_run :
    (∃ l, tokenRequest (ascii "POST /token&code=c&client_secret=s") ⟨some (ascii "client_secret")⟩
      = .ok l ∧ l.Accounts 34 ∧ PlacesSecret (ascii "POST /token&code=c&client_secret=s")
        ⟨some (ascii "client_secret")⟩ l) ∧
    (∃ l, tokenResponse (ascii "HTTP/1.1 200 OK\r\n\r\n\x7b\"access_token\":\"t\"\x7d") = .ok l ∧
      l.Accounts 39 ∧ ∃ a b c d,
        PlacesBearer (ascii "HTTP/1.1 200 OK\r\n\r\n\x7b\"access_token\":\"t\"\x7d") l a b c d) ∧
    (∃ l, identityRequest (ascii "GET / HTTP/1.1\r\nauthorization: Bearer t\r\n\r\n") = .ok l ∧
      l.Accounts 43 ∧
        HidesBearer (ascii "GET / HTTP/1.1\r\nauthorization: Bearer t\r\n\r\n") l) := by
  have hreq : tokenRequest (ascii "POST /token&code=c&client_secret=s")
      ⟨some (ascii "client_secret")⟩ = .ok ⟨[⟨0, 18⟩], [⟨18, 34⟩]⟩ := by decide +kernel
  have hresp : tokenResponse (ascii "HTTP/1.1 200 OK\r\n\r\n\x7b\"access_token\":\"t\"\x7d") =
      .ok ⟨[⟨20, 36⟩, ⟨37, 38⟩], [⟨0, 20⟩, ⟨36, 37⟩, ⟨38, 39⟩]⟩ := by decide +kernel
  have hid : identityRequest (ascii "GET / HTTP/1.1\r\nauthorization: Bearer t\r\n\r\n") =
      .ok ⟨[⟨0, 38⟩, ⟨39, 43⟩], [⟨38, 39⟩]⟩ := by decide +kernel
  have hstart : ∀ field, some (ascii "client_secret") = some field →
      ¬ Occurs (secretNeedle field) (ascii "POST /token&code=c&client_secret=s") 0 := by
    rintro _ ⟨⟩
    decide
  exact ⟨⟨_, hreq, (accounts_and_places _ _).1 _ (by decide) hstart hreq⟩,
    ⟨_, hresp, (accounts_and_places _ _).2.1 hresp⟩, ⟨_, hid, (accounts_and_places _ _).2.2 hid⟩⟩

def EmptyBearer (sent : Bytes) : Prop :=
  ∃ p, FirstAt bearerPrefix sent p ∧ Occurs crlf sent (p + bearerPrefix.length)

/-- `c` is all the layout commits, and the header framing it is revealed on both sides. -/
structure FramesCredential (sent : Bytes) (l : Layout) (c : Range) : Prop where
  commit : l.commit = [c]
  nonempty : c.start < c.stop
  opening : ∃ r ∈ l.reveal, r.stop = c.start ∧ bearerPrefix <:+ slice sent r
  closing : ∃ r ∈ l.reveal, r.start = c.stop ∧ crlf <+: slice sent r
  crlfFree : ∀ i, ¬ Occurs crlf (slice sent c) i

theorem not_occurs_slice {needle data : Bytes} {a k : Nat} (hne : needle ≠ [])
    (h : ∀ j < k, ¬ Occurs needle (data.drop a) j) (i : Nat) :
    ¬ Occurs needle (slice data ⟨a, a + k⟩) i := by
  intro hocc
  have hpos := List.length_pos_of_ne_nil hne
  have hlen := hocc.le_length hne
  rw [slice, List.length_take] at hlen
  simp only [Nat.add_sub_cancel_left] at hlen
  refine h i (by omega) (hocc.congr fun j hj hlt => ?_)
  rw [getElem?_slice, if_pos (by simp only; omega), List.getElem?_drop]

theorem framesCredential_of_pos {sent : Bytes} {p k : Nat} (hp : FirstAt bearerPrefix sent p)
    (hk : FirstAt crlf (sent.drop (p + bearerPrefix.length)) k) (hpos : 0 < k) :
    FramesCredential sent
      (revealing [⟨0, p + bearerPrefix.length⟩, ⟨p + bearerPrefix.length + k, sent.length⟩]
        sent.length) ⟨p + bearerPrefix.length, p + bearerPrefix.length + k⟩ := by
  have hcr := occurs_drop.mp hk.1
  have hlen := hcr.le_length (show crlf ≠ [] by decide)
  have hprefix : 0 < bearerPrefix.length := by decide
  have hcrlf : 0 < crlf.length := by decide
  have hstart : 0 < p + bearerPrefix.length := by omega
  have hle : p + bearerPrefix.length ≤ p + bearerPrefix.length + k := Nat.le_add_right ..
  have hstop : p + bearerPrefix.length + k < sent.length := by omega
  obtain ⟨-, hrev⟩ := revealing_two hstart hle hstop (le_refl sent.length)
  refine ⟨?_, ?_, ?_, ?_, not_occurs_slice (by decide) hk.2⟩
  · rw [revealing_two_commit hstart hle hstop, if_neg (Nat.lt_irrefl 0),
      if_pos (Nat.lt_add_of_pos_right hpos), if_neg (Nat.lt_irrefl sent.length)]
    rfl
  · exact Nat.lt_add_of_pos_right hpos
  · refine ⟨⟨0, p + bearerPrefix.length⟩, by rw [hrev]; simp, rfl, slice sent ⟨0, p⟩, ?_⟩
    have hslice := slice_append_slice sent (Nat.zero_le p)
      (Nat.le_add_right p bearerPrefix.length)
    rwa [occurs_iff_slice_eq.mp hp.1] at hslice
  · refine ⟨⟨p + bearerPrefix.length + k, sent.length⟩, by rw [hrev]; simp, rfl, ?_⟩
    rw [slice, List.take_of_length_le (by rw [List.length_drop])]
    exact hcr

/-- An identity request hides one framed credential exactly when its bearer is not empty. -/
theorem identityRequest_frames_iff {sent : Bytes} {l : Layout} (h : identityRequest sent = .ok l) :
    (∃ c, FramesCredential sent l c) ↔ ¬ EmptyBearer sent := by
  obtain ⟨p, k, hp, hk, rfl⟩ := identityRequest_eq_ok.mp h
  constructor
  · rintro ⟨c, hc⟩ ⟨p', hp', hcr⟩
    obtain rfl := hp.unique hp'
    have hprefix : 0 < bearerPrefix.length := by decide
    have hlen := hcr.le_length (show crlf ≠ [] by decide)
    have hcrlf : 0 < crlf.length := by decide
    -- The CRLF stands right at the value's start, so the two reveals touch.
    obtain rfl : k = 0 := hk.unique ⟨occurs_drop.mpr hcr, by simp⟩
    have hcommit := hc.commit
    rw [revealing_two_commit (by omega) (Nat.le_add_right ..) (by omega)] at hcommit
    simp at hcommit
  · intro hbearer
    have hpos : 0 < k := by
      rcases Nat.eq_zero_or_pos k with rfl | hpos
      · exact absurd ⟨p, hp, by simpa using hk.1⟩ hbearer
      · exact hpos
    exact ⟨_, framesCredential_of_pos hp hk hpos⟩

theorem identityRequest_frames_iff_run :
    ∃ l, identityRequest (ascii "GET / HTTP/1.1\r\nauthorization: Bearer t\r\n\r\n") = .ok l ∧
      ((∃ c, FramesCredential (ascii "GET / HTTP/1.1\r\nauthorization: Bearer t\r\n\r\n") l c) ↔
        ¬ EmptyBearer (ascii "GET / HTTP/1.1\r\nauthorization: Bearer t\r\n\r\n")) := by
  have h : identityRequest (ascii "GET / HTTP/1.1\r\nauthorization: Bearer t\r\n\r\n") =
      .ok ⟨[⟨0, 38⟩, ⟨39, 43⟩], [⟨38, 39⟩]⟩ := by decide +kernel
  exact ⟨_, h, identityRequest_frames_iff h⟩

/-- An empty bearer is accepted, and nothing is committed. -/
theorem identityRequest_commits_nothing :
    ∃ l, identityRequest (ascii "GET / HTTP/1.1\r\nauthorization: Bearer \r\n\r\n") = .ok l ∧
      l.commit = [] ∧
      ¬ ∃ c, FramesCredential (ascii "GET / HTTP/1.1\r\nauthorization: Bearer \r\n\r\n") l c := by
  have h : identityRequest (ascii "GET / HTTP/1.1\r\nauthorization: Bearer \r\n\r\n") =
      .ok ⟨[⟨0, 38⟩, ⟨38, 42⟩], []⟩ := by decide +kernel
  refine ⟨_, h, rfl, ?_⟩
  rintro ⟨c, hc⟩
  cases hc.commit

end Libid.Transcript.Layout
