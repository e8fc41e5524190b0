import Libid.Ceremony.TokenExchange
import Libid.Json.Decode
import Libid.Transcript.Contiguity
import Libid.Transcript.Forgery
import Libid.Transcript.Layouts

/-! The bearer of the two sessions.  The request's is the header's value; the response's
is a member's value as it is spelled, which is the token only where nothing is escaped. -/

namespace Libid.Transcript

open Json (Text Member Str)

/-- The first of the members that a scan for a quoted `field` takes for it. -/
structure Answers (t : Text) (field : Bytes) (m : Member) (s : Str) : Prop where
  mem : m ∈ t.members
  string : m.value = .string s
  names : Names m field
  first : ∀ m' ∈ t.members, ∀ s', m'.value = .string s' → Names m' field → m.close ≤ m'.close

theorem Names.token_eq {m : Member} {field : Bytes} (h : Names m field) :
    ∃ pre, m.name.token = pre ++ quotedKey field := by
  rcases h with h | ⟨pre, h⟩
  · exact ⟨[], by rw [Str.token, h]; rfl⟩
  · refine ⟨quote :: (pre ++ [Json.backslash]), ?_⟩
    rw [Str.token, ← h]
    simp [quotedKey, Json.quote, quote]

theorem ValueAt.of_member {m : Member} {text field : Bytes} {s : Str} (hin : m.In text)
    (hnames : Names m field) (hstring : m.value = .string s) :
    ∃ start, m.close = start + field.length + 1 ∧ ValueAt text field true start m.valueAt := by
  obtain ⟨pre, hpre⟩ := hnames.token_eq
  have hlen : m.name.text.length + 2 = pre.length + (field.length + 2) := by
    simpa using congrArg List.length hpre
  have hclose : m.close = m.start + pre.length + field.length + 1 := by
    simp only [Member.close]
    omega
  have hkey := hin.key
  rw [hpre, occurs_append] at hkey
  have hgap := WsRun.of_blank hin.gap
  rw [hclose] at hgap
  have hopen : text[m.valueAt]? = some quote := by
    have hvalue := hin.value
    rw [hstring] at hvalue
    exact (Str.occurs_token.mp hvalue).1
  exact ⟨m.start + pre.length, hclose, m.colon, ⟨hkey.2, hgap, hin.colon⟩,
    skipJsonWhitespace_eq_iff.mpr ⟨WsRun.of_blank hin.gap', not_wsAt_quote hopen⟩, .inr hopen⟩

theorem Answers.firstValueAt {t : Text} {field : Bytes} {m : Member} {s : Str}
    (h : Answers t field m s) (hf : IsName field) (hne : field ≠ []) :
    ∃ start, m.close = start + field.length + 1 ∧
      FirstValueAt t.bytes field true start m.valueAt := by
  have hin := t.placed.1 m h.mem
  obtain ⟨start, hclose, hvalue⟩ := ValueAt.of_member hin h.names h.string
  refine ⟨start, hclose, hvalue, fun earlier hlt v hv => ?_⟩
  obtain ⟨m', hm', -, -, hclose', -, -, hnames', hstring'⟩ := hv.in_member hf hne
  obtain ⟨s', hs'⟩ := hstring' rfl
  have := h.first m' hm' s' hs' hnames'
  omega

theorem exists_answers {t : Text} {field : Bytes} {start v : Nat}
    (h : FirstValueAt t.bytes field true start v) (hf : IsName field) (hne : field ≠ []) :
    ∃ m s, Answers t field m s := by
  obtain ⟨m, hm, -, -, hclose, -, -, hnames, hstring⟩ := h.1.in_member hf hne
  obtain ⟨s, hs⟩ := hstring rfl
  refine ⟨m, s, hm, hs, hnames, fun m' hm' s' hs' hnames' => ?_⟩
  obtain ⟨start', hclose', hvalue'⟩ := ValueAt.of_member (t.placed.1 m' hm') hnames' hs'
  by_contra hlt
  exact h.2 start' (by omega) _ hvalue'

theorem stringAt_rawValue {text : Bytes} {s : Str} {q : Nat} (hocc : Occurs s.token text q) :
    StringAt text q (q + 1 + s.rawValue.length) := by
  obtain ⟨hopen, hbody, hclose⟩ := Str.occurs_token.mp hocc
  have hget : ∀ i < s.text.length, text[q + 1 + i]? = s.text[i]? := occurs_iff_getElem?.mp hbody
  obtain ⟨hrun, hstop⟩ := (length_takeWhile_eq_iff (w := s.rawValue.length)).mp rfl
  refine ⟨hopen, by omega, fun i hi hlt hq => ?_, ?_⟩
  · obtain ⟨b, hb, hne⟩ := hrun (i - (q + 1)) (by omega)
    rw [← hget _ (List.getElem?_eq_some_iff.mp hb).1, Nat.add_sub_cancel' hi, hq] at hb
    obtain rfl := Option.some.inj hb
    exact absurd hne (by decide)
  · rcases Nat.lt_or_ge s.rawValue.length s.text.length with hlt | hge
    · rw [hget _ hlt, List.getElem?_eq_getElem hlt]
      by_contra hne
      refine hstop ⟨_, List.getElem?_eq_getElem hlt, bne_iff_ne.mpr fun heq => hne ?_⟩
      rw [heq]
      rfl
    · have hle : s.rawValue.length ≤ s.text.length := (List.takeWhile_prefix _).length_le
      rwa [show q + 1 + s.rawValue.length = q + s.text.length + 1 by omega]

theorem slice_stringAt {text : Bytes} {s : Str} {q e : Nat} (hocc : Occurs s.token text q)
    (h : StringAt text q e) : slice text ⟨q + 1, e⟩ = s.rawValue := by
  rw [h.unique (stringAt_rawValue hocc), ← occurs_iff_slice_eq]
  exact (List.takeWhile_prefix _).trans (Str.occurs_token.mp hocc).2.1

theorem Answers.slice_value {t : Text} {field : Bytes} {m : Member} {s : Str}
    (h : Answers t field m s) (hf : IsName field) (hne : field ≠ []) {found : JsonMember}
    (hfound : JsonMember.inBody t.bytes field = some found) :
    slice t.bytes found.value = s.rawValue := by
  obtain ⟨_, -, hfirst⟩ := h.firstValueAt hf hne
  obtain ⟨_, q, e, hfirst', hstr, rfl⟩ := inBody_eq_some.mp hfound
  obtain ⟨-, rfl⟩ := hfirst.unique hfirst'
  have hvalue := (t.placed.1 m h.mem).value
  rw [h.string] at hvalue
  exact slice_stringAt hvalue hstr

def CommitsBetween (l : Layout) (data bs : Bytes) : Prop :=
  ∃ r r' : Range, l.reveal = [r, r'] ∧ ⟨r.stop, r'.start⟩ ∈ l.commit ∧
    slice data ⟨r.stop, r'.start⟩ = bs

theorem CommitsBetween.unique {l : Layout} {data bs bs' : Bytes} (h : CommitsBetween l data bs)
    (h' : CommitsBetween l data bs') : bs = bs' := by
  obtain ⟨r, r', hrev, -, rfl⟩ := h
  obtain ⟨t, t', hrev', -, rfl⟩ := h'
  obtain ⟨rfl, rfl⟩ : r = t ∧ r' = t' := by simpa using hrev.symm.trans hrev'
  rfl

namespace Layout

theorem tokenResponse_commitsBetween {recv decoded : Bytes} {l : Layout}
    (h : tokenResponse recv = .ok l) (hdec : extractResponseBody recv = .ok decoded) :
    ∃ found, JsonMember.inBody decoded accessToken = some found ∧
      CommitsBetween l recv (slice decoded found.value) := by
  obtain ⟨_, hm, hne, rfl⟩ := tokenResponse_eq_ok.mp h
  obtain ⟨b, _, d, raw, hb, hdec', hd, hraw, heq, rfl⟩ := inResponse_eq_some.mp hm
  obtain rfl := Except.ok.inj (hdec.symm.trans hdec')
  refine ⟨d, hd, ?_⟩
  obtain ⟨hstart, hstop⟩ := inBody_value hraw
  have hle := (inBody_firstSnippetAt hraw).bounds.2
  have hb' := hb.le_length
  rw [List.length_drop] at hle
  rw [← inBody_value_eq hraw hd heq, slice_drop]
  simp only [Range.shift_start, Range.shift_stop] at hne ⊢
  have hopening : b + raw.member.start < b + raw.value.start := by omega
  have hclosing : b + raw.value.stop < b + raw.member.stop := by omega
  obtain ⟨-, hrev⟩ := revealing_two hopening hne.le hclosing
    (show b + raw.member.stop ≤ recv.length by omega)
  refine ⟨_, _, hrev, ?_, rfl⟩
  rw [revealing_two_commit hopening hne.le hclosing, if_pos hne]
  simp

theorem accessToken_isName : IsName accessToken := by decide +kernel

theorem tokenResponse_answers {recv : Bytes} {t : Text} {l : Layout}
    (h : tokenResponse recv = .ok l) (hbody : extractResponseBody recv = .ok t.bytes) :
    ∃ m s, Answers t accessToken m s := by
  obtain ⟨found, hfound, -⟩ := tokenResponse_commitsBetween h hbody
  obtain ⟨start, q, e, hfirst, -, -⟩ := inBody_eq_some.mp hfound
  exact exists_answers hfirst accessToken_isName (by decide)

theorem tokenResponse_commits_iff {recv bs : Bytes} {t : Text} {l : Layout} {m : Member}
    {s : Str} (h : tokenResponse recv = .ok l) (hbody : extractResponseBody recv = .ok t.bytes)
    (ha : Answers t accessToken m s) : CommitsBetween l recv bs ↔ s.rawValue = bs := by
  obtain ⟨found, hfound, hcommits⟩ := tokenResponse_commitsBetween h hbody
  rw [ha.slice_value accessToken_isName (by decide) hfound] at hcommits
  exact ⟨hcommits.unique, fun heq => heq ▸ hcommits⟩

theorem identityRequest_commits {sent token : Bytes} {p : Nat} (hne : token ≠ [])
    (hprint : ∀ b ∈ token, Ceremony.isPrintable b) (hp : FirstAt bearerPrefix sent p)
    (hocc : Occurs (bearerPrefix ++ (token ++ crlf)) sent p) :
    ∃ l, identityRequest sent = .ok l ∧ l.commit.map (slice sent) = [token] := by
  obtain ⟨-, hbody⟩ := occurs_append.mp hocc
  obtain ⟨htoken, hcrlf⟩ := occurs_append.mp hbody
  have hlen := hcrlf.le_length (show crlf ≠ [] by decide)
  have hpos := List.length_pos_of_ne_nil hne
  have hfirst : FirstAt crlf (sent.drop (p + bearerPrefix.length)) token.length := by
    refine ⟨occurs_drop.mpr hcrlf, fun i hi hcr => ?_⟩
    have hget := (occurs_drop.mp hcr).getElem? (k := 0) (a := 0x0d) rfl
    rw [Nat.add_zero, occurs_iff_getElem?.mp htoken i hi] at hget
    exact absurd (hprint _ (List.mem_of_getElem? hget)) (by decide)
  refine ⟨_, identityRequest_eq_ok.mpr ⟨p, _, hp, hfirst, rfl⟩, ?_⟩
  have hprefix : 0 < p + bearerPrefix.length := Nat.lt_of_lt_of_le (by decide) (Nat.le_add_left ..)
  have hslice := occurs_iff_slice_eq.mp htoken
  have hcrlfLen : crlf.length = 2 := rfl
  rw [revealing_two_commit hprefix (Nat.le_add_right ..) (by omega), if_neg (Nat.lt_irrefl 0),
    if_pos (by omega), if_neg (Nat.lt_irrefl _)]
  simpa using hslice

end Layout

/-- A token the validator accepts, the one `access_token` member that it is the decoded
value of, and a request that carries it in its first bearer header. -/
structure SharesBearer (r : Ceremony.TokenResponse) (recv sent : Bytes) (t : Text) (m : Member)
    (s : Str) : Prop where
  valid : r.validate = .ok ()
  body : extractResponseBody recv = .ok t.bytes
  mem : m ∈ t.members
  name : m.name.decode = some Layout.accessToken
  string : m.value = .string s
  decoded : s.decode = some r.accessToken
  single : ∀ m' ∈ t.members, m'.name.decode = some Layout.accessToken → m' = m
  header : ∃ p, FirstAt Layout.bearerPrefix sent p ∧
    Occurs (Layout.bearerPrefix ++ (r.accessToken ++ crlf)) sent p

def LookAlike (m : Member) (field : Bytes) : Prop :=
  Json.backslash :: quote :: field <:+ m.name.text

instance (m : Member) (field : Bytes) : Decidable (LookAlike m field) :=
  inferInstanceAs (Decidable (_ <:+ _))

/-- The scan answers for the token's own member and nothing in its value is escaped, or a
look-alike comes first and its value is spelled as the token. -/
def SpellsToken (t : Text) (m : Member) (s : Str) (token : Bytes) : Prop :=
  Answers t Layout.accessToken m s ∧ s.Literal ∨
    ∃ m' s', LookAlike m' Layout.accessToken ∧ Answers t Layout.accessToken m' s' ∧
      s'.rawValue = token

def CommitsToken (recv sent token : Bytes) (l : Layout) : Prop :=
  CommitsBetween l recv token ∧
    ∃ l', Layout.identityRequest sent = .ok l' ∧ l'.commit.map (slice sent) = [token]

theorem SharesBearer.eq_of_answers {r : Ceremony.TokenResponse} {recv sent : Bytes} {t : Text}
    {m m' : Member} {s s' : Str} (h : SharesBearer r recv sent t m s)
    (ha : Answers t Layout.accessToken m' s') (hno : ¬ LookAlike m' Layout.accessToken) :
    m' = m ∧ s' = s := by
  have hspelled := ha.names.resolve_right hno
  -- Written as the field is, the name decodes to it, so this is the one member there is.
  have hlit : m'.name.Literal := .of_backslash_notMem (by rw [hspelled]; decide)
  obtain rfl := h.single m' ha.mem (by rw [hlit.decode, hspelled])
  exact ⟨rfl, by simpa using ha.string.symm.trans h.string⟩

/-- The two sessions commit one bearer exactly when the response spells it plainly. -/
theorem Layout.commitsToken_iff {r : Ceremony.TokenResponse} {recv sent : Bytes} {t : Text}
    {m : Member} {s : Str} {l : Layout} (h : SharesBearer r recv sent t m s)
    (hl : tokenResponse recv = .ok l) :
    CommitsToken recv sent r.accessToken l ↔ SpellsToken t m s r.accessToken := by
  have hcarried := (Ceremony.TokenResponse.validate_eq_ok.mp h.valid).accessToken
  obtain ⟨p, hp, hocc⟩ := h.header
  have hrequest := identityRequest_commits hcarried.ne_nil hcarried.printable hp hocc
  constructor
  · rintro ⟨hcommits, -⟩
    obtain ⟨m', s', ha⟩ := tokenResponse_answers hl h.body
    have hraw := (tokenResponse_commits_iff hl h.body ha).mp hcommits
    by_cases hlook : LookAlike m' accessToken
    · exact .inr ⟨m', s', hlook, ha, hraw⟩
    · obtain ⟨rfl, rfl⟩ := h.eq_of_answers ha hlook
      exact .inl ⟨ha, (Str.rawValue_eq_iff h.decoded).mp hraw⟩
  · rintro (⟨ha, hlit⟩ | ⟨m', s', -, ha, hraw⟩)
    · have hraw := (Str.rawValue_eq_iff h.decoded).mpr hlit
      exact ⟨(tokenResponse_commits_iff hl h.body ha).mpr hraw, hrequest⟩
    · exact ⟨(tokenResponse_commits_iff hl h.body ha).mpr hraw, hrequest⟩

def recordOf (token : Bytes) : Ceremony.TokenResponse :=
  ⟨token, ⟨[0], List.replicate 65 0⟩, List.replicate 16 0⟩

def responseOf (body : Bytes) : Bytes := ascii "HTTP/1.1 200 OK\r\n\r\n" ++ body

def requestOf (token : Bytes) : Bytes :=
  ascii "GET / HTTP/1.1\r\nauthorization: Bearer " ++ (token ++ ascii "\r\n\r\n")

theorem recordOf_valid : (recordOf (ascii "a/b")).validate = .ok () := by decide +kernel

theorem requestOf_carries : ∃ p, FirstAt Layout.bearerPrefix (requestOf (ascii "a/b")) p ∧
    Occurs (Layout.bearerPrefix ++ ((recordOf (ascii "a/b")).accessToken ++ crlf))
      (requestOf (ascii "a/b")) p :=
  ⟨14, by decide +kernel, by decide +kernel⟩

def tokenName : Str := .ofPlain Layout.accessToken (by decide +kernel)

def plainToken : Str := .ofPlain (ascii "a/b") (by decide +kernel)

def escapedToken : Str :=
  ⟨[.plain 0x61 (by decide), .escape 0x2f (by decide), .plain 0x62 (by decide)]⟩

def oneMember (value : Str) : Text :=
  ⟨.empty, .object (.lastMember ⟨.empty, tokenName, .empty⟩ .empty (.string value) .empty), .empty⟩

def lookAlikeName : Str := ⟨.escape 0x22 (by decide) :: tokenName.chars⟩

def otherToken : Str := .ofPlain (ascii "c") (by decide +kernel)

def twoMembers : Text :=
  ⟨.empty, .object (.member ⟨.empty, lookAlikeName, .empty⟩ .empty (.string otherToken) .empty
    (.lastMember ⟨.empty, tokenName, .empty⟩ .empty (.string plainToken) .empty)), .empty⟩

theorem oneMember_members (value : Str) :
    (oneMember value).members = [⟨1, tokenName, 15, 16, .string value⟩] := rfl

theorem twoMembers_members : twoMembers.members =
    [⟨1, lookAlikeName, 17, 18, .string otherToken⟩,
      ⟨22, tokenName, 36, 37, .string plainToken⟩] := rfl

theorem sharesBearer_oneMember (value : Str) (body : Bytes)
    (hbody : extractResponseBody (responseOf body) = .ok (oneMember value).bytes)
    (hdecoded : value.decode = some (ascii "a/b")) :
    SharesBearer (recordOf (ascii "a/b")) (responseOf body) (requestOf (ascii "a/b"))
      (oneMember value) ⟨1, tokenName, 15, 16, .string value⟩ value where
  valid := recordOf_valid
  body := hbody
  mem := by simp [oneMember_members]
  name := show tokenName.decode = _ by decide +kernel
  string := rfl
  decoded := hdecoded
  single m' hm' _ := by simpa [oneMember_members] using hm'
  header := requestOf_carries

theorem Layout.commitsToken_iff_run :
    ∃ l, tokenResponse (responseOf (ascii "\x7b\"access_token\":\"a/b\"\x7d")) = .ok l ∧
      CommitsToken (responseOf (ascii "\x7b\"access_token\":\"a/b\"\x7d"))
        (requestOf (ascii "a/b")) (ascii "a/b") l := by
  have hs := sharesBearer_oneMember plainToken (ascii "\x7b\"access_token\":\"a/b\"\x7d")
    (by decide +kernel) (by decide +kernel)
  have hl : tokenResponse (responseOf (ascii "\x7b\"access_token\":\"a/b\"\x7d")) =
      .ok ⟨[⟨20, 36⟩, ⟨39, 40⟩], [⟨0, 20⟩, ⟨36, 39⟩, ⟨40, 41⟩]⟩ := by decide +kernel
  refine ⟨_, hl, (commitsToken_iff hs hl).mpr (.inl ⟨⟨hs.mem, rfl, .inl (by decide +kernel), ?_⟩,
    .of_backslash_notMem (by decide +kernel)⟩)⟩
  intro m' hm' _ _ _
  rw [oneMember_members, List.mem_singleton] at hm'
  rw [hm']

/-- The response commits another string when the token is escaped, and when a look-alike
comes first. -/
theorem Layout.commitsToken_fails :
    (∃ t m s l, SharesBearer (recordOf (ascii "a/b"))
        (responseOf (ascii "\x7b\"access_token\":\"a\\/b\"\x7d")) (requestOf (ascii "a/b")) t m s ∧
      (∀ m' ∈ t.members, ¬ LookAlike m' accessToken) ∧
      tokenResponse (responseOf (ascii "\x7b\"access_token\":\"a\\/b\"\x7d")) = .ok l ∧
      ¬ CommitsToken (responseOf (ascii "\x7b\"access_token\":\"a\\/b\"\x7d"))
        (requestOf (ascii "a/b")) (ascii "a/b") l) ∧
    ∃ t m s l, SharesBearer (recordOf (ascii "a/b"))
        (responseOf (ascii "\x7b\"\\\"access_token\":\"c\",\"access_token\":\"a/b\"\x7d"))
        (requestOf (ascii "a/b")) t m s ∧ s.Literal ∧
      tokenResponse (responseOf
        (ascii "\x7b\"\\\"access_token\":\"c\",\"access_token\":\"a/b\"\x7d")) = .ok l ∧
      ¬ CommitsToken
        (responseOf (ascii "\x7b\"\\\"access_token\":\"c\",\"access_token\":\"a/b\"\x7d"))
        (requestOf (ascii "a/b")) (ascii "a/b") l := by
  constructor
  · refine ⟨_, _, _, ⟨[⟨20, 36⟩, ⟨40, 41⟩], [⟨0, 20⟩, ⟨36, 40⟩, ⟨41, 42⟩]⟩,
      sharesBearer_oneMember escapedToken _ (by decide +kernel) (by decide +kernel),
      ?_, by decide +kernel, ?_⟩
    · intro m' hm'
      rw [oneMember_members, List.mem_singleton] at hm'
      subst hm'
      decide +kernel
    · rintro ⟨⟨r, r', hrev, -, hslice⟩, -⟩
      obtain ⟨rfl, rfl⟩ : ⟨20, 36⟩ = r ∧ ⟨40, 41⟩ = r' := by simpa using hrev
      revert hslice
      decide +kernel
  · refine ⟨twoMembers, ⟨22, tokenName, 36, 37, .string plainToken⟩, plainToken,
      ⟨[⟨22, 38⟩, ⟨39, 40⟩], [⟨0, 22⟩, ⟨38, 39⟩, ⟨40, 62⟩]⟩, ?_,
      .of_backslash_notMem (by decide +kernel), by decide +kernel, ?_⟩
    · refine ⟨recordOf_valid, by decide +kernel, by simp [twoMembers_members], by decide +kernel,
        rfl, by decide +kernel, fun m' hm' hname => ?_, requestOf_carries⟩
      rw [twoMembers_members] at hm'
      rcases List.mem_cons.mp hm' with rfl | hm'
      · exact absurd hname (by decide +kernel)
      · exact List.mem_singleton.mp hm'
    · rintro ⟨⟨r, r', hrev, -, hslice⟩, -⟩
      obtain ⟨rfl, rfl⟩ : ⟨22, 38⟩ = r ∧ ⟨39, 40⟩ = r' := by simpa using hrev
      revert hslice
      decide +kernel

end Libid.Transcript
