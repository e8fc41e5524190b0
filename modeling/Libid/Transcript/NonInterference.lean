import Libid.Transcript.Layouts
import Libid.Transcript.Locality

/-! Two runs that differ only in a hidden credential.  No scan that places a range
reads past the credential's first byte before it has its answer, so the two
layouts, and the bytes they show, are the same. -/

namespace Libid.Transcript

/-- `x` and `y` agree outside `cred`, and hold printable bytes without quotes inside it. -/
structure DifferIn (x y : Bytes) (cred : Range) : Prop where
  length_eq : x.length = y.length
  agree : ∀ i, i ∉ cred → x[i]? = y[i]?
  printable : ∀ i ∈ cred, ∀ b, x[i]? = some b ∨ y[i]? = some b →
    0x21 ≤ b ∧ b ≤ 0x7e ∧ b ≠ quote

theorem differIn_iff {x y : Bytes} {cred : Range} :
    DifferIn x y cred ↔ x.length = y.length ∧ ∀ i < x.length,
      if i ∈ cred then ∀ b ∈ x[i]?.toList ++ y[i]?.toList, 0x21 ≤ b ∧ b ≤ 0x7e ∧ b ≠ quote
      else x[i]? = y[i]? := by
  constructor
  · intro h
    refine ⟨h.length_eq, fun i _ => ?_⟩
    split
    · rename_i hmem
      intro b hb
      exact h.printable i hmem b (by simpa using hb)
    · rename_i hmem
      exact h.agree i hmem
  · rintro ⟨hlen, h⟩
    refine ⟨hlen, fun i hi => ?_, fun i hi b hb => ?_⟩
    · rcases Nat.lt_or_ge i x.length with hlt | hge
      · have := h i hlt
        rwa [if_neg hi] at this
      · rw [List.getElem?_eq_none hge, List.getElem?_eq_none (hlen ▸ hge)]
    · have hlt : i < x.length := by
        rcases hb with hb | hb
        · exact (List.getElem?_eq_some_iff.mp hb).1
        · exact hlen ▸ (List.getElem?_eq_some_iff.mp hb).1
      have := h i hlt
      rw [if_pos hi] at this
      exact this b (by simpa using hb)

instance (x y : Bytes) (cred : Range) : Decidable (DifferIn x y cred) :=
  decidable_of_iff' _ differIn_iff

namespace DifferIn

variable {x y : Bytes} {cred : Range}

theorem agree_before (h : DifferIn x y cred) {i : Nat} (hi : i < cred.start) : x[i]? = y[i]? :=
  h.agree i fun hmem => absurd hmem.1 (Nat.not_le.mpr hi)

theorem agree_after (h : DifferIn x y cred) {i : Nat} (hi : cred.stop ≤ i) : x[i]? = y[i]? :=
  h.agree i fun hmem => absurd hmem.2 (Nat.not_lt.mpr hi)

theorem firstAt (h : DifferIn x y cred) {needle : Bytes} {p : Nat} (hp : FirstAt needle x p)
    (hle : p + needle.length ≤ cred.start) : FirstAt needle y p := by
  refine ⟨hp.1.congr fun j _ hj => h.agree_before (by omega), fun j hj hocc => ?_⟩
  exact hp.2 j hj (hocc.congr fun k _ hk => (h.agree_before (by omega)).symm)

theorem shown_eq (h : DifferIn x y cred) {l : Layout}
    (hl : ∀ r ∈ l.reveal, r.stop ≤ cred.start ∨ cred.stop ≤ r.start) : l.shown x = l.shown y := by
  rw [Layout.shown, Layout.shown]
  refine congrArg List.flatten (List.map_congr_left fun r hr => slice_congr fun i hi hlt => ?_)
  rcases hl r hr with hbefore | hafter
  · exact h.agree_before (by omega)
  · exact h.agree_after (by omega)

end DifferIn

namespace Layout

variable {x y : Bytes} {cred : Range} {l l' : Layout}

/-- The bytes after the first `&field=`; with no secret field there are none. -/
def IsSecret (sent : Bytes) (session : TokenSession) (cred : Range) : Prop :=
  match session.secretField with
  | none => cred = ⟨0, 0⟩
  | some field =>
    ∃ p, FirstAt (secretNeedle field) sent p ∧ cred = ⟨p + (secretNeedle field).length, sent.length⟩

theorem tokenRequest_noninterference {session : TokenSession} (h : DifferIn x y cred)
    (hcred : IsSecret x session cred) (hx : tokenRequest x session = .ok l)
    (hy : tokenRequest y session = .ok l') : l = l' ∧ l.shown x = l'.shown y := by
  cases hs : session.secretField with
  | none =>
    rw [IsSecret, hs] at hcred
    obtain rfl := (tokenRequest_none hs).mp hx
    obtain rfl := (tokenRequest_none hs).mp hy
    rw [h.length_eq]
    refine ⟨rfl, h.shown_eq fun r _ => .inr ?_⟩
    simp [hcred]
  | some field =>
    simp only [IsSecret, hs] at hcred
    obtain ⟨p, hp, hc⟩ := hcred
    obtain ⟨p', hp', rfl⟩ := (tokenRequest_some hs).mp hx
    obtain rfl := hp.unique hp'
    obtain ⟨k, hk, rfl⟩ := (tokenRequest_some hs).mp hy
    obtain rfl := (h.firstAt hp (by simp [hc])).unique hk
    rw [h.length_eq]
    refine ⟨rfl, h.shown_eq fun r hr => .inl ?_⟩
    obtain rfl : r = ⟨0, p⟩ := by simpa [sortByStart] using hr
    simp [hc]

def IsHeaderBearer (sent : Bytes) (cred : Range) : Prop :=
  ∃ p k, FirstAt bearerPrefix sent p ∧ FirstAt crlf (sent.drop (p + bearerPrefix.length)) k ∧
    cred = ⟨p + bearerPrefix.length, p + bearerPrefix.length + k⟩

theorem identityRequest_noninterference (h : DifferIn x y cred) (hcred : IsHeaderBearer x cred)
    (hx : identityRequest x = .ok l) (hy : identityRequest y = .ok l') :
    l = l' ∧ l.shown x = l'.shown y := by
  obtain ⟨p, k, hp, hk, hc⟩ := hcred
  obtain ⟨p₁, k₁, hp₁, hk₁, rfl⟩ := identityRequest_eq_ok.mp hx
  obtain ⟨p₂, k₂, hp₂, hk₂, rfl⟩ := identityRequest_eq_ok.mp hy
  obtain rfl := hp.unique hp₁
  obtain rfl := hk.unique hk₁
  obtain rfl := (h.firstAt hp (by simp [hc])).unique hp₂
  have hlen : crlf.length = 2 := rfl
  -- The CRLF stands past the credential, and no credential byte is a CR.
  have hk' : FirstAt crlf (y.drop (p + bearerPrefix.length)) k := by
    constructor
    · rw [occurs_drop]
      refine (occurs_drop.mp hk.1).congr fun j hj _ => h.agree_after ?_
      simpa [hc] using hj
    · intro j hj hocc
      have hcr := (occurs_drop.mp hocc).getElem? (k := 0) (a := 0x0d) rfl
      have := (h.printable (p + bearerPrefix.length + j) (by simp [hc, hj]) _ (.inr hcr)).1
      exact absurd this (by decide)
  obtain rfl := hk'.unique hk₂
  rw [h.length_eq]
  refine ⟨rfl, h.shown_eq fun r hr => ?_⟩
  rw [revealing_reveal, sortByStart_pair, if_pos (Nat.zero_le _)] at hr
  simp only [List.mem_cons, List.not_mem_nil, or_false] at hr
  rcases hr with rfl | rfl
  · exact .inl (by simp [hc])
  · exact .inr (by simp [hc])

def IsBetweenReveals (l : Layout) (cred : Range) : Prop :=
  ∃ a d, l.reveal = [⟨a, cred.start⟩, ⟨cred.stop, d⟩]

/-- A match that opens before `s`, where a quote is, has its value's quote by `q`. -/
theorem valueAt_le {body : Bytes} {s t v : Nat} (h : ValueAt body accessToken true t v)
    (hts : t < s) (hs : body[s]? = some quote)
    (hclose : body[s + accessToken.length + 1]? = some quote) : v ≤ s + accessToken.length + 1 := by
  have hfield : quote ∉ accessToken := by decide
  have hlen : accessToken.length = 12 := rfl
  rcases h.le_of_quote hfield hts hs with h1 | h1
  · rcases h.le_of_quote hfield (by omega) hclose with h2 | h2 <;> omega
  · omega

theorem tokenResponse_noninterference (h : DifferIn x y cred) (hcred : IsBetweenReveals l cred)
    (hx : tokenResponse x = .ok l) (hy : tokenResponse y = .ok l') :
    l = l' ∧ l.shown x = l'.shown y := by
  obtain ⟨b, s, c, q, e, hb, hfirst, hmem, hne, rfl⟩ := tokenResponse_memberAt hx
  obtain ⟨b', s', c', q', e', hb', hfirst', hmem', -, rfl⟩ := tokenResponse_memberAt hy
  have hsc := hmem.keyAt.lt
  have hcq := hmem.ws.le
  obtain ⟨a, d, hreveal⟩ := hcred
  rw [revealing_reveal, sortByStart_pair, if_pos (by simp only; omega)] at hreveal
  simp only [List.cons.injEq, Range.mk.injEq, and_true] at hreveal
  obtain ⟨⟨-, hstart⟩, hstop, -⟩ := hreveal
  -- The head boundary stands before the credential in both runs.
  obtain rfl : b = b' := by
    obtain ⟨p, hp, rfl⟩ := hb
    obtain ⟨p', hp', rfl⟩ := hb'
    rw [(h.firstAt hp (by omega)).unique hp']
  have hlow : ∀ {i}, i ≤ q → (x.drop b)[i]? = (y.drop b)[i]? := by
    intro i hi
    rw [List.getElem?_drop, List.getElem?_drop]
    exact h.agree_before (by omega)
  have hfirst_y : FirstValueAt (y.drop b) accessToken true s q := by
    refine ⟨hfirst.1.congr fun i _ hi => hlow hi, fun t ht v hv => ?_⟩
    have hle := valueAt_le hv ht ((hlow (by omega)).symm.trans hmem.keyAt.opening)
      ((hlow (by omega)).symm.trans hmem.keyAt.closing)
    exact hfirst.2 t ht v (hv.congr fun i _ hi => (hlow (by omega)).symm)
  obtain ⟨rfl, rfl⟩ := hfirst_y.unique hfirst'
  -- The value's string closes where it did: the credential holds no quote.
  have hstr : StringAt (y.drop b) q e := by
    refine ⟨hmem'.string.opening, hmem.string.lt, fun i hi hie hq => ?_, ?_⟩
    · rw [List.getElem?_drop] at hq
      exact (h.printable (b + i) ⟨by omega, by omega⟩ quote (.inr hq)).2.2 rfl
    · have hclose := hmem.string.closing
      rw [List.getElem?_drop] at hclose ⊢
      rw [← h.agree_after (by omega)]
      exact hclose
  obtain rfl := hstr.unique hmem'.string
  rw [h.length_eq]
  refine ⟨rfl, h.shown_eq fun r hr => ?_⟩
  rw [revealing_reveal, sortByStart_pair, if_pos (by simp only; omega)] at hr
  simp only [List.mem_cons, List.not_mem_nil, or_false] at hr
  rcases hr with rfl | rfl
  · exact .inl (by simp only; omega)
  · exact .inr (by simp only; omega)

/-- What the three constructors place and show does not depend on the credential they hide. -/
theorem hidden_credentials_noninterference (h : DifferIn x y cred) :
    (∀ session, IsSecret x session cred → tokenRequest x session = .ok l →
      tokenRequest y session = .ok l' → l = l' ∧ l.shown x = l'.shown y) ∧
    (IsBetweenReveals l cred → tokenResponse x = .ok l → tokenResponse y = .ok l' →
      l = l' ∧ l.shown x = l'.shown y) ∧
    (IsHeaderBearer x cred → identityRequest x = .ok l → identityRequest y = .ok l' →
      l = l' ∧ l.shown x = l'.shown y) :=
  ⟨fun _ => tokenRequest_noninterference h, tokenResponse_noninterference h,
    identityRequest_noninterference h⟩

theorem hidden_credentials_noninterference_run :
    (∃ l, tokenRequest (ascii "POST /token&s=a1") ⟨some (ascii "s")⟩ = .ok l ∧
      tokenRequest (ascii "POST /token&s=b2") ⟨some (ascii "s")⟩ = .ok l ∧
      l.shown (ascii "POST /token&s=a1") = l.shown (ascii "POST /token&s=b2")) ∧
    (∃ l, tokenResponse (ascii "HTTP/1.1 200 OK\r\n\r\n\x7b\"access_token\":\"t\"\x7d") = .ok l ∧
      tokenResponse (ascii "HTTP/1.1 200 OK\r\n\r\n\x7b\"access_token\":\"u\"\x7d") = .ok l ∧
      l.shown (ascii "HTTP/1.1 200 OK\r\n\r\n\x7b\"access_token\":\"t\"\x7d") =
        l.shown (ascii "HTTP/1.1 200 OK\r\n\r\n\x7b\"access_token\":\"u\"\x7d")) ∧
    (∃ l, identityRequest (ascii "GET /\r\nauthorization: Bearer t\r\n") = .ok l ∧
      identityRequest (ascii "GET /\r\nauthorization: Bearer u\r\n") = .ok l ∧
      l.shown (ascii "GET /\r\nauthorization: Bearer t\r\n") =
        l.shown (ascii "GET /\r\nauthorization: Bearer u\r\n")) := by
  refine ⟨⟨⟨[⟨0, 11⟩], [⟨11, 16⟩]⟩, by decide +kernel, by decide +kernel, ?_⟩,
    ⟨⟨[⟨20, 36⟩, ⟨37, 38⟩], [⟨0, 20⟩, ⟨36, 37⟩, ⟨38, 39⟩]⟩, by decide +kernel,
      by decide +kernel, ?_⟩,
    ⟨⟨[⟨0, 29⟩, ⟨30, 32⟩], [⟨29, 30⟩]⟩, by decide +kernel, by decide +kernel, ?_⟩⟩
  · have h : DifferIn (ascii "POST /token&s=a1") (ascii "POST /token&s=b2") ⟨14, 16⟩ := by
      decide +kernel
    have hcred : IsSecret (ascii "POST /token&s=a1") ⟨some (ascii "s")⟩ ⟨14, 16⟩ :=
      ⟨11, ⟨by decide, by decide⟩, by decide⟩
    exact ((hidden_credentials_noninterference h).1 _ hcred
      (by decide +kernel) (by decide +kernel)).2
  · have h : DifferIn (ascii "HTTP/1.1 200 OK\r\n\r\n\x7b\"access_token\":\"t\"\x7d")
        (ascii "HTTP/1.1 200 OK\r\n\r\n\x7b\"access_token\":\"u\"\x7d") ⟨36, 37⟩ := by
      decide +kernel
    exact ((hidden_credentials_noninterference h).2.1 ⟨20, 38, rfl⟩
      (by decide +kernel) (by decide +kernel)).2
  · have h : DifferIn (ascii "GET /\r\nauthorization: Bearer t\r\n")
        (ascii "GET /\r\nauthorization: Bearer u\r\n") ⟨29, 30⟩ := by decide +kernel
    exact ((hidden_credentials_noninterference h).2.2
      ⟨5, 1, ⟨by decide, by decide⟩, ⟨by decide, by decide⟩, by decide⟩
      (by decide +kernel) (by decide +kernel)).2

end Layout

end Libid.Transcript
