import Libid.Json.Scan
import Libid.Transcript.Identity

/-! The member scans over JSON texts.  A scan has no lexer state, but a quote in a
string's text has a backslash before it and no name ends in one, so a match closes
where a token closes, and only a member's name has a colon after it. -/

namespace Libid.Transcript

open Json (Text Member Str Follows InToken)

theorem WsRun.of_blank {text : Bytes} {a b : Nat} (h : Json.Blank text a b) : WsRun text a b :=
  ⟨h.le, h.ws⟩

theorem IsNameByte.not_closing :
    ∀ {b : UInt8}, IsNameByte b → ¬ (Json.isWs b ∨ b ∈ Json.closers) := by
  decide +kernel

theorem KeyAt.first {text field : Bytes} {s c : Nat} (h : KeyAt text field s c)
    (hf : IsName field) (hne : field ≠ []) : ∃ b, text[s + 1]? = some b ∧ IsNameByte b := by
  cases field with
  | nil => exact absurd rfl hne
  | cons b field => exact ⟨b, h.name (i := 0) (by simp), hf b (by simp)⟩

theorem KeyAt.last {text field : Bytes} {s c : Nat} (h : KeyAt text field s c)
    (hf : IsName field) (hne : field ≠ []) :
    ∃ b, text[s + field.length]? = some b ∧ IsNameByte b := by
  have hlen := List.length_pos_of_ne_nil hne
  have hi : field.length - 1 < field.length := by omega
  have hname := h.name hi
  rw [show s + 1 + (field.length - 1) = s + field.length by omega,
    List.getElem?_eq_getElem hi] at hname
  exact ⟨_, hname, hf _ (List.getElem_mem ..)⟩

theorem KeyAt.not_follows {text field : Bytes} {s c : Nat} (h : KeyAt text field s c) :
    ¬ Follows text (s + field.length + 2) := by
  rintro ⟨j, hblank, hend⟩
  have hj : ¬ WsAt text j := by
    rintro ⟨b, hb, hws⟩
    rcases hend with hnone | ⟨x, hx, hclose⟩
    · simp [hb] at hnone
    · obtain rfl := Option.some.inj (hb.symm.trans hx)
      have : ∀ b ∈ Json.closers, isJsonWhitespace b = false := by decide +kernel
      simp [this b hclose] at hws
  have h1 := h.ws.le_of_not_wsAt hj hblank.le
  have h2 := (WsRun.of_blank hblank).le_of_not_wsAt (not_wsAt_colon h.colon) h.ws.le
  obtain rfl : c = j := Nat.le_antisymm h1 h2
  rcases hend with hnone | ⟨x, hx, hclose⟩
  · simp [h.colon] at hnone
  · obtain rfl := Option.some.inj (h.colon.symm.trans hx)
    exact absurd hclose (by decide)

/-- A match that opens in a token closes where the token does. -/
theorem KeyAt.closes_token {text field : Bytes} {s c p : Nat} {str : Str}
    (h : KeyAt text field s c) (hf : IsName field) (hne : field ≠ [])
    (hocc : Occurs str.token text p)
    (hnext : ∀ b, text[p + str.text.length + 2]? = some b → ¬ IsNameByte b) (hp : p ≤ s)
    (hs : s ≤ p + str.text.length + 1) :
    s < p + str.text.length + 1 ∧ s + field.length = p + str.text.length := by
  obtain ⟨-, -, hclose⟩ := Str.occurs_token.mp hocc
  have hlt : s < p + str.text.length + 1 := by
    rcases Nat.eq_or_lt_of_le hs with rfl | hlt
    · obtain ⟨b, hb, hname⟩ := h.first hf hne
      exact absurd hname (hnext b hb)
    · exact hlt
  refine ⟨hlt, ?_⟩
  have hle := h.le_of_quote hf.quote_notMem hlt hclose
  by_contra hno
  -- The closing quote would be inside the string, with a name's byte and no backslash before it.
  obtain ⟨-, hback⟩ := Str.backslash_before_at hocc (by omega) (by omega) h.closing
  obtain ⟨b, hb, hname⟩ := h.last hf hne
  rw [Nat.add_sub_cancel, hb] at hback
  obtain rfl := Option.some.inj hback
  exact absurd hname (by decide)

/-- No match opens in a value's token. -/
theorem KeyAt.not_in_value {text field : Bytes} {s c p : Nat} {str : Str}
    (h : KeyAt text field s c) (hf : IsName field) (hne : field ≠ [])
    (hocc : Occurs str.token text p) (hfollows : Follows text (p + str.text.length + 2))
    (hp : p ≤ s) : p + str.text.length + 1 < s := by
  by_contra hs
  have hnext : ∀ b, text[p + str.text.length + 2]? = some b → ¬ IsNameByte b :=
    fun b hb hname => hname.not_closing (hfollows.next hb)
  obtain ⟨-, heq⟩ := h.closes_token hf hne hocc hnext hp (by omega)
  exact h.not_follows (heq ▸ hfollows)

theorem separator_after_name {m : Member} {text : Bytes} (h : m.In text) {b : UInt8}
    (hb : text[m.close + 1]? = some b) : IsSeparator b := by
  rcases Nat.eq_or_lt_of_le h.gap.le with heq | hlt
  · have hcolon := h.colon
    rw [← heq, hb] at hcolon
    exact .inr (Option.some.inj hcolon)
  · obtain ⟨x, hx, hws⟩ := h.gap.ws _ le_rfl hlt
    exact .inl (Option.some.inj (hb.symm.trans hx) ▸ hws)

/-- The name a match reads: all of `m`'s, or what follows an escaped quote at its end. -/
def Names (m : Member) (field : Bytes) : Prop :=
  m.name.text = field ∨ Json.backslash :: quote :: field <:+ m.name.text

theorem names_of_close {text field : Bytes} {s c : Nat} {m : Member} (h : KeyAt text field s c)
    (hm : m.In text) (hstart : m.start ≤ s) (hclose : m.close = s + field.length + 1) :
    Names m field := by
  obtain ⟨-, hbody, -⟩ := Str.occurs_token.mp hm.key
  have hget : ∀ i < m.name.text.length, m.name.text[i]? = text[m.start + 1 + i]? :=
    fun i hi => (occurs_iff_getElem?.mp hbody i hi).symm
  simp only [Member.close] at hclose
  rcases Nat.eq_or_lt_of_le hstart with heq | hlt
  · refine .inl (List.ext_getElem? fun i => ?_)
    rcases Nat.lt_or_ge i field.length with hi | hi
    · rw [hget i (by omega), heq, h.name hi]
    · rw [List.getElem?_eq_none hi, List.getElem?_eq_none (by omega)]
  · obtain ⟨hpos, hback⟩ := Str.backslash_before_at hm.key hlt (by omega) h.opening
    apply Or.inr
    have hdrop : m.name.text.drop (s - 2 - m.start) = Json.backslash :: quote :: field := by
      apply List.ext_getElem?
      intro i
      rw [List.getElem?_drop]
      cases i with
      | zero =>
        rw [hget _ (by omega), show m.start + 1 + (s - 2 - m.start + 0) = s - 1 by omega, hback]
        rfl
      | succ i =>
        cases i with
        | zero =>
          rw [hget _ (by omega), show m.start + 1 + (s - 2 - m.start + (0 + 1)) = s by omega,
            h.opening]
          rfl
        | succ i =>
          rcases Nat.lt_or_ge i field.length with hi | hi
          · rw [hget _ (by omega),
              show m.start + 1 + (s - 2 - m.start + (i + 1 + 1)) = s + 1 + i by omega, h.name hi]
            rfl
          · rw [List.getElem?_eq_none (by omega)]
            simp [hi]
    rw [← hdrop]
    exact List.drop_suffix ..

/-- A match closes a member's name, and goes on to that member's colon. -/
theorem KeyAt.in_member {t : Text} {field : Bytes} {s c : Nat} (h : KeyAt t.bytes field s c)
    (hf : IsName field) (hne : field ≠ []) :
    ∃ m ∈ t.members, m.In t.bytes ∧ m.start ≤ s ∧ m.close = s + field.length + 1 ∧
      m.colon = c ∧ Names m field := by
  obtain ⟨hmem, hquotes⟩ := t.placed
  obtain ⟨p, str, hocc, hp, hs, hrole⟩ := hquotes s h.opening
  rcases hrole with hfollows | ⟨m, hm, rfl, rfl⟩
  · have := h.not_in_value hf hne hocc hfollows hp
    omega
  · have hin := hmem m hm
    have hnext : ∀ b, t.bytes[m.start + m.name.text.length + 2]? = some b → ¬ IsNameByte b :=
      fun b hb hname => (separator_after_name hin hb).not_head (.inl hname)
    obtain ⟨hlt, heq⟩ := h.closes_token hf hne hin.key hnext hp hs
    have hclose : m.close = s + field.length + 1 := by
      simp only [Member.close]
      omega
    refine ⟨m, hm, hin, hp, hclose, ?_, names_of_close h hin hp hclose⟩
    have hgap := WsRun.of_blank hin.gap
    rw [hclose] at hgap
    exact Nat.le_antisymm (hgap.le_of_not_wsAt (not_wsAt_colon h.colon) h.ws.le)
      (h.ws.le_of_not_wsAt (not_wsAt_colon hin.colon) hgap.le)

theorem ValueAt.in_member {t : Text} {field : Bytes} {quoted : Bool} {s v : Nat}
    (h : ValueAt t.bytes field quoted s v) (hf : IsName field) (hne : field ≠ []) :
    ∃ m ∈ t.members, m.In t.bytes ∧ m.start ≤ s ∧ m.close = s + field.length + 1 ∧
      KeyAt t.bytes field s m.colon ∧ m.valueAt = v ∧ Names m field ∧
      (quoted = true → ∃ str, m.value = .string str) := by
  obtain ⟨c, hc, hskip, hopen⟩ := h
  obtain ⟨m, hm, hin, hstart, hclose, rfl, hnames⟩ := hc.in_member hf hne
  obtain ⟨b, hb, hws, hstring, -⟩ := m.value.head
  have hfirst := hin.value.getElem? hb
  rw [Nat.add_zero] at hfirst
  have hvalue : m.valueAt = v := by
    rw [← hskip]
    exact (skipJsonWhitespace_eq_iff.mpr
      ⟨WsRun.of_blank hin.gap', not_wsAt_of_eq hfirst hws⟩).symm
  refine ⟨m, hm, hin, hstart, hclose, hc, hvalue, hnames, fun hq => hstring ?_⟩
  have hquote := hopen.resolve_left (by simp [hq])
  rw [← hvalue, hfirst] at hquote
  exact Option.some.inj hquote

theorem NumberAt.whole_token {text : Bytes} {d n t : Nat} {m : Member} (h : NumberAt text d n t)
    (hin : m.In text) (hd : m.valueAt = d) :
    ∃ num, m.value = .atom (.number num) ∧ n = d + num.bytes.length := by
  subst hd
  obtain ⟨b, hb, -, -, hnumber⟩ := m.value.head
  have hfirst := hin.value.getElem? hb
  rw [Nat.add_zero] at hfirst
  obtain ⟨num, hnum, hneg⟩ := hnumber ((digitAt_iff hfirst).mp (h.digits _ le_rfl h.lt))
  refine ⟨num, hnum, ?_⟩
  have hocc : Occurs num.bytes text m.valueAt := by
    have := hin.value
    rwa [hnum] at this
  have hfollows : Follows text (m.valueAt + num.bytes.length) := by
    have := hin.follows
    rwa [hnum] at this
  obtain ⟨hdigits, hrest⟩ := num.leading_digits hneg hocc
  -- The scan's digits stop where the number's leading digits do.
  have hstop : ∀ {w}, (∀ i, m.valueAt ≤ i → i < m.valueAt + w → DigitAt text i) →
      ¬ DigitAt text (m.valueAt + w) → n = m.valueAt + w := by
    intro w hrun hend
    have hlt := h.lt
    by_contra hne
    rcases Nat.lt_or_gt_of_ne hne with hlt' | hgt
    · exact h.whole (hrun n (by omega) hlt')
    · exact hend (h.digits _ (by omega) hgt)
  rcases hrest with hlen | ⟨x, hx, hcont⟩
  · apply hstop (hlen ▸ hdigits)
    rintro ⟨x, hx, hdig⟩
    have : ∀ x : UInt8, isAsciiDigit x → ¬ (Json.isWs x ∨ x ∈ Json.closers) := by decide +kernel
    exact this x hdig (hfollows.next hx)
  · -- A fraction or an exponent would stand where the terminator has to.
    have hcont' : ∀ x ∈ ([0x2e, 0x65, 0x45] : Bytes), isAsciiDigit x = false ∧
        isJsonWhitespace x = false ∧ x ≠ 0x2c ∧ x ≠ 0x7d := by decide +kernel
    obtain ⟨hdig, hws, hcomma, hbrace⟩ := hcont' x hcont
    have hn := hstop hdigits (by rw [digitAt_iff hx, hdig]; simp)
    rw [← hn] at hx
    have htn := h.ws.le_of_not_wsAt (not_wsAt_of_eq hx hws) le_rfl
    obtain rfl : n = t := Nat.le_antisymm h.ws.le htn
    rcases h.term with hterm | hterm <;> rw [hx] at hterm
    · exact absurd (Option.some.inj hterm) hcomma
    · exact absurd (Option.some.inj hterm) hbrace

theorem FirstSnippetAt.no_key_inside {t : Text} {f g : Bytes} {quoted : Bool} {r : Range}
    {i c : Nat} (h : FirstSnippetAt t.bytes f quoted r) (hf : IsName f) (hfne : f ≠ [])
    (hg : IsName g) (hgne : g ≠ []) (hne : f ≠ g) (hk : KeyAt t.bytes g i c)
    (hi : r.start ≤ i) : r.stop ≤ i := by
  by_contra hlt
  obtain ⟨v, hv, htail⟩ := h
  have hsnip : SnippetAt t.bytes f quoted r.start v r.stop := ⟨hv.1, htail⟩
  rcases hsnip.keyAt hf hg hk hi (by omega) with ⟨-, heq⟩ | ⟨rfl, hval⟩
  · exact hne heq.symm
  · obtain ⟨m, -, hin, -, -, -, rfl, -, hstring⟩ := hv.1.in_member hf hfne
    obtain ⟨str, hstr⟩ := hstring rfl
    have hocc : Occurs str.token t.bytes m.valueAt := by
      have := hin.value
      rwa [hstr] at this
    have hfollows : Follows t.bytes (m.valueAt + str.text.length + 2) := by
      have := hin.follows
      rw [hstr, Json.Tree.bytes, Str.length_token] at this
      exact this
    -- The scanned value ends no later than the string does, so `i` is in the string.
    obtain ⟨e, hscan, hstop⟩ := tailAt_true.mp htail
    have hclose := (Str.occurs_token.mp hocc).2.2
    have he : e ≤ m.valueAt + str.text.length + 1 := by
      by_contra hgt
      exact hscan.quoteFree _ (by omega) (by omega) hclose
    have hscanlt := hscan.lt
    have := hk.not_in_value hg hgne hocc hfollows (by omega)
    omega

structure FindsMember (t : Text) (field : Bytes) : Prop where
  scan : ∀ quoted start value, keyAndValue t.bytes field quoted = some (start, value) →
    ∃ m ∈ t.members, m.In t.bytes ∧ m.close = start + field.length + 1 ∧ Names m field ∧
      m.colon = skipJsonWhitespace t.bytes (start + (quotedKey field).length) ∧
      m.valueAt = value ∧ (quoted = true → ∃ str, m.value = .string str)
  bare : ∀ r, findJsonBareSnippetRange t.bytes field = some r →
    ∃ d n stop, keyAndValue t.bytes field false = some (r.start, d) ∧
      NumberAt t.bytes d n stop ∧ r.stop = stop + 1 ∧
      ∃ m ∈ t.members, m.In t.bytes ∧ m.close = r.start + field.length + 1 ∧ m.valueAt = d ∧
        ∃ num, m.value = .atom (.number num) ∧ n = d + num.bytes.length
  disjoint : ∀ g, IsName g → g ≠ [] → field ≠ g → ∀ quoted quoted' r r',
    findSnippet t.bytes field quoted = some r → findSnippet t.bytes g quoted' = some r' →
      r.Disjoint r'

/-- No string value forges a member: a scan of a JSON text answers for a member of it. -/
theorem finds_member (t : Text) {field : Bytes} (hf : IsName field) (hne : field ≠ []) :
    FindsMember t field where
  scan quoted start value h := by
    obtain ⟨m, hm, hin, -, hclose, hkey, hvalue, hnames, hstring⟩ :=
      (keyAndValue_eq_some.mp h).1.in_member hf hne
    exact ⟨m, hm, hin, hclose, hnames, (keyAt_iff_skip.mp hkey).2.1.symm, hvalue, hstring⟩
  bare r h := by
    obtain ⟨s, d, n, stop, hfirst, hnum, rfl⟩ := findJsonBareSnippetRange_eq_some.mp h
    obtain ⟨m, hm, hin, -, hclose, -, hvalue, -⟩ := hfirst.1.in_member hf hne
    exact ⟨d, n, stop, keyAndValue_eq_some.mpr hfirst, hnum, rfl, m, hm, hin, hclose, hvalue,
      hnum.whole_token hin hvalue⟩
  disjoint g hg hgne hfg quoted quoted' r r' hr hr' := by
    have hr := findSnippet_eq_some.mp hr
    have hr' := findSnippet_eq_some.mp hr'
    rw [Range.disjoint_iff hr.bounds.1 hr'.bounds.1]
    obtain ⟨c, hc, -⟩ := hr.choose_spec.1.1
    obtain ⟨c', hc', -⟩ := hr'.choose_spec.1.1
    rcases Nat.le_total r.start r'.start with hle | hle
    · exact .inl (hr.no_key_inside hf hne hg hgne hfg hc' hle)
    · exact .inr (hr'.no_key_inside hg hgne hf hne hfg.symm hc hle)

/-- A string value that spells the member is passed over for the member itself. -/
theorem finds_member_run :
    ∃ t : Text, t.bytes = ascii "\x7b\"x\":\"\\\"id\\\":9\",\"id\":7\x7d" ∧
      keyAndValue t.bytes (ascii "id") false = some (16, 21) ∧
      ∃ m ∈ t.members, m.In t.bytes ∧ m.close = 19 ∧ m.valueAt = 21 ∧ Names m (ascii "id") := by
  let t : Text := ⟨.empty, .object (.member ⟨.empty, ⟨[.plain 0x78 (by decide)]⟩, .empty⟩ .empty
    (.string ⟨[.escape 0x22 (by decide), .plain 0x69 (by decide), .plain 0x64 (by decide),
      .escape 0x22 (by decide), .plain 0x3a (by decide), .plain 0x39 (by decide)]⟩) .empty
    (.lastMember ⟨.empty, ⟨[.plain 0x69 (by decide), .plain 0x64 (by decide)]⟩, .empty⟩ .empty
      (.atom (.number ⟨false, [0x37], [], [], ⟨⟨by decide, by decide +kernel⟩, by decide⟩, .inl rfl,
        .inl rfl⟩)) .empty)), .empty⟩
  have hbytes : t.bytes = ascii "\x7b\"x\":\"\\\"id\\\":9\",\"id\":7\x7d" := by decide
  have hscan : keyAndValue t.bytes (ascii "id") false = some (16, 21) := by
    rw [hbytes]
    decide +kernel
  obtain ⟨m, hm, hin, hclose, hnames, -, hvalue, -⟩ :=
    (finds_member t (by decide +kernel) (by decide)).scan false 16 21 hscan
  exact ⟨t, hbytes, hscan, m, hm, hin, hclose, hvalue, hnames⟩

end Libid.Transcript
