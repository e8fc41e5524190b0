import Libid.Transcript.Template
import Mathlib.Order.Bounds.Basic

/-! The templates of the member scanners as sets of byte strings.  Each scanner answers
for the leftmost place one of its strings stands. -/

namespace Libid.Transcript

variable {body field : Bytes}

theorem exists_occurs_iff {P : UInt8 → Prop} {a b : Nat} (hab : a ≤ b) :
    (∃ w, (∀ x ∈ w, P x) ∧ Occurs w body a ∧ b = a + w.length) ↔
      ∀ i, a ≤ i → i < b → ∃ x, body[i]? = some x ∧ P x := by
  constructor
  · rintro ⟨w, hw, hocc, rfl⟩ i hi hlt
    have hk : i - a < w.length := by omega
    have hget := hocc.getElem? (List.getElem?_eq_getElem hk)
    rw [Nat.add_sub_cancel' hi] at hget
    exact ⟨_, hget, hw _ (List.getElem_mem hk)⟩
  · intro h
    have hlen : (slice body ⟨a, b⟩).length = b - a := by
      rcases Nat.eq_or_lt_of_le hab with rfl | hlt
      · simp [slice]
      · obtain ⟨x, hx, -⟩ := h (b - 1) (by omega) (by omega)
        have := (List.getElem?_eq_some_iff.mp hx).1
        exact length_slice body _ (by simp only; omega)
    refine ⟨slice body ⟨a, b⟩, ?_, ?_, by omega⟩
    · intro x hx
      obtain ⟨i, hi, hlt, hget⟩ := mem_slice.mp hx
      obtain ⟨y, hy, hP⟩ := h i hi hlt
      obtain rfl := Option.some.inj (hget.symm.trans hy)
      exact hP
    · rw [occurs_iff_slice_eq, hlen, Nat.add_sub_cancel' hab]

def IsWhite (b : UInt8) : Prop := b = 0x20 ∨ b = 0x09 ∨ b = 0x0a ∨ b = 0x0d

theorem isWhite_iff {b : UInt8} : IsWhite b ↔ isJsonWhitespace b := by
  simp [IsWhite, isJsonWhitespace, or_assoc]

theorem wsAt_iff_isWhite {i : Nat} : WsAt body i ↔ ∃ b, body[i]? = some b ∧ IsWhite b := by
  simp only [WsAt, isWhite_iff]

theorem wsRun_iff {a b : Nat} :
    WsRun body a b ↔ ∃ ws, (∀ x ∈ ws, IsWhite x) ∧ Occurs ws body a ∧
      b = a + ws.length := by
  constructor
  · intro h
    exact (exists_occurs_iff h.le).mpr fun i hi hlt => wsAt_iff_isWhite.mp (h.ws i hi hlt)
  · rintro ⟨ws, hws, hocc, rfl⟩
    have hle : a ≤ a + ws.length := Nat.le_add_right ..
    have hrun := (exists_occurs_iff hle).mp ⟨ws, hws, hocc, rfl⟩
    exact ⟨hle, fun i hi hlt => wsAt_iff_isWhite.mpr (hrun i hi hlt)⟩

theorem stringAt_iff {q e : Nat} :
    StringAt body q e ↔ ∃ value, quote ∉ value ∧
      Occurs ([quote] ++ value ++ [quote]) body q ∧ e = q + 1 + value.length := by
  simp only [occurs_append, occurs_singleton, List.length_append, List.length_singleton]
  constructor
  · intro h
    have hle := h.lt
    have hlt := (List.getElem?_eq_some_iff.mp h.closing).1
    have hrun : ∀ i, q + 1 ≤ i → i < e → ∃ x, body[i]? = some x ∧ x ≠ quote := by
      intro i hi hie
      refine ⟨body[i], List.getElem?_eq_getElem (by omega), ?_⟩
      intro hx
      exact h.quoteFree i hi hie (by rw [List.getElem?_eq_getElem (by omega), hx])
    obtain ⟨value, hfree, hocc, rfl⟩ := (exists_occurs_iff hle).mpr hrun
    exact ⟨value, fun hq => hfree quote hq rfl, ⟨⟨h.opening, hocc⟩, by
      rw [← Nat.add_assoc]; exact h.closing⟩, rfl⟩
  · rintro ⟨value, hfree, ⟨⟨hopen, hocc⟩, hclose⟩, rfl⟩
    have hrun := (exists_occurs_iff (Nat.le_add_right (q + 1) value.length)).mp
      ⟨value, fun x hx => ne_of_mem_of_not_mem hx hfree, hocc, rfl⟩
    refine ⟨hopen, by omega, fun i hi hie hq => ?_, by rw [Nat.add_assoc]; exact hclose⟩
    obtain ⟨x, hx, hne⟩ := hrun i hi hie
    exact hne (Option.some.inj (hx.symm.trans hq))

/-- A match of `"field" W* :`. -/
structure KeyText (field : Bytes) where
  gap : Bytes
  white : ∀ b ∈ gap, IsWhite b

def KeyText.bytes (k : KeyText field) : Bytes := quotedKey field ++ k.gap ++ [colon]

theorem KeyText.length_bytes (k : KeyText field) :
    k.bytes.length = field.length + 2 + k.gap.length + 1 := by
  simp only [bytes, List.length_append, length_quotedKey, List.length_singleton]

theorem KeyText.colon_add_one (k : KeyText field) (s : Nat) :
    s + field.length + 2 + k.gap.length + 1 = s + k.bytes.length := by
  rw [k.length_bytes]
  omega

theorem keyAt_iff {s c : Nat} :
    KeyAt body field s c ↔ ∃ k : KeyText field, Occurs k.bytes body s ∧
      c + 1 = s + k.bytes.length := by
  simp only [KeyText.length_bytes]
  simp only [KeyText.bytes, occurs_append, occurs_singleton, List.length_append,
    length_quotedKey, ← Nat.add_assoc]
  constructor
  · rintro ⟨hkey, hws, hcolon⟩
    obtain ⟨gap, hwhite, hocc, rfl⟩ := wsRun_iff.mp hws
    exact ⟨⟨gap, hwhite⟩, ⟨⟨hkey, hocc⟩, hcolon⟩, rfl⟩
  · rintro ⟨k, ⟨⟨hkey, hocc⟩, hcolon⟩, hc⟩
    obtain rfl := Nat.succ.inj hc
    exact ⟨hkey, wsRun_iff.mpr ⟨k.gap, k.white, hocc, rfl⟩, hcolon⟩

/-- A match of `"field" W* : W* " [^"]* "`. -/
structure QuotedText (field : Bytes) where
  key : KeyText field
  gap : Bytes
  white : ∀ b ∈ gap, IsWhite b
  value : Bytes
  quoteFree : quote ∉ value

namespace QuotedText

def delimiter (m : QuotedText field) : Bytes := m.key.bytes ++ m.gap ++ [quote]

def bytes (m : QuotedText field) : Bytes := m.delimiter ++ m.value ++ [quote]

def memberAt (m : QuotedText field) (s : Nat) : JsonMember where
  member := ⟨s, s + m.bytes.length⟩
  value := ⟨s + m.delimiter.length, s + m.delimiter.length + m.value.length⟩

end QuotedText

theorem memberAt_iff {s : Nat} {r : JsonMember} :
    (∃ c q e, MemberAt body field s c q e ∧ r = memberOf s q e) ↔
      ∃ m : QuotedText field, Occurs m.bytes body s ∧ r = m.memberAt s := by
  constructor
  · rintro ⟨c, q, e, ⟨hkey, hws, hstr⟩, rfl⟩
    obtain ⟨key, hkey, hc⟩ := keyAt_iff.mp hkey
    obtain ⟨gap, hwhite, hgap, rfl⟩ := wsRun_iff.mp hws
    obtain ⟨value, hfree, hvalue, rfl⟩ := stringAt_iff.mp hstr
    refine ⟨⟨key, gap, hwhite, value, hfree⟩, ?_, ?_⟩
    · simp only [QuotedText.bytes, QuotedText.delimiter, List.append_assoc] at hvalue ⊢
      rw [occurs_append, ← hc, occurs_append]
      exact ⟨hkey, hgap, hvalue⟩
    · simp only [memberOf, QuotedText.memberAt, QuotedText.bytes, QuotedText.delimiter,
        List.length_append, List.length_singleton, JsonMember.mk.injEq, Range.mk.injEq, true_and]
      omega
  · rintro ⟨⟨key, gap, hwhite, value, hfree⟩, hocc, rfl⟩
    simp only [QuotedText.bytes, QuotedText.delimiter, List.append_assoc] at hocc
    rw [occurs_append, occurs_append] at hocc
    obtain ⟨hkey, hgap, hvalue⟩ := hocc
    have hc := key.colon_add_one s
    rw [← hc] at hgap hvalue
    refine ⟨_, _, _, ⟨keyAt_iff.mpr ⟨key, hkey, hc⟩, wsRun_iff.mpr ⟨gap, hwhite, hgap, rfl⟩,
      stringAt_iff.mpr ⟨value, hfree, hvalue, rfl⟩⟩, ?_⟩
    simp only [memberOf, QuotedText.memberAt, QuotedText.bytes, QuotedText.delimiter,
      List.length_append, List.length_singleton, JsonMember.mk.injEq, Range.mk.injEq, true_and]
    omega

def Canonical (digits : Bytes) : Prop := digits = [0x30] ∨ digits ≠ [] ∧ digits[0]? ≠ some 0x30

/-- A match of `"field" W* : W* N W* T`. -/
structure BareText (field : Bytes) where
  key : KeyText field
  gap : Bytes
  white : ∀ b ∈ gap, IsWhite b
  digits : Bytes
  digit : ∀ b ∈ digits, isAsciiDigit b
  canonical : Canonical digits
  tail : Bytes
  tailWhite : ∀ b ∈ tail, IsWhite b
  term : UInt8
  closes : term = 0x2c ∨ term = 0x7d

def BareText.bytes (m : BareText field) : Bytes :=
  m.key.bytes ++ m.gap ++ (m.digits ++ m.tail ++ [m.term])

theorem getElem?_of_occurs {w : Bytes} {i : Nat} (h : Occurs w body i) (hw : w ≠ []) :
    body[i]? = w[0]? :=
  occurs_iff_getElem?.mp h 0 (List.length_pos_of_ne_nil hw)

theorem canonical_iff {digits : Bytes} {d : Nat} (h : Occurs digits body d) :
    Canonical digits ↔
      0 < digits.length ∧ (digits.length = 1 ∨ body[d]? ≠ some 0x30) := by
  cases digits with
  | nil => simp [Canonical]
  | cons a digits =>
    rw [getElem?_of_occurs h (List.cons_ne_nil a digits)]
    by_cases ha : a = 0x30 <;> simp [Canonical, ha]

theorem not_digitAt_of_eq {i : Nat} {b : UInt8} (h : body[i]? = some b)
    (hb : isAsciiDigit b = false) : ¬ DigitAt body i := by
  simp [digitAt_iff h, hb]

theorem isAsciiDigit_of_whitespace {b : UInt8} (h : IsWhite b) : isAsciiDigit b = false := by
  rcases h with rfl | rfl | rfl | rfl <;> rfl

theorem not_digitAt_tail {tail : Bytes} {n : Nat} {term : UInt8}
    (htail : ∀ b ∈ tail, IsWhite b) (hterm : term = 0x2c ∨ term = 0x7d)
    (h : Occurs (tail ++ [term]) body n) : ¬ DigitAt body n := by
  have hn := getElem?_of_occurs h (by simp)
  cases tail with
  | nil => exact not_digitAt_of_eq hn (by rcases hterm with rfl | rfl <;> rfl)
  | cons b tail => exact not_digitAt_of_eq hn (isAsciiDigit_of_whitespace (htail b (by simp)))

theorem numberAt_iff {d n t : Nat} :
    NumberAt body d n t ↔ ∃ digits tail term, (∀ b ∈ digits, isAsciiDigit b) ∧
      Canonical digits ∧ (∀ b ∈ tail, IsWhite b) ∧ (term = 0x2c ∨ term = 0x7d) ∧
      Occurs (digits ++ tail ++ [term]) body d ∧ n = d + digits.length ∧ t = n + tail.length := by
  constructor
  · rintro ⟨hlt, hdigits, -, hcanonical, hws, hterm⟩
    obtain ⟨digits, hdigit, hocc, rfl⟩ := (exists_occurs_iff (Nat.le_of_lt hlt)).mpr hdigits
    obtain ⟨tail, hwhite, htail, rfl⟩ := wsRun_iff.mp hws
    have hcan := (canonical_iff hocc).mpr ⟨by omega, by simpa using hcanonical⟩
    obtain ⟨term, hterm, hlast⟩ : ∃ term, (term = 0x2c ∨ term = 0x7d) ∧
        body[d + digits.length + tail.length]? = some term := by
      rcases hterm with h | h
      · exact ⟨_, .inl rfl, h⟩
      · exact ⟨_, .inr rfl, h⟩
    refine ⟨digits, tail, term, hdigit, hcan, hwhite, hterm, ?_, rfl, rfl⟩
    rw [occurs_append, occurs_singleton, List.length_append, ← Nat.add_assoc]
    exact ⟨occurs_append.mpr ⟨hocc, htail⟩, hlast⟩
  · rintro ⟨digits, tail, term, hdigit, hcanonical, hwhite, hterm, hocc, rfl, rfl⟩
    rw [List.append_assoc, occurs_append] at hocc
    obtain ⟨hocc, hrest⟩ := hocc
    obtain ⟨htail, hlast⟩ := occurs_append.mp hrest
    obtain ⟨hpos, hcan⟩ := (canonical_iff hocc).mp hcanonical
    have hle : d ≤ d + digits.length := Nat.le_add_right ..
    exact {
      lt := Nat.lt_add_of_pos_right hpos
      digits := (exists_occurs_iff hle).mp ⟨digits, hdigit, hocc, rfl⟩
      whole := not_digitAt_tail hwhite hterm hrest
      canonical := by simpa using hcan
      ws := wsRun_iff.mpr ⟨tail, hwhite, htail, rfl⟩
      term := by
        rw [occurs_singleton.mp hlast]
        simpa using hterm }

theorem NumberAt.not_wsAt {d n t : Nat} (h : NumberAt body d n t) : ¬ WsAt body d := by
  intro hws
  obtain ⟨b, hb, hwhite⟩ := wsAt_iff_isWhite.mp hws
  exact not_digitAt_of_eq hb (isAsciiDigit_of_whitespace hwhite) (h.digits d le_rfl h.lt)

theorem bareAt_iff {s : Nat} {r : Range} :
    (∃ d n t, ValueAt body field false s d ∧ NumberAt body d n t ∧ r = ⟨s, t + 1⟩) ↔
      ∃ m : BareText field, Occurs m.bytes body s ∧ r = ⟨s, s + m.bytes.length⟩ := by
  constructor
  · rintro ⟨d, n, t, ⟨c, hkey, rfl, -⟩, hnum, rfl⟩
    obtain ⟨key, hkey, hc⟩ := keyAt_iff.mp hkey
    obtain ⟨gap, hwhite, hgap, hd⟩ := wsRun_iff.mp (skipJsonWhitespace_spec body (c + 1)).1
    rw [hd] at hnum
    obtain ⟨digits, tail, term, hdigit, hcan, htail, hterm, hocc, rfl, rfl⟩ := numberAt_iff.mp hnum
    refine ⟨⟨key, gap, hwhite, digits, hdigit, hcan, tail, htail, term, hterm⟩, ?_, ?_⟩
    · rw [BareText.bytes, List.append_assoc, occurs_append, ← hc, occurs_append]
      exact ⟨hkey, hgap, hocc⟩
    · simp only [BareText.bytes, List.length_append, List.length_singleton, Range.mk.injEq,
        true_and]
      omega
  · rintro ⟨m, hocc, rfl⟩
    rw [BareText.bytes, List.append_assoc, occurs_append, occurs_append] at hocc
    obtain ⟨hkey, hgap, hrest⟩ := hocc
    have hc := m.key.colon_add_one s
    rw [← hc] at hgap hrest
    have hnum := numberAt_iff.mpr ⟨m.digits, m.tail, m.term, m.digit, m.canonical, m.tailWhite,
      m.closes, hrest, rfl, rfl⟩
    have hskip := skipJsonWhitespace_eq_iff.mpr
      ⟨wsRun_iff.mpr ⟨m.gap, m.white, hgap, rfl⟩, hnum.not_wsAt⟩
    refine ⟨_, _, _, ⟨_, keyAt_iff.mpr ⟨m.key, hkey, hc⟩, hskip, .inl rfl⟩, hnum, ?_⟩
    simp only [BareText.bytes, List.length_append, List.length_singleton, Range.mk.injEq, true_and]
    omega

def quotedPlaces (body field : Bytes) : Set Nat :=
  {s | ∃ m : QuotedText field, Occurs m.bytes body s}

def keyPlaces (body field : Bytes) : Set Nat := {s | ∃ k : KeyText field, Occurs k.bytes body s}

theorem mem_quotedPlaces {s : Nat} :
    s ∈ quotedPlaces body field ↔ ∃ c q e, MemberAt body field s c q e := by
  constructor
  · rintro ⟨m, hm⟩
    obtain ⟨c, q, e, h, -⟩ := memberAt_iff.mpr ⟨m, hm, rfl⟩
    exact ⟨c, q, e, h⟩
  · rintro ⟨c, q, e, h⟩
    obtain ⟨m, hm, -⟩ := memberAt_iff.mp ⟨c, q, e, h, rfl⟩
    exact ⟨m, hm⟩

theorem mem_keyPlaces {s : Nat} :
    s ∈ keyPlaces body field ↔ ∃ v, ValueAt body field false s v := by
  constructor
  · rintro ⟨k, hk⟩
    exact ⟨_, _, keyAt_iff.mpr ⟨k, hk, k.colon_add_one s⟩, rfl, .inl rfl⟩
  · rintro ⟨v, c, hc, -⟩
    obtain ⟨k, hk, -⟩ := keyAt_iff.mp hc
    exact ⟨k, hk⟩

theorem isLeast_keyPlaces_iff {s : Nat} :
    IsLeast (keyPlaces body field) s ↔ ∃ v, FirstValueAt body field false s v := by
  simp only [IsLeast, mem_lowerBounds, mem_keyPlaces, FirstValueAt]
  constructor
  · rintro ⟨⟨v, hv⟩, hleast⟩
    refine ⟨v, hv, fun s' hs' v' hv' => ?_⟩
    have := hleast s' ⟨v', hv'⟩
    omega
  · rintro ⟨v, hv, hleast⟩
    refine ⟨⟨v, hv⟩, ?_⟩
    rintro s' ⟨v', hv'⟩
    by_contra hlt
    exact hleast s' (by omega) v' hv'

/-- The last candidate for a quoted member: a member has four quotes, and where one value
does not close there are too few quotes left for another. -/
theorem ValueAt.closes_of_later {s q s' c' q' e' : Nat} (hfield : quote ∉ field)
    (h : ValueAt body field true s q) (hlt : s < s') (hmem : MemberAt body field s' c' q' e') :
    ∃ e, StringAt body q e := by
  have hopen : body[q]? = some quote := by
    obtain ⟨_, _, _, hq⟩ := h
    simpa using hq
  by_cases hnext : ∃ e, q < e ∧ body[e]? = some quote
  · obtain ⟨e, he, hquote⟩ := hnext
    have hocc : Occurs [quote] (body.drop (q + 1)) (e - (q + 1)) := by
      rw [occurs_drop, Nat.add_sub_cancel' he, occurs_singleton]
      exact hquote
    obtain ⟨k, -, hk⟩ := hocc.exists_firstAt
    refine ⟨q + 1 + k, hopen, by omega, fun i hi hik hiq => ?_,
      occurs_singleton.mp (occurs_drop.mp hk.1)⟩
    apply hk.2 (i - (q + 1)) (by omega)
    rw [occurs_drop, Nat.add_sub_cancel' (by omega), occurs_singleton]
    exact hiq
  · push Not at hnext
    have hlast : ∀ i, body[i]? = some quote → i ≤ q := by
      intro i hi
      by_contra hgt
      exact hnext i (by omega) hi
    -- The member's first two quotes would both be the candidate's second.
    have hsecond := hmem.keyAt.lt
    have hvalue := hmem.ws.le
    have hclose := hmem.string.lt
    have hend := hlast e' hmem.string.closing
    have h1 := h.le_of_quote hfield hlt hmem.keyAt.opening
    have h2 := h.le_of_quote hfield (by omega) hmem.keyAt.closing
    omega

theorem isLeast_quotedPlaces_iff {s : Nat} (hfield : quote ∉ field) :
    IsLeast (quotedPlaces body field) s ↔
      ∃ q e, FirstValueAt body field true s q ∧ StringAt body q e := by
  simp only [IsLeast, mem_lowerBounds, mem_quotedPlaces]
  constructor
  · rintro ⟨⟨c, q, e, hmem⟩, hleast⟩
    obtain ⟨hv, hstr⟩ := exists_memberAt_iff.mp ⟨c, hmem⟩
    refine ⟨q, e, ⟨hv, fun s' hs' q' hv' => ?_⟩, hstr⟩
    obtain ⟨e', hstr'⟩ := hv'.closes_of_later hfield hs' hmem
    obtain ⟨c', hmem'⟩ := exists_memberAt_iff.mpr ⟨hv', hstr'⟩
    have := hleast s' ⟨c', q', e', hmem'⟩
    omega
  · rintro ⟨q, e, hfirst, hstr⟩
    obtain ⟨c, hmem⟩ := exists_memberAt_iff.mpr ⟨hfirst.1, hstr⟩
    refine ⟨⟨c, q, e, hmem⟩, ?_⟩
    rintro s' ⟨c', q', e', hmem'⟩
    by_contra hlt
    exact hfirst.2 s' (by omega) q' (exists_memberAt_iff.mp ⟨c', hmem'⟩).1

theorem inBody_eq_some_iff (hfield : quote ∉ field) {r : JsonMember} :
    JsonMember.inBody body field = some r ↔
      ∃ s, IsLeast (quotedPlaces body field) s ∧
        ∃ m : QuotedText field, Occurs m.bytes body s ∧ r = m.memberAt s := by
  rw [inBody_eq_some]
  simp only [isLeast_quotedPlaces_iff hfield, ← memberAt_iff]
  constructor
  · rintro ⟨s, q, e, hfirst, hstr, rfl⟩
    obtain ⟨c, hmem⟩ := exists_memberAt_iff.mpr ⟨hfirst.1, hstr⟩
    exact ⟨s, ⟨q, e, hfirst, hstr⟩, c, q, e, hmem, rfl⟩
  · rintro ⟨s, ⟨q', _, hfirst, -⟩, c, q, e, hmem, rfl⟩
    obtain ⟨hv, hstr⟩ := exists_memberAt_iff.mp ⟨c, hmem⟩
    obtain rfl := hfirst.1.unique hv
    exact ⟨s, _, e, hfirst, hstr, rfl⟩

theorem inBody_eq_none_iff (hfield : quote ∉ field) :
    JsonMember.inBody body field = none ↔ quotedPlaces body field = ∅ := by
  rw [Option.eq_none_iff_forall_ne_some, Set.eq_empty_iff_forall_notMem]
  constructor
  · intro h s hs
    -- Some place is the least.
    have hleast : ∃ s, IsLeast (quotedPlaces body field) s := by
      classical
      exact ⟨Nat.find ⟨s, hs⟩, Nat.find_spec ⟨s, hs⟩, fun _ hs' => Nat.find_min' _ hs'⟩
    obtain ⟨s, hs⟩ := hleast
    obtain ⟨m, hm⟩ := hs.1
    exact h _ ((inBody_eq_some_iff hfield).mpr ⟨s, hs, m, hm, rfl⟩)
  · intro h r hr
    obtain ⟨s, hs, -⟩ := (inBody_eq_some_iff hfield).mp hr
    exact h s hs.1

theorem findJsonBareSnippetRange_eq_some_iff {r : Range} :
    findJsonBareSnippetRange body field = some r ↔
      ∃ s, IsLeast (keyPlaces body field) s ∧
        ∃ m : BareText field, Occurs m.bytes body s ∧ r = ⟨s, s + m.bytes.length⟩ := by
  rw [findJsonBareSnippetRange_eq_some]
  simp only [isLeast_keyPlaces_iff, ← bareAt_iff]
  constructor
  · rintro ⟨s, d, n, t, hfirst, hnum, rfl⟩
    exact ⟨s, ⟨d, hfirst⟩, d, n, t, hfirst.1, hnum, rfl⟩
  · rintro ⟨s, ⟨d', hfirst⟩, d, n, t, hv, hnum, rfl⟩
    obtain rfl := hfirst.1.unique hv
    exact ⟨s, _, n, t, hfirst, hnum, rfl⟩

/-- One turn of the loop of `key_and_value`: an answer, or where the next turn begins. -/
def keyAndValueTurn (body key : Bytes) (quoted : Bool) (start : Nat) :
    Option (Nat × Nat) ⊕ Nat :=
  match getFrom body start with
  | none => .inl none
  | some rest =>
    match findFirst rest key with
    | none => .inl none
    | some i =>
      let found := i + start
      let colonAt := skipJsonWhitespace body (found + key.length)
      let value := skipJsonWhitespace body (colonAt + 1)
      if body[colonAt]? = some colon ∧ (quoted = false ∨ body[value]? = some quote) then
        .inl (some (found, value))
      else .inr (found + 1)

def keyAndValueTurns (body key : Bytes) (quoted : Bool) : Nat → Nat → Option (Option (Nat × Nat))
  | 0, _ => none
  | n + 1, start =>
    match keyAndValueTurn body key quoted start with
    | .inl answer => some answer
    | .inr next => keyAndValueTurns body key quoted n next

theorem keyAndValueTurns_eq_some (body key : Bytes) (quoted : Bool) (start : Nat) :
    ∀ n, body.length < start + n → keyAndValueTurns body key quoted (n + 1) start =
      some (keyAndValueFrom body key quoted start) := by
  fun_induction keyAndValueFrom body key quoted start with
  | case1 start hrest =>
    intro n _
    simp [keyAndValueTurns, keyAndValueTurn, hrest]
  | case2 start rest hrest hfind =>
    intro n _
    simp [keyAndValueTurns, keyAndValueTurn, hrest, hfind]
  | case3 start rest hrest i hfind found colonAt value htest =>
    intro n _
    simp only [keyAndValueTurns, keyAndValueTurn, hrest, hfind]
    rw [if_pos htest]
  | case4 start rest hrest i hfind found colonAt value htest ih =>
    intro n hn
    have hle := (getFrom_eq_some.mp hrest).1
    obtain ⟨n, rfl⟩ := Nat.exists_eq_add_one_of_ne_zero (show n ≠ 0 by omega)
    rw [keyAndValueTurns]
    simp only [keyAndValueTurn, hrest, hfind]
    rw [if_neg htest]
    exact ih n (by omega)

/-- Both scanners answer for the leftmost match of their template and for no other text,
after a bounded number of turns. -/
theorem scanners_match (body : Bytes) {field : Bytes} (hfield : quote ∉ field) :
    (∀ r, JsonMember.inBody body field = some r ↔
      ∃ s, IsLeast (quotedPlaces body field) s ∧
        ∃ m : QuotedText field, Occurs m.bytes body s ∧ r = m.memberAt s) ∧
    (JsonMember.inBody body field = none ↔ quotedPlaces body field = ∅) ∧
    (∀ r, findJsonBareSnippetRange body field = some r ↔
      ∃ s, IsLeast (keyPlaces body field) s ∧
        ∃ m : BareText field, Occurs m.bytes body s ∧ r = ⟨s, s + m.bytes.length⟩) ∧
    ∀ quoted, keyAndValueTurns body (quotedKey field) quoted (body.length + 2) 0 =
      some (keyAndValue body field quoted) :=
  ⟨fun _ => inBody_eq_some_iff hfield, inBody_eq_none_iff hfield,
    fun _ => findJsonBareSnippetRange_eq_some_iff,
    fun quoted => keyAndValueTurns_eq_some body _ quoted 0 _ (by omega)⟩

theorem scanners_match_run :
    let body := ascii "\x7b\"id\":7,\"id\" : \"x\"\x7d"
    let field := ascii "id"
    (∃ s, IsLeast (quotedPlaces body field) s ∧
      ∃ m : QuotedText field, Occurs m.bytes body s ∧ ⟨⟨8, 18⟩, ⟨16, 17⟩⟩ = m.memberAt s) ∧
    (∃ s, IsLeast (keyPlaces body field) s ∧
      ∃ m : BareText field, Occurs m.bytes body s ∧ ⟨1, 8⟩ = Range.mk s (s + m.bytes.length)) ∧
    JsonMember.inBody body (ascii "name") = none ∧ quotedPlaces body (ascii "name") = ∅ := by
  intro body field
  have hquoted : JsonMember.inBody body field = some ⟨⟨8, 18⟩, ⟨16, 17⟩⟩ := by decide +kernel
  have hbare : findJsonBareSnippetRange body field = some ⟨1, 8⟩ := by decide +kernel
  have hnone : JsonMember.inBody body (ascii "name") = none := by decide +kernel
  have hfield : quote ∉ field := by decide
  have hname : quote ∉ ascii "name" := by decide
  obtain ⟨hsome, -, hsome', -⟩ := scanners_match body hfield
  exact ⟨(hsome _).mp hquoted, (hsome' _).mp hbare, hnone,
    (scanners_match body hname).2.1.mp hnone⟩

end Libid.Transcript
