import Libid.Json.Syntax

/-! Where a JSON text holds quotes.  A scan that knows nothing of the grammar sees
offsets and bytes; these lemmas place an offset in the tree. -/

namespace Libid.Json

structure Blank (text : Bytes) (a b : Nat) : Prop where
  le : a ≤ b
  ws : ∀ i, a ≤ i → i < b → ∃ x, text[i]? = some x ∧ isWs x

def closers : Bytes := [0x2c, 0x5d, 0x7d]

/-- What follows a value: whitespace, then the text's end or a byte that closes the value. -/
def Follows (text : Bytes) (p : Nat) : Prop :=
  ∃ j, Blank text p j ∧ (text[j]? = none ∨ ∃ b, text[j]? = some b ∧ b ∈ closers)

theorem Ws.blank (ws : Ws) {text : Bytes} {o : Nat} (h : Occurs ws.bytes text o) :
    Blank text o (o + ws.bytes.length) := by
  refine ⟨Nat.le_add_right .., fun i hi hlt => ?_⟩
  have hlen : i - o < ws.bytes.length := by omega
  have hget := occurs_iff_getElem?.mp h (i - o) hlen
  rw [Nat.add_sub_cancel' hi, List.getElem?_eq_getElem hlen] at hget
  exact ⟨_, hget, ws.ws _ (List.getElem_mem ..)⟩

theorem Blank.not_quote {text : Bytes} {a b i : Nat} (h : Blank text a b) (ha : a ≤ i)
    (hq : text[i]? = some quote) : b ≤ i := by
  by_contra hlt
  obtain ⟨x, hx, hws⟩ := h.ws i ha (by omega)
  obtain rfl := Option.some.inj (hx.symm.trans hq)
  exact absurd hws (by decide)

theorem Blank.follows {text : Bytes} {a b : Nat} {x : UInt8} (h : Blank text a b)
    (hx : text[b]? = some x) (hclose : x ∈ closers) : Follows text a :=
  ⟨b, h, .inr ⟨x, hx, hclose⟩⟩

theorem Str.backslash_before (s : Str) {i : Nat} (h : s.text[i]? = some quote) :
    ∃ j, i = j + 1 ∧ s.text[j]? = some backslash := by
  obtain ⟨chars⟩ := s
  simp only [Str.text] at h ⊢
  induction chars generalizing i with
  | nil => simp at h
  | cons c chars ih =>
    rw [List.flatMap_cons] at h ⊢
    rcases Nat.lt_or_ge i c.bytes.length with hlt | hge
    · rw [List.getElem?_append_left hlt] at h
      obtain ⟨j, rfl, hj⟩ : ∃ j, i = j + 1 ∧ c.bytes[j]? = some backslash := by
        cases c with
        | plain b hb =>
          obtain rfl : i = 0 := by simpa [StrChar.bytes] using hlt
          simp [StrChar.bytes, hb.2.1] at h
        | escape b hb =>
          match i with
          | 0 => simp [StrChar.bytes, quote, backslash] at h
          | 1 => exact ⟨0, rfl, rfl⟩
          | i + 2 =>
            simp only [StrChar.bytes, List.length_cons, List.length_nil] at hlt
            omega
        | unicode digits hd =>
          match i with
          | 0 => simp [StrChar.bytes, quote, backslash] at h
          | 1 => simp [StrChar.bytes, quote] at h
          | i + 2 =>
            have hmem : quote ∈ digits := List.mem_of_getElem? (by simpa [StrChar.bytes] using h)
            exact absurd (hd.2 quote hmem) (by decide)
      exact ⟨j, rfl, by rw [List.getElem?_append_left (by omega), hj]⟩
    · rw [List.getElem?_append_right hge] at h
      obtain ⟨j, hj, hback⟩ := ih h
      refine ⟨c.bytes.length + j, by omega, ?_⟩
      rw [List.getElem?_append_right (Nat.le_add_right ..), Nat.add_sub_cancel_left, hback]

theorem Str.occurs_token {s : Str} {text : Bytes} {p : Nat} :
    Occurs s.token text p ↔ text[p]? = some quote ∧ Occurs s.text text (p + 1) ∧
      text[p + s.text.length + 1]? = some quote := by
  rw [Str.token, occurs_cons, occurs_append, occurs_singleton,
    show p + 1 + s.text.length = p + s.text.length + 1 by omega]

theorem Str.backslash_before_at {s : Str} {text : Bytes} {p i : Nat}
    (h : Occurs s.token text p) (hi : p < i) (hlt : i < p + s.text.length + 1)
    (hq : text[i]? = some quote) : p < i - 1 ∧ text[i - 1]? = some backslash := by
  obtain ⟨-, hbody, -⟩ := occurs_token.mp h
  have hget := occurs_iff_getElem?.mp hbody (i - (p + 1)) (by omega)
  rw [Nat.add_sub_cancel' (by omega), hq] at hget
  obtain ⟨j, hj, hback⟩ := s.backslash_before hget.symm
  have hat := hbody.getElem? hback
  rw [show p + 1 + j = i - 1 by omega] at hat
  exact ⟨by omega, hat⟩

theorem IsDigits.quote_notMem {ds : Bytes} (h : IsDigits ds) : quote ∉ ds :=
  fun hq => absurd (h.digits _ hq) (by decide)

theorem Number.quote_notMem (n : Number) : quote ∉ n.bytes := by
  have hfrac : quote ∉ n.frac := by
    rcases n.frac_ok with h | ⟨ds, h, hd⟩
    · simp [h]
    · rw [h, List.mem_cons, not_or]
      exact ⟨by decide, hd.quote_notMem⟩
  have hexp : quote ∉ n.exp := by
    rcases n.exp_ok with h | ⟨e, sign, ds, h, he, hsign, hd⟩
    · simp [h]
    · rw [h]
      have he' : quote ≠ e := by rcases he with rfl | rfl <;> decide
      have hsign' : quote ∉ sign := by rcases hsign with rfl | rfl | rfl <;> decide
      simp [hd.quote_notMem, he', hsign']
  have hneg : quote ∉ (if n.negative then [0x2d] else []) := by
    cases n.negative <;> decide
  simp only [Number.bytes, List.mem_append, not_or]
  exact ⟨hneg, n.int_ok.1.quote_notMem, hfrac, hexp⟩

theorem Atom.quote_notMem (a : Atom) : quote ∉ a.bytes := by
  cases a with
  | null | true | false => decide
  | number n => exact n.quote_notMem

def Closed (text : Bytes) (p : Nat) : Kind → Prop
  | .value => Follows text p
  | .elements => text[p]? = some 0x5d
  | .members => text[p]? = some 0x7d

structure Member.In (m : Member) (text : Bytes) : Prop where
  key : Occurs m.name.token text m.start
  gap : Blank text (m.close + 1) m.colon
  colon : text[m.colon]? = some 0x3a
  gap' : Blank text (m.colon + 1) m.valueAt
  value : Occurs m.value.bytes text m.valueAt
  follows : Follows text (m.valueAt + m.value.bytes.length)

/-- The offset `i` lies in a string's token: a value's, or the name of one of `ms`. -/
def InToken (text : Bytes) (ms : List Member) (i : Nat) : Prop :=
  ∃ (p : Nat) (s : Str), Occurs s.token text p ∧ p ≤ i ∧ i ≤ p + s.text.length + 1 ∧
    (Follows text (p + s.text.length + 2) ∨ ∃ m ∈ ms, m.start = p ∧ m.name = s)

theorem InToken.mono {text : Bytes} {ms ms' : List Member} {i : Nat} (h : InToken text ms i)
    (hsub : ms ⊆ ms') : InToken text ms' i := by
  obtain ⟨p, s, hocc, hp, hi, h | ⟨m, hm, hstart⟩⟩ := h
  · exact ⟨p, s, hocc, hp, hi, .inl h⟩
  · exact ⟨p, s, hocc, hp, hi, .inr ⟨m, hsub hm, hstart⟩⟩

structure Placed {k : Kind} (t : Tree k) (text : Bytes) (o : Nat) : Prop where
  members : ∀ m ∈ t.members o, m.In text
  quotes : ∀ i, o ≤ i → i < o + t.bytes.length → text[i]? = some quote →
    InToken text (t.members o) i

theorem quote_elsewhere {text : Bytes} {o i : Nat} {x : UInt8} (hx : text[o]? = some x)
    (hne : x ≠ quote) (hq : text[i]? = some quote) : i ≠ o := by
  rintro rfl
  exact hne (Option.some.inj (hx.symm.trans hq))

theorem Ws.quote_past (ws : Ws) {text : Bytes} {o i : Nat} (h : Occurs ws.bytes text o)
    (hi : o ≤ i) (hq : text[i]? = some quote) : o + ws.bytes.length ≤ i :=
  (ws.blank h).not_quote hi hq

theorem Key.quote_in_name {key : Key} {text : Bytes} {o i : Nat} (hkey : Occurs key.bytes text o)
    (hi : o ≤ i) (hlt : i < o + key.bytes.length) (hq : text[i]? = some quote) :
    Occurs key.name.token text (o + key.before.bytes.length) ∧ o + key.before.bytes.length ≤ i ∧
      i ≤ o + key.before.bytes.length + key.name.text.length + 1 := by
  obtain ⟨hbefore, hname, hafter⟩ := And.imp_right occurs_append.mp (occurs_append.mp hkey)
  refine ⟨hname, key.before.quote_past hbefore hi hq, ?_⟩
  by_contra hgt
  have hpast := key.after.quote_past hafter (by rw [Str.length_token]; omega) hq
  have hlen : key.bytes.length =
      key.before.bytes.length + (key.name.token.length + key.after.bytes.length) := by
    simp [Key.bytes]
  omega

structure Spaced (before : Ws) (v : Value) (after : Ws) (text : Bytes) (o : Nat) : Prop where
  opening : Occurs before.bytes text o
  value : Occurs v.bytes text (o + before.bytes.length)
  closing : Occurs after.bytes text (o + before.bytes.length + v.bytes.length)
  close : ∃ x, text[o + before.bytes.length + v.bytes.length + after.bytes.length]? = some x ∧
    x ∈ closers

namespace Spaced

variable {before after : Ws} {v : Value} {text : Bytes} {o : Nat}

theorem follows (h : Spaced before v after text o) :
    Follows text (o + before.bytes.length + v.bytes.length) := by
  obtain ⟨x, hx, hclose⟩ := h.close
  exact (after.blank h.closing).follows hx hclose

theorem quotes (h : Spaced before v after text o) (hv : Placed v text (o + before.bytes.length))
    {i : Nat} (hi : o ≤ i)
    (hlt : i < o + before.bytes.length + v.bytes.length + after.bytes.length)
    (hq : text[i]? = some quote) : InToken text (v.members (o + before.bytes.length)) i := by
  refine hv.quotes i (before.quote_past h.opening hi hq) ?_ hq
  by_contra hge
  have := after.quote_past h.closing (by omega) hq
  omega

end Spaced

structure Keyed (key : Key) (before : Ws) (v : Value) (after : Ws) (text : Bytes) (o : Nat) :
    Prop where
  name : Occurs key.bytes text o
  colon : text[o + key.bytes.length]? = some 0x3a
  spaced : Spaced before v after text (o + key.bytes.length + 1)

def Key.member (key : Key) (before : Ws) (v : Value) (o : Nat) : Member :=
  ⟨o + key.before.bytes.length, key.name, o + key.bytes.length,
    o + key.bytes.length + 1 + before.bytes.length, v⟩

namespace Keyed

variable {key : Key} {before after : Ws} {v : Value} {text : Bytes} {o : Nat}

theorem member (h : Keyed key before v after text o) : (key.member before v o).In text := by
  obtain ⟨-, hname, hafter⟩ := And.imp_right occurs_append.mp (occurs_append.mp h.name)
  refine ⟨hname, ?_, h.colon, before.blank h.spaced.opening, h.spaced.value, h.spaced.follows⟩
  have hblank := key.after.blank hafter
  have hlen : key.bytes.length =
      key.before.bytes.length + (key.name.token.length + key.after.bytes.length) := by
    simp [Key.bytes]
  simp only [Key.member, Member.close, hlen]
  rw [Str.length_token] at hblank ⊢
  convert hblank using 1 <;> omega

theorem quotes (h : Keyed key before v after text o)
    (hv : Placed v text (o + key.bytes.length + 1 + before.bytes.length)) {i : Nat} (hi : o ≤ i)
    (hlt : i < o + key.bytes.length + 1 + before.bytes.length + v.bytes.length +
      after.bytes.length)
    (hq : text[i]? = some quote) :
    InToken text (key.member before v o ::
      v.members (o + key.bytes.length + 1 + before.bytes.length)) i := by
  have hne := quote_elsewhere h.colon (by decide) hq
  rcases Nat.lt_or_ge i (o + key.bytes.length) with hin | hout
  · obtain ⟨hname, hle, hge⟩ := Key.quote_in_name h.name hi hin hq
    exact ⟨_, _, hname, hle, hge, .inr ⟨_, List.mem_cons_self, rfl, rfl⟩⟩
  · exact (h.spaced.quotes hv (by omega) hlt hq).mono (List.subset_cons_self ..)

end Keyed

theorem InToken.comma {k : Kind} {rest : Tree k} {text : Bytes} {ms : List Member}
    {p i : Nat} (hms : i < p → InToken text ms i) (hcomma : text[p]? = some 0x2c)
    (hrest : Placed rest text (p + 1)) (hlt : i < p + 1 + rest.bytes.length)
    (hq : text[i]? = some quote) : InToken text (ms ++ rest.members (p + 1)) i := by
  have hne := quote_elsewhere hcomma (by decide) hq
  rcases Nat.lt_or_ge i p with hin | hout
  · exact (hms hin).mono (List.subset_append_left ..)
  · exact (hrest.quotes i (by omega) hlt hq).mono (List.subset_append_right ..)

theorem Spaced.placed_lastElement {before after : Ws} {v : Value} {text : Bytes} {o : Nat}
    (h : Spaced before v after text o) (hv : Placed v text (o + before.bytes.length)) :
    Placed (.lastElement before v after) text o := by
  refine ⟨hv.members, fun i hi hlt hq => h.quotes hv hi ?_ hq⟩
  simpa only [Tree.bytes, List.length_append, ← Nat.add_assoc] using hlt

theorem Spaced.placed_element {before after : Ws} {v : Value} {rest : Tree .elements}
    {text : Bytes} {o : Nat} (h : Spaced before v after text o)
    (hcomma : text[o + before.bytes.length + v.bytes.length + after.bytes.length]? = some 0x2c)
    (hv : Placed v text (o + before.bytes.length))
    (hrest : Placed rest text
      (o + before.bytes.length + v.bytes.length + after.bytes.length + 1)) :
    Placed (.element before v after rest) text o := by
  constructor
  · intro m hm
    exact (List.mem_append.mp hm).elim (hv.members m) (hrest.members m)
  · intro i hi hlt hq
    simp only [Tree.bytes, List.length_append, List.length_cons] at hlt
    exact .comma (fun hin => h.quotes hv hi hin hq) hcomma hrest (by omega) hq

theorem Keyed.placed_lastMember {key : Key} {before after : Ws} {v : Value} {text : Bytes}
    {o : Nat} (h : Keyed key before v after text o)
    (hv : Placed v text (o + key.bytes.length + 1 + before.bytes.length)) :
    Placed (.lastMember key before v after) text o := by
  constructor
  · exact List.forall_mem_cons.mpr ⟨h.member, hv.members⟩
  · intro i hi hlt hq
    simp only [Tree.bytes, List.length_append, List.length_cons] at hlt
    exact h.quotes hv hi (by omega) hq

theorem Keyed.placed_member {key : Key} {before after : Ws} {v : Value} {rest : Tree .members}
    {text : Bytes} {o : Nat} (h : Keyed key before v after text o)
    (hcomma : text[o + key.bytes.length + 1 + before.bytes.length + v.bytes.length +
      after.bytes.length]? = some 0x2c)
    (hv : Placed v text (o + key.bytes.length + 1 + before.bytes.length))
    (hrest : Placed rest text (o + key.bytes.length + 1 + before.bytes.length +
      v.bytes.length + after.bytes.length + 1)) :
    Placed (.member key before v after rest) text o := by
  constructor
  · refine List.forall_mem_cons.mpr ⟨h.member, fun m hm => ?_⟩
    exact (List.mem_append.mp hm).elim (hv.members m) (hrest.members m)
  · intro i hi hlt hq
    simp only [Tree.bytes, List.length_append, List.length_cons] at hlt
    exact .comma (fun hin => h.quotes hv hi hin hq) hcomma hrest (by omega) hq

theorem Tree.placed {k : Kind} (t : Tree k) {text : Bytes} {o : Nat} (h : Occurs t.bytes text o)
    (hc : Closed text (o + t.bytes.length) k) : Placed t text o := by
  induction t generalizing o with
  | atom a =>
    refine ⟨by simp [Tree.members], fun i hi hlt hq => ?_⟩
    have hget := occurs_iff_getElem?.mp h (i - o) (by omega)
    rw [Nat.add_sub_cancel' hi, hq] at hget
    exact absurd (List.mem_of_getElem? hget.symm) a.quote_notMem
  | string s =>
    refine ⟨by simp [Tree.members], fun i hi hlt hq => ?_⟩
    simp only [Tree.bytes, Str.length_token] at hlt hc
    exact ⟨o, s, h, hi, by omega, .inl hc⟩
  | emptyArray ws | emptyObject ws =>
    refine ⟨by simp [Tree.members], fun i hi hlt hq => ?_⟩
    simp only [Tree.bytes, List.length_cons, List.length_append, List.length_nil] at hlt
    obtain ⟨hopen, hws, hclose⟩ := And.imp_right occurs_append.mp (occurs_cons.mp h)
    have h1 := quote_elsewhere hopen (by decide) hq
    have h2 := ws.quote_past hws (by omega) hq
    have h3 := quote_elsewhere (occurs_singleton.mp hclose) (by decide) hq
    omega
  | array ts ih | object ts ih =>
    obtain ⟨hopen, hts, hclose⟩ := And.imp_right occurs_append.mp (occurs_cons.mp h)
    have hclose := occurs_singleton.mp hclose
    obtain ⟨hmem, hquotes⟩ := ih hts hclose
    refine ⟨hmem, fun i hi hlt hq => hquotes i ?_ ?_ hq⟩
    · have := quote_elsewhere hopen (by decide) hq
      omega
    · have := quote_elsewhere hclose (by decide) hq
      simp only [Tree.bytes, List.length_cons, List.length_append, List.length_nil] at hlt
      omega
  | lastElement before v after ih =>
    obtain ⟨hbefore, hv, hafter⟩ := And.imp_right occurs_append.mp (occurs_append.mp h)
    simp only [Tree.bytes, List.length_append, ← Nat.add_assoc] at hc
    have hsp : Spaced before v after text o := ⟨hbefore, hv, hafter, 0x5d, hc, by decide⟩
    exact hsp.placed_lastElement (ih hv hsp.follows)
  | element before v after rest ihv ihrest =>
    obtain ⟨hbefore, hv, hafter, hcomma, hrest⟩ := And.imp_right (And.imp_right
      (And.imp_right occurs_cons.mp ∘ occurs_append.mp) ∘ occurs_append.mp) (occurs_append.mp h)
    have hsp : Spaced before v after text o := ⟨hbefore, hv, hafter, 0x2c, hcomma, by decide⟩
    have hend : o + (Tree.element before v after rest).bytes.length = o + before.bytes.length +
        v.bytes.length + after.bytes.length + 1 + rest.bytes.length := by
      simp only [Tree.bytes, List.length_append, List.length_cons]
      omega
    rw [hend] at hc
    exact hsp.placed_element hcomma (ihv hv hsp.follows) (ihrest hrest hc)
  | lastMember key before v after ih =>
    obtain ⟨hkey, hcolon, hbefore, hv, hafter⟩ := And.imp_right (And.imp_right
      (And.imp_right occurs_append.mp ∘ occurs_append.mp) ∘ occurs_cons.mp) (occurs_append.mp h)
    have hend : o + (Tree.lastMember key before v after).bytes.length = o + key.bytes.length + 1 +
        before.bytes.length + v.bytes.length + after.bytes.length := by
      simp only [Tree.bytes, List.length_append, List.length_cons]
      omega
    rw [hend] at hc
    have hk : Keyed key before v after text o :=
      ⟨hkey, hcolon, hbefore, hv, hafter, 0x7d, hc, by decide⟩
    exact hk.placed_lastMember (ih hv hk.spaced.follows)
  | member key before v after rest ihv ihrest =>
    obtain ⟨hkey, hcolon, hbefore, hv, hafter, hcomma, hrest⟩ := And.imp_right (And.imp_right
      (And.imp_right (And.imp_right (And.imp_right occurs_cons.mp ∘ occurs_append.mp) ∘
        occurs_append.mp) ∘ occurs_append.mp) ∘ occurs_cons.mp) (occurs_append.mp h)
    have hend : o + (Tree.member key before v after rest).bytes.length = o + key.bytes.length + 1 +
        before.bytes.length + v.bytes.length + after.bytes.length + 1 + rest.bytes.length := by
      simp only [Tree.bytes, List.length_append, List.length_cons]
      omega
    rw [hend] at hc
    have hk : Keyed key before v after text o :=
      ⟨hkey, hcolon, hbefore, hv, hafter, 0x2c, hcomma, by decide⟩
    exact hk.placed_member hcomma (ihv hv hk.spaced.follows) (ihrest hrest hc)

/-- Every member of a text is where it says it is, and every quote is in a token. -/
theorem Text.placed (t : Text) : (∀ m ∈ t.members, m.In t.bytes) ∧
    ∀ i, t.bytes[i]? = some quote → InToken t.bytes t.members i := by
  have h : Occurs t.bytes t.bytes 0 := by simp [Occurs]
  obtain ⟨hbefore, hv, hafter⟩ := And.imp_right occurs_append.mp (occurs_append.mp h)
  rw [Nat.zero_add] at hv hafter
  have hend : t.bytes[t.before.bytes.length + t.value.bytes.length + t.after.bytes.length]? =
      none := by
    rw [List.getElem?_eq_none]
    simp [Text.bytes, Nat.add_assoc]
  have hp := t.value.placed hv ⟨_, t.after.blank hafter, .inl hend⟩
  refine ⟨hp.members, fun i hq => hp.quotes i ?_ ?_ hq⟩
  · simpa using t.before.quote_past hbefore (Nat.zero_le i) hq
  · by_contra hge
    have hpast := t.after.quote_past hafter (by omega) hq
    rw [List.getElem?_eq_none (by simp only [Text.bytes, List.length_append]; omega)] at hq
    simp at hq

theorem IsDigits.head {ds : Bytes} (h : IsDigits ds) : ∃ b, ds[0]? = some b ∧ isAsciiDigit b := by
  cases hd : ds with
  | nil => exact absurd hd h.ne_nil
  | cons b ds => exact ⟨b, rfl, h.digits b (by simp [hd])⟩

theorem Number.head (n : Number) :
    ∃ b, n.bytes[0]? = some b ∧ (isAsciiDigit b ∧ n.negative = false ∨ b = 0x2d) := by
  obtain ⟨b, hb, hdig⟩ := n.int_ok.1.head
  cases hn : n.negative with
  | false =>
    refine ⟨b, ?_, .inl ⟨hdig, rfl⟩⟩
    have hlen := (List.getElem?_eq_some_iff.mp hb).1
    simp only [Number.bytes, hn, Bool.false_eq_true, if_false, List.nil_append]
    rw [List.getElem?_append_left hlen, hb]
  | true => exact ⟨0x2d, by simp [Number.bytes, hn], .inr rfl⟩

theorem Tree.head (v : Value) : ∃ b, v.bytes[0]? = some b ∧ isWs b = false ∧
    (b = quote → ∃ s, v = .string s) ∧
    (isAsciiDigit b → ∃ n, v = .atom (.number n) ∧ n.negative = false) := by
  have hother : ∀ {b}, v.bytes[0]? = some b → isWs b = false ∧ b ≠ quote ∧ ¬ isAsciiDigit b →
      ∃ b, v.bytes[0]? = some b ∧ isWs b = false ∧ (b = quote → ∃ s, v = .string s) ∧
        (isAsciiDigit b → ∃ n, v = .atom (.number n) ∧ n.negative = false) :=
    fun hb h => ⟨_, hb, h.1, fun hq => absurd hq h.2.1, fun hd => absurd hd h.2.2⟩
  cases v with
  | atom a =>
    cases a with
    | null | true | false => exact hother rfl (by decide)
    | number n =>
      obtain ⟨b, hb, ⟨hdig, hneg⟩ | rfl⟩ := n.head
      · have hdigit : ∀ b : UInt8, isAsciiDigit b → isWs b = false ∧ b ≠ quote := by
          decide +kernel
        obtain ⟨hws, hq⟩ := hdigit b hdig
        exact ⟨b, hb, hws, fun h => absurd h hq, fun _ => ⟨n, rfl, hneg⟩⟩
      · exact hother hb (by decide)
  | string s => exact ⟨quote, rfl, by decide, fun _ => ⟨s, rfl⟩, fun h => absurd h (by decide)⟩
  | emptyArray | array | emptyObject | object => exact hother rfl (by decide)

theorem Number.leading_digits {n : Number} (hn : n.negative = false) {text : Bytes} {p : Nat}
    (h : Occurs n.bytes text p) :
    (∀ i, p ≤ i → i < p + n.int.length → ∃ b, text[i]? = some b ∧ isAsciiDigit b) ∧
      (n.bytes.length = n.int.length ∨
        ∃ b, text[p + n.int.length]? = some b ∧ b ∈ ([0x2e, 0x65, 0x45] : Bytes)) := by
  simp only [Number.bytes, hn, Bool.false_eq_true, if_false, List.nil_append] at h ⊢
  obtain ⟨hint, hrest⟩ := occurs_append.mp h
  constructor
  · intro i hi hlt
    have hlen : i - p < n.int.length := by omega
    have hget := occurs_iff_getElem?.mp hint (i - p) hlen
    rw [Nat.add_sub_cancel' hi, List.getElem?_eq_getElem hlen] at hget
    exact ⟨_, hget, n.int_ok.1.digits _ (List.getElem_mem ..)⟩
  · obtain ⟨hfrac, hexp⟩ := occurs_append.mp hrest
    rcases n.frac_ok with hf | ⟨ds, hf, -⟩
    · rcases n.exp_ok with he | ⟨e, sign, ds, he, hcase, -⟩
      · exact .inl (by simp [hf, he])
      · rw [hf, List.length_nil, Nat.add_zero, he, occurs_cons] at hexp
        refine .inr ⟨e, hexp.1, ?_⟩
        rcases hcase with rfl | rfl <;> decide
    · rw [hf, occurs_cons] at hfrac
      exact .inr ⟨_, hfrac.1, by decide⟩

theorem Follows.next {text : Bytes} {p : Nat} {b : UInt8} (h : Follows text p)
    (hb : text[p]? = some b) : isWs b ∨ b ∈ closers := by
  obtain ⟨j, hblank, hend⟩ := h
  rcases Nat.eq_or_lt_of_le hblank.le with rfl | hlt
  · rcases hend with hnone | ⟨x, hx, hclose⟩
    · simp [hb] at hnone
    · exact .inr (Option.some.inj (hb.symm.trans hx) ▸ hclose)
  · obtain ⟨x, hx, hws⟩ := hblank.ws p le_rfl hlt
    exact .inl (Option.some.inj (hb.symm.trans hx) ▸ hws)

end Libid.Json
