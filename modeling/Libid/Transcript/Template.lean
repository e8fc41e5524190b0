import Libid.Transcript.Ranges

/-! What the member scanners match, said by position: a quoted name, a colon and
a value, with JSON whitespace around the colon.  Each scanner answers for the
leftmost match of its template and for nothing else. -/

namespace Libid.Transcript

def WsAt (body : Bytes) (i : Nat) : Prop := ∃ b, body[i]? = some b ∧ isJsonWhitespace b

structure WsRun (body : Bytes) (a b : Nat) : Prop where
  le : a ≤ b
  ws : ∀ i, a ≤ i → i < b → WsAt body i

theorem wsAt_iff {body : Bytes} {i : Nat} {b : UInt8} (h : body[i]? = some b) :
    WsAt body i ↔ isJsonWhitespace b := by
  simp [WsAt, h]

theorem skipJsonWhitespace_spec (body : Bytes) (a : Nat) :
    WsRun body a (skipJsonWhitespace body a) ∧ ¬ WsAt body (skipJsonWhitespace body a) := by
  fun_induction skipJsonWhitespace body a with
  | case1 pos b hb hws ih =>
    obtain ⟨⟨hle, hrun⟩, hend⟩ := ih
    refine ⟨⟨by omega, fun i hi hlt => ?_⟩, hend⟩
    rcases Nat.eq_or_lt_of_le hi with rfl | hi
    · exact ⟨b, hb, hws⟩
    · exact hrun i hi hlt
  | case2 pos b hb hws =>
    exact ⟨⟨le_rfl, fun i hi hlt => by omega⟩, by simpa [wsAt_iff hb] using hws⟩
  | case3 pos hb =>
    exact ⟨⟨le_rfl, fun i hi hlt => by omega⟩, by simp [WsAt, hb]⟩

theorem skipJsonWhitespace_eq_iff {body : Bytes} {a b : Nat} :
    skipJsonWhitespace body a = b ↔ WsRun body a b ∧ ¬ WsAt body b := by
  constructor
  · rintro rfl
    exact skipJsonWhitespace_spec body a
  · rintro ⟨hrun, hend⟩
    obtain ⟨hrun', hend'⟩ := skipJsonWhitespace_spec body a
    by_contra hne
    rcases Nat.lt_or_gt_of_ne hne with h | h
    · exact hend' (hrun.ws _ hrun'.le h)
    · exact hend (hrun'.ws _ hrun.le h)

theorem WsRun.congr {x y : Bytes} {a b : Nat} (h : WsRun x a b)
    (hxy : ∀ i, a ≤ i → i < b → x[i]? = y[i]?) : WsRun y a b := by
  refine ⟨h.le, fun i hi hlt => ?_⟩
  obtain ⟨c, hc, hws⟩ := h.ws i hi hlt
  exact ⟨c, by rw [← hxy i hi hlt, hc], hws⟩

theorem wsRun_drop {body : Bytes} {n a b : Nat} :
    WsRun (body.drop n) a b ↔ WsRun body (n + a) (n + b) := by
  constructor
  · intro h
    refine ⟨by have := h.le; omega, fun i hi hlt => ?_⟩
    obtain ⟨x, hx, hws⟩ := h.ws (i - n) (by omega) (by omega)
    rw [List.getElem?_drop, Nat.add_sub_cancel' (by omega)] at hx
    exact ⟨x, hx, hws⟩
  · intro h
    refine ⟨by have := h.le; omega, fun i hi hlt => ?_⟩
    obtain ⟨x, hx, hws⟩ := h.ws (n + i) (by omega) (by omega)
    exact ⟨x, by rwa [List.getElem?_drop], hws⟩

theorem WsRun.le_of_not_wsAt {body : Bytes} {a b i : Nat} (h : WsRun body a b)
    (hi : ¬ WsAt body i) (ha : a ≤ i) : b ≤ i := by
  by_contra hlt
  exact hi (h.ws i ha (by omega))

theorem not_wsAt_of_eq {body : Bytes} {i : Nat} {b : UInt8} (h : body[i]? = some b)
    (hb : isJsonWhitespace b = false) : ¬ WsAt body i := by
  simp [wsAt_iff h, hb]

theorem not_wsAt_quote {body : Bytes} {i : Nat} (h : body[i]? = some quote) : ¬ WsAt body i :=
  not_wsAt_of_eq h rfl

theorem not_wsAt_colon {body : Bytes} {i : Nat} (h : body[i]? = some colon) : ¬ WsAt body i :=
  not_wsAt_of_eq h rfl

@[simp] theorem length_quotedKey (field : Bytes) : (quotedKey field).length = field.length + 2 := by
  simp [quotedKey]

theorem quotedKey_ne_nil (field : Bytes) : quotedKey field ≠ [] := by simp [quotedKey]

/-- `"field"` at `s`, then whitespace, then a colon at `c`. -/
structure KeyAt (body field : Bytes) (s c : Nat) : Prop where
  key : Occurs (quotedKey field) body s
  ws : WsRun body (s + field.length + 2) c
  colon : body[c]? = some colon

def ValueAt (body field : Bytes) (quoted : Bool) (s v : Nat) : Prop :=
  ∃ c, KeyAt body field s c ∧ skipJsonWhitespace body (c + 1) = v ∧
    (quoted = false ∨ body[v]? = some quote)

structure StringAt (body : Bytes) (q e : Nat) : Prop where
  opening : body[q]? = some quote
  lt : q < e
  quoteFree : ∀ i, q < i → i < e → body[i]? ≠ some quote
  closing : body[e]? = some quote

def DigitAt (body : Bytes) (i : Nat) : Prop := ∃ b, body[i]? = some b ∧ isAsciiDigit b

structure NumberAt (body : Bytes) (d n t : Nat) : Prop where
  lt : d < n
  digits : ∀ i, d ≤ i → i < n → DigitAt body i
  whole : ¬ DigitAt body n
  canonical : n = d + 1 ∨ body[d]? ≠ some 0x30
  ws : WsRun body n t
  term : body[t]? = some 0x2c ∨ body[t]? = some 0x7d

def TailAt (body : Bytes) (quoted : Bool) (v stop : Nat) : Prop :=
  if quoted then ∃ e, StringAt body v e ∧ stop = e + 1
  else ∃ n t, NumberAt body v n t ∧ stop = t + 1

theorem tailAt_true {body : Bytes} {v stop : Nat} :
    TailAt body true v stop ↔ ∃ e, StringAt body v e ∧ stop = e + 1 := by
  simp [TailAt]

theorem tailAt_false {body : Bytes} {v stop : Nat} :
    TailAt body false v stop ↔ ∃ n t, NumberAt body v n t ∧ stop = t + 1 := by
  simp [TailAt]

def SnippetAt (body field : Bytes) (quoted : Bool) (s v stop : Nat) : Prop :=
  ValueAt body field quoted s v ∧ TailAt body quoted v stop

def FirstValueAt (body field : Bytes) (quoted : Bool) (s v : Nat) : Prop :=
  ValueAt body field quoted s v ∧ ∀ s' < s, ∀ v', ¬ ValueAt body field quoted s' v'

theorem KeyAt.lt {body field : Bytes} {s c : Nat} (h : KeyAt body field s c) :
    s + field.length + 1 < c := by
  have := h.ws.le
  omega

theorem KeyAt.opening {body field : Bytes} {s c : Nat} (h : KeyAt body field s c) :
    body[s]? = some quote := by
  simpa using h.key.getElem? (k := 0) rfl

theorem KeyAt.closing {body field : Bytes} {s c : Nat} (h : KeyAt body field s c) :
    body[s + field.length + 1]? = some quote := by
  have := h.key.getElem? (k := field.length + 1) (a := quote) (by simp [quotedKey])
  simpa [Nat.add_assoc] using this

theorem KeyAt.name {body field : Bytes} {s c i : Nat} (h : KeyAt body field s c)
    (hi : i < field.length) : body[s + 1 + i]? = field[i]? := by
  have := h.key.getElem? (k := i + 1) (a := field[i])
    (by simp [quotedKey, List.getElem?_append_left hi])
  rw [List.getElem?_eq_getElem hi, ← this]
  congr 1
  omega

theorem KeyAt.mem_field {body field : Bytes} {s c i : Nat} {b : UInt8}
    (h : KeyAt body field s c) (hs : s < i) (hi : i < s + field.length + 1)
    (hb : body[i]? = some b) : b ∈ field := by
  have hname := h.name (i := i - (s + 1)) (by omega)
  rw [Nat.add_sub_cancel' (by omega), hb] at hname
  exact List.mem_of_getElem? hname.symm

theorem KeyAt.le_of_quote {body field : Bytes} {s c i : Nat} (h : KeyAt body field s c)
    (hfield : quote ∉ field) (hs : s < i) (hq : body[i]? = some quote) :
    s + field.length + 1 ≤ i := by
  by_contra hlt
  exact hfield (h.mem_field hs (by omega) hq)

theorem KeyAt.unique {body field : Bytes} {s c c' : Nat} (h : KeyAt body field s c)
    (h' : KeyAt body field s c') : c = c' :=
  Nat.le_antisymm (h.ws.le_of_not_wsAt (not_wsAt_colon h'.colon) h'.ws.le)
    (h'.ws.le_of_not_wsAt (not_wsAt_colon h.colon) h.ws.le)

theorem keyAt_iff_skip {body field : Bytes} {s c : Nat} :
    KeyAt body field s c ↔ Occurs (quotedKey field) body s ∧
      skipJsonWhitespace body (s + (quotedKey field).length) = c ∧ body[c]? = some colon := by
  rw [length_quotedKey, ← Nat.add_assoc, skipJsonWhitespace_eq_iff]
  constructor
  · intro h
    exact ⟨h.key, ⟨h.ws, not_wsAt_colon h.colon⟩, h.colon⟩
  · rintro ⟨hk, ⟨hws, -⟩, hc⟩
    exact ⟨hk, hws, hc⟩

theorem ValueAt.unique {body field : Bytes} {quoted : Bool} {s v v' : Nat}
    (h : ValueAt body field quoted s v) (h' : ValueAt body field quoted s v') : v = v' := by
  obtain ⟨c, hc, rfl, -⟩ := h
  obtain ⟨c', hc', rfl, -⟩ := h'
  rw [hc.unique hc']

theorem ValueAt.le_of_quote {body field : Bytes} {quoted : Bool} {s v i : Nat}
    (h : ValueAt body field quoted s v) (hfield : quote ∉ field) (hs : s < i)
    (hq : body[i]? = some quote) : i = s + field.length + 1 ∨ v ≤ i := by
  obtain ⟨c, hkey, hskip, -⟩ := h
  obtain ⟨hgap, -⟩ := skipJsonWhitespace_eq_iff.mp hskip
  rcases Nat.eq_or_lt_of_le (hkey.le_of_quote hfield hs hq) with hclose | hpast
  · exact .inl hclose.symm
  · have hcolon : i ≠ c := by
      rintro rfl
      exact absurd (hq.symm.trans hkey.colon) (by decide)
    have hc := hkey.ws.le_of_not_wsAt (not_wsAt_quote hq) hpast
    exact .inr (hgap.le_of_not_wsAt (not_wsAt_quote hq) (by omega))

theorem StringAt.unique {body : Bytes} {q e e' : Nat} (h : StringAt body q e)
    (h' : StringAt body q e') : e = e' := by
  by_contra hne
  rcases Nat.lt_or_gt_of_ne hne with hlt | hlt
  · exact h'.quoteFree e h.lt hlt h.closing
  · exact h.quoteFree e' h'.lt hlt h'.closing

theorem FirstValueAt.unique {body field : Bytes} {quoted : Bool} {s s' v v' : Nat}
    (h : FirstValueAt body field quoted s v) (h' : FirstValueAt body field quoted s' v') :
    s = s' ∧ v = v' := by
  have hs : s = s' := by
    by_contra hne
    rcases Nat.lt_or_gt_of_ne hne with hlt | hlt
    · exact h'.2 s hlt v h.1
    · exact h.2 s' hlt v' h'.1
  subst hs
  exact ⟨rfl, h.1.unique h'.1⟩

theorem keyAt_drop {body field : Bytes} {n s c : Nat} :
    KeyAt (body.drop n) field s c ↔ KeyAt body field (n + s) (n + c) := by
  constructor
  · rintro ⟨hk, hws, hc⟩
    exact ⟨occurs_drop.mp hk, by simpa only [← Nat.add_assoc] using wsRun_drop.mp hws,
      by rwa [List.getElem?_drop] at hc⟩
  · rintro ⟨hk, hws, hc⟩
    exact ⟨occurs_drop.mpr hk, wsRun_drop.mpr (by simpa only [← Nat.add_assoc] using hws),
      by rwa [List.getElem?_drop]⟩

theorem stringAt_drop {body : Bytes} {n q e : Nat} :
    StringAt (body.drop n) q e ↔ StringAt body (n + q) (n + e) := by
  constructor
  · rintro ⟨ho, hlt, hfree, hc⟩
    rw [List.getElem?_drop] at ho hc
    refine ⟨ho, by omega, fun i hi hie => ?_, hc⟩
    have := hfree (i - n) (by omega) (by omega)
    rwa [List.getElem?_drop, Nat.add_sub_cancel' (by omega)] at this
  · rintro ⟨ho, hlt, hfree, hc⟩
    refine ⟨by rwa [List.getElem?_drop], by omega, fun i hi hie => ?_, by rwa [List.getElem?_drop]⟩
    rw [List.getElem?_drop]
    exact hfree _ (by omega) (by omega)

/-- `"field"` at `s`, its colon at `c`, and its value between the quotes at `q` and `e`. -/
structure MemberAt (body field : Bytes) (s c q e : Nat) : Prop where
  keyAt : KeyAt body field s c
  ws : WsRun body (c + 1) q
  string : StringAt body q e

theorem memberAt_drop {body field : Bytes} {n s c q e : Nat} :
    MemberAt (body.drop n) field s c q e ↔ MemberAt body field (n + s) (n + c) (n + q) (n + e) := by
  constructor
  · rintro ⟨hk, hws, hstr⟩
    exact ⟨keyAt_drop.mp hk, by simpa only [Nat.add_assoc] using wsRun_drop.mp hws,
      stringAt_drop.mp hstr⟩
  · rintro ⟨hk, hws, hstr⟩
    exact ⟨keyAt_drop.mpr hk, wsRun_drop.mpr (by simpa only [Nat.add_assoc] using hws),
      stringAt_drop.mpr hstr⟩

theorem exists_memberAt_iff {body field : Bytes} {s q e : Nat} :
    (∃ c, MemberAt body field s c q e) ↔ ValueAt body field true s q ∧ StringAt body q e := by
  constructor
  · rintro ⟨c, hk, hws, hstr⟩
    have hskip := skipJsonWhitespace_eq_iff.mpr ⟨hws, not_wsAt_quote hstr.opening⟩
    exact ⟨⟨c, hk, hskip, .inr hstr.opening⟩, hstr⟩
  · rintro ⟨⟨c, hk, rfl, -⟩, hstr⟩
    exact ⟨c, hk, (skipJsonWhitespace_spec body _).1, hstr⟩

theorem WsRun.of_slice {body : Bytes} {a b : Nat} (h : WsRun body a b) :
    ∀ x ∈ slice body ⟨a, b⟩, isJsonWhitespace x := by
  intro x hx
  obtain ⟨i, hi, hlt, hget⟩ := mem_slice.mp hx
  exact (wsAt_iff hget).mp (h.ws i hi hlt)

theorem MemberAt.delimiter {body field : Bytes} {s c q e : Nat} (h : MemberAt body field s c q e) :
    ∃ ws ws' : Bytes, (∀ b ∈ ws, isJsonWhitespace b) ∧ (∀ b ∈ ws', isJsonWhitespace b) ∧
      slice body ⟨s, q + 1⟩ = quotedKey field ++ ws ++ [colon] ++ ws' ++ [quote] := by
  obtain ⟨⟨hk, hws, hc⟩, hws', hstr⟩ := h
  have hle := hws.le
  have hle' := hws'.le
  refine ⟨slice body ⟨s + field.length + 2, c⟩, slice body ⟨c + 1, q⟩, hws.of_slice,
    hws'.of_slice, ?_⟩
  have hkey : slice body ⟨s, s + field.length + 2⟩ = quotedKey field := by
    simpa [Nat.add_assoc] using occurs_iff_slice_eq.mp hk
  have happend : ∀ {a b c}, a ≤ b → b ≤ c →
      slice body ⟨a, c⟩ = slice body ⟨a, b⟩ ++ slice body ⟨b, c⟩ := fun hab hbc =>
    (slice_append_slice body hab hbc).symm
  calc slice body ⟨s, q + 1⟩
      = slice body ⟨s, c⟩ ++ (slice body ⟨c, q⟩ ++ slice body ⟨q, q + 1⟩) := by
        rw [← happend (by omega) (by omega), ← happend (by omega) (by omega)]
    _ = (slice body ⟨s, s + field.length + 2⟩ ++ slice body ⟨s + field.length + 2, c⟩) ++
          ((slice body ⟨c, c + 1⟩ ++ slice body ⟨c + 1, q⟩) ++ slice body ⟨q, q + 1⟩) := by
        rw [← happend (by omega) hle, ← happend (by omega) hle']
    _ = _ := by
        rw [hkey, slice_eq_singleton hc, slice_eq_singleton hstr.opening]
        simp only [List.append_assoc]

theorem findFirst_eq_some {haystack needle : Bytes} {i : Nat} (hne : needle ≠ []) :
    findFirst haystack needle = some i ↔ FirstAt needle haystack i :=
  windowsPosition_beq_eq_some hne

theorem findFirst_eq_none {haystack needle : Bytes} (hne : needle ≠ []) :
    findFirst haystack needle = none ↔ ∀ i, ¬ Occurs needle haystack i :=
  windowsPosition_beq_eq_none hne

theorem valueAt_iff_test {body field : Bytes} {quoted : Bool} {s : Nat}
    (hs : Occurs (quotedKey field) body s) (v : Nat) :
    ValueAt body field quoted s v ↔
      let colonAt := skipJsonWhitespace body (s + (quotedKey field).length)
      skipJsonWhitespace body (colonAt + 1) = v ∧ body[colonAt]? = some colon ∧
        (quoted = false ∨ body[v]? = some quote) := by
  simp only [ValueAt, keyAt_iff_skip]
  constructor
  · rintro ⟨c, ⟨-, rfl, hc⟩, hv, hq⟩
    exact ⟨hv, hc, hq⟩
  · rintro ⟨hv, hc, hq⟩
    exact ⟨_, ⟨hs, rfl, hc⟩, hv, hq⟩

theorem ValueAt.occurs {body field : Bytes} {quoted : Bool} {s v : Nat}
    (h : ValueAt body field quoted s v) : Occurs (quotedKey field) body s := by
  obtain ⟨c, hc, -⟩ := h
  exact hc.key

theorem ValueAt.occurs_rest {body field rest : Bytes} {quoted : Bool} {s v start : Nat}
    (h : ValueAt body field quoted s v) (hrest : getFrom body start = some rest)
    (hs : start ≤ s) : Occurs (quotedKey field) rest (s - start) := by
  obtain ⟨-, rfl⟩ := getFrom_eq_some.mp hrest
  rw [occurs_drop, Nat.add_sub_cancel' hs]
  exact h.occurs

theorem keyAndValueFrom_spec (body field : Bytes) (quoted : Bool) (start : Nat) :
    match keyAndValueFrom body (quotedKey field) quoted start with
    | some (s, v) => start ≤ s ∧ ValueAt body field quoted s v ∧
        ∀ s', start ≤ s' → s' < s → ∀ v', ¬ ValueAt body field quoted s' v'
    | none => ∀ s, start ≤ s → ∀ v, ¬ ValueAt body field quoted s v := by
  have hne := quotedKey_ne_nil field
  fun_induction keyAndValueFrom body (quotedKey field) quoted start with
  | case1 start hrest =>
    intro s hs v hv
    have := hv.occurs.le_length hne
    simp only [getFrom, ite_eq_right_iff, reduceCtorEq, imp_false, not_le] at hrest
    omega
  | case2 start rest hrest hfind =>
    intro s hs v hv
    exact (findFirst_eq_none hne).mp hfind _ (hv.occurs_rest hrest hs)
  | case3 start rest hrest i hfind found colonAt value htest =>
    obtain ⟨hocc, hfirst⟩ := (findFirst_eq_some hne).mp hfind
    obtain ⟨-, rfl⟩ := getFrom_eq_some.mp hrest
    have hfound : Occurs (quotedKey field) body found := by
      rw [Occurs, List.drop_drop, Nat.add_comm] at hocc
      exact hocc
    refine ⟨by omega, (valueAt_iff_test hfound value).mpr ⟨rfl, htest⟩, ?_⟩
    intro s' hs' hlt v' hv'
    exact hfirst _ (by omega) (hv'.occurs_rest hrest hs')
  | case4 start rest hrest i hfind found colonAt value htest ih =>
    obtain ⟨hocc, hfirst⟩ := (findFirst_eq_some hne).mp hfind
    -- Nothing up to `found` is a candidate: before it no key stands, at it the test fails.
    have hskip : ∀ s, start ≤ s → s ≤ found → ∀ v, ¬ ValueAt body field quoted s v := by
      intro s hs hle v hv
      rcases Nat.eq_or_lt_of_le hle with rfl | hlt
      · obtain ⟨rfl, htest'⟩ := (valueAt_iff_test hv.occurs v).mp hv
        exact htest htest'
      · exact hfirst _ (by omega) (hv.occurs_rest hrest hs)
    split at ih
    · obtain ⟨hs, hv, hlt⟩ := ih
      refine ⟨by omega, hv, fun s' hs' hs'' => ?_⟩
      rcases Nat.lt_or_ge found s' with h | h
      · exact hlt s' h hs''
      · exact hskip s' hs' h
    · intro s hs
      rcases Nat.lt_or_ge found s with h | h
      · exact ih s h
      · exact hskip s hs h

theorem keyAndValue_eq_some {body field : Bytes} {quoted : Bool} {s v : Nat} :
    keyAndValue body field quoted = some (s, v) ↔ FirstValueAt body field quoted s v := by
  have hspec := keyAndValueFrom_spec body field quoted 0
  rw [keyAndValue]
  constructor
  · intro h
    rw [h] at hspec
    exact ⟨hspec.2.1, fun s' hs' => hspec.2.2 s' (by omega) hs'⟩
  · intro h
    split at hspec
    · rename_i s' v' heq
      obtain ⟨rfl, rfl⟩ := h.unique ⟨hspec.2.1, fun s' hs' => hspec.2.2 s' (by omega) hs'⟩
      exact heq
    · exact absurd h.1 (hspec s (by omega) v)

def memberOf (s q e : Nat) : JsonMember := ⟨⟨s, e + 1⟩, ⟨q + 1, e⟩⟩

theorem stringAt_iff_position {body : Bytes} {q e : Nat} (hq : body[q]? = some quote) :
    StringAt body q e ↔
      q + 1 ≤ e ∧ (body.drop (q + 1)).findIdx? (· == quote) = some (e - (q + 1)) := by
  simp only [position_eq_some, List.getElem?_drop, beq_iff_eq]
  constructor
  · intro h
    have := h.lt
    refine ⟨h.lt, ⟨quote, ?_, rfl⟩, ?_⟩
    · rw [Nat.add_sub_cancel' h.lt, h.closing]
    · rintro j hj a ha rfl
      exact h.quoteFree _ (by omega) (by omega) ha
  · rintro ⟨hle, ⟨a, ha, rfl⟩, hlt⟩
    refine ⟨hq, hle, fun i hi hie hiq => ?_, by rwa [Nat.add_sub_cancel' hle] at ha⟩
    exact hlt (i - (q + 1)) (by omega) quote
      (by rwa [show q + 1 + (i - (q + 1)) = i by omega]) rfl

theorem inBody_eq_some {body field : Bytes} {m : JsonMember} :
    JsonMember.inBody body field = some m ↔
      ∃ s q e, FirstValueAt body field true s q ∧ StringAt body q e ∧ m = memberOf s q e := by
  simp only [JsonMember.inBody, Option.bind_eq_bind, Option.bind_eq_some_iff, getFrom_eq_some,
    Prod.exists, keyAndValue_eq_some, Option.pure_def, Option.some.injEq]
  constructor
  · rintro ⟨s, q, hfirst, rest, ⟨-, rfl⟩, i, hi, rfl⟩
    have hq : body[q]? = some quote := by
      obtain ⟨⟨_, _, _, hq⟩, -⟩ := hfirst
      simpa using hq
    have hstr : StringAt body q (i + (q + 1)) :=
      (stringAt_iff_position hq).mpr ⟨by omega, by simpa using hi⟩
    exact ⟨s, q, _, hfirst, hstr, rfl⟩
  · rintro ⟨s, q, e, hfirst, hstr, rfl⟩
    obtain ⟨hle, hpos⟩ := (stringAt_iff_position hstr.opening).mp hstr
    have hlen := (List.getElem?_eq_some_iff.mp hstr.closing).1
    refine ⟨s, q, hfirst, _, ⟨by omega, rfl⟩, _, hpos, ?_⟩
    rw [Nat.sub_add_cancel hle]
    rfl

theorem digitAt_iff {body : Bytes} {i : Nat} {b : UInt8} (h : body[i]? = some b) :
    DigitAt body i ↔ isAsciiDigit b := by
  simp [DigitAt, h]

theorem takeWhile_digits_eq_iff (body : Bytes) {d n : Nat} (hdn : d ≤ n) :
    ((body.drop d).takeWhile isAsciiDigit).length = n - d ↔
      (∀ i, d ≤ i → i < n → DigitAt body i) ∧ ¬ DigitAt body n := by
  simp only [length_takeWhile_eq_iff, List.getElem?_drop, DigitAt, Nat.add_sub_cancel' hdn]
  refine and_congr_left fun _ => ⟨fun h i hi hin => ?_, fun h i hi => h _ (by omega) (by omega)⟩
  simpa [Nat.add_sub_cancel' hi] using h (i - d) (by omega)

theorem numberAt_iff_scan {body : Bytes} {d w n t : Nat}
    (hw : ((body.drop d).takeWhile isAsciiDigit).length = w) :
    NumberAt body d n t ↔ n = d + w ∧ w ≠ 0 ∧ ¬ (w > 1 ∧ body[d]? = some 0x30) ∧
      skipJsonWhitespace body n = t ∧ (body[t]? = some 0x2c ∨ body[t]? = some 0x7d) := by
  constructor
  · intro h
    have hlt := h.lt
    have hrun := (takeWhile_digits_eq_iff body hlt.le).mpr ⟨h.digits, h.whole⟩
    rw [hw] at hrun
    have hend : ¬ WsAt body t := by
      rcases h.term with hterm | hterm
      · exact not_wsAt_of_eq hterm rfl
      · exact not_wsAt_of_eq hterm rfl
    refine ⟨by omega, by omega, ?_, skipJsonWhitespace_eq_iff.mpr ⟨h.ws, hend⟩, h.term⟩
    rintro ⟨hwide, hzero⟩
    rcases h.canonical with hone | hnonzero
    · omega
    · exact hnonzero hzero
  · rintro ⟨rfl, hne, hzero, rfl, hterm⟩
    have hrun := takeWhile_digits_eq_iff body (Nat.le_add_right d w)
    rw [Nat.add_sub_cancel_left] at hrun
    obtain ⟨hdigits, hwhole⟩ := hrun.mp hw
    have hcanonical : d + w = d + 1 ∨ body[d]? ≠ some 0x30 := by
      rcases Nat.lt_or_ge 1 w with hwide | hone
      · exact .inr fun h0 => hzero ⟨hwide, h0⟩
      · exact .inl (by omega)
    exact ⟨by omega, hdigits, hwhole, hcanonical, (skipJsonWhitespace_spec body _).1, hterm⟩

theorem findJsonBareSnippetRange_eq_some {body field : Bytes} {r : Range} :
    findJsonBareSnippetRange body field = some r ↔
      ∃ s d n t, FirstValueAt body field false s d ∧ NumberAt body d n t ∧ r = ⟨s, t + 1⟩ := by
  simp only [findJsonBareSnippetRange, Option.bind_eq_bind, Option.bind_eq_some_iff,
    getFrom_eq_some, Prod.exists, keyAndValue_eq_some]
  constructor
  · rintro ⟨s, d, hfirst, rest, ⟨-, rfl⟩, h⟩
    split at h
    case isTrue => simp at h
    case isFalse hne =>
      split at h
      case isTrue => simp at h
      case isFalse hzero =>
        split at h
        case isTrue hterm =>
          obtain rfl := Option.some.inj h
          have hnum := (numberAt_iff_scan rfl).mpr ⟨rfl, hne, by simpa using hzero, rfl, hterm⟩
          exact ⟨s, d, _, _, hfirst, hnum, rfl⟩
        case isFalse => simp at h
  · rintro ⟨s, d, n, t, hfirst, hnum, rfl⟩
    obtain ⟨b, hb, -⟩ := hnum.digits d le_rfl hnum.lt
    have hlen := (List.getElem?_eq_some_iff.mp hb).1
    obtain ⟨rfl, hne, hzero, rfl, hterm⟩ := (numberAt_iff_scan rfl).mp hnum
    refine ⟨s, d, hfirst, _, ⟨hlen.le, rfl⟩, ?_⟩
    rw [if_neg hne, if_neg (by simpa using hzero), if_pos hterm]

/-- The member scan for the quoted shape, the bare scan for the other. -/
def findSnippet (body field : Bytes) (quoted : Bool) : Option Range :=
  if quoted then findJsonSnippetRange body field else findJsonBareSnippetRange body field

def FirstSnippetAt (body field : Bytes) (quoted : Bool) (r : Range) : Prop :=
  ∃ v, FirstValueAt body field quoted r.start v ∧ TailAt body quoted v r.stop

theorem findSnippet_eq_some {body field : Bytes} {quoted : Bool} {r : Range} :
    findSnippet body field quoted = some r ↔ FirstSnippetAt body field quoted r := by
  cases quoted with
  | true =>
    simp only [findSnippet, if_true, findJsonSnippetRange, Option.map_eq_some_iff, inBody_eq_some,
      FirstSnippetAt, TailAt]
    constructor
    · rintro ⟨_, ⟨s, q, e, hfirst, hstr, rfl⟩, rfl⟩
      exact ⟨q, hfirst, e, hstr, rfl⟩
    · rintro ⟨q, hfirst, e, hstr, hstop⟩
      exact ⟨_, ⟨_, q, e, hfirst, hstr, rfl⟩, by rw [memberOf, ← hstop]⟩
  | false =>
    simp only [findSnippet, Bool.false_eq_true, if_false, findJsonBareSnippetRange_eq_some,
      FirstSnippetAt, TailAt]
    constructor
    · rintro ⟨s, d, n, t, hfirst, hnum, rfl⟩
      exact ⟨d, hfirst, n, t, hnum, rfl⟩
    · rintro ⟨d, hfirst, n, t, hnum, hstop⟩
      exact ⟨_, d, n, t, hfirst, hnum, by rw [← hstop]⟩

theorem ValueAt.lt {body field : Bytes} {quoted : Bool} {s v : Nat}
    (h : ValueAt body field quoted s v) : s + field.length + 2 < v := by
  obtain ⟨c, hc, rfl, -⟩ := h
  have := hc.lt
  have := (skipJsonWhitespace_spec body (c + 1)).1.le
  omega

theorem TailAt.bounds {body : Bytes} {quoted : Bool} {v stop : Nat}
    (h : TailAt body quoted v stop) : v + 1 < stop ∧ stop ≤ body.length := by
  cases quoted with
  | true =>
    obtain ⟨e, hstr, rfl⟩ := tailAt_true.mp h
    have := hstr.lt
    have := (List.getElem?_eq_some_iff.mp hstr.closing).1
    omega
  | false =>
    obtain ⟨n, t, hnum, rfl⟩ := tailAt_false.mp h
    have := hnum.lt
    have := hnum.ws.le
    have : t < body.length := by
      rcases hnum.term with h | h <;> exact (List.getElem?_eq_some_iff.mp h).1
    omega

theorem FirstSnippetAt.bounds {body field : Bytes} {quoted : Bool} {r : Range}
    (h : FirstSnippetAt body field quoted r) : r.start < r.stop ∧ r.stop ≤ body.length := by
  obtain ⟨v, hv, htail⟩ := h
  have := hv.1.lt
  have := htail.bounds
  omega

def BodyAt (recv : Bytes) (b : Nat) : Prop :=
  ∃ h, FirstAt headBoundary recv h ∧ b = h + headBoundary.length

theorem BodyAt.le_length {recv : Bytes} {b : Nat} (h : BodyAt recv b) : b ≤ recv.length := by
  obtain ⟨p, hp, rfl⟩ := h
  exact hp.1.le_length (by decide)

theorem BodyAt.unique {recv : Bytes} {b b' : Nat} (h : BodyAt recv b) (h' : BodyAt recv b') :
    b = b' := by
  obtain ⟨p, hp, rfl⟩ := h
  obtain ⟨p', hp', rfl⟩ := h'
  rw [hp.unique hp']

theorem findResponseBodyRange_eq_some {recv : Bytes} {r : Range} :
    findResponseBodyRange recv = some r ↔ BodyAt recv r.start ∧ r.stop = recv.length := by
  simp only [findResponseBodyRange, Option.map_eq_some_iff, BodyAt,
    windowsPosition_beq_eq_some (show headBoundary ≠ [] by decide)]
  constructor
  · rintro ⟨p, hp, rfl⟩
    exact ⟨⟨p, hp, rfl⟩, rfl⟩
  · rintro ⟨⟨p, hp, hstart⟩, hstop⟩
    exact ⟨p, hp, by rw [← hstart, ← hstop]⟩

theorem bodyAt_iff {recv : Bytes} {b : Nat} :
    BodyAt recv b ↔ findResponseBodyRange recv = some ⟨b, recv.length⟩ := by
  simp [findResponseBodyRange_eq_some]

instance (recv : Bytes) (b : Nat) : Decidable (BodyAt recv b) := decidable_of_iff' _ bodyAt_iff

theorem slice_body (recv : Bytes) (b : Nat) : slice recv ⟨b, recv.length⟩ = recv.drop b := by
  simp [slice, List.take_of_length_le]

theorem requireContiguous_eq_some {raw decoded : Bytes} {u : Unit} :
    requireContiguous raw decoded = some u ↔ raw = decoded := by
  simp [requireContiguous]

theorem toOption_eq_some {ε α : Type*} {x : Except ε α} {a : α} :
    x.toOption = some a ↔ x = .ok a := by
  cases x <;> simp [Except.toOption]

theorem inResponse_eq_some {recv field : Bytes} {m : JsonMember} :
    JsonMember.inResponse recv field = some m ↔
      ∃ b decoded d raw, BodyAt recv b ∧ extractResponseBody recv = .ok decoded ∧
        JsonMember.inBody decoded field = some d ∧
        JsonMember.inBody (recv.drop b) field = some raw ∧
        slice (recv.drop b) raw.member = slice decoded d.member ∧
        m = ⟨raw.member.shift b, raw.value.shift b⟩ := by
  have hbounds : ∀ {body d}, JsonMember.inBody body field = some d →
      d.member.start ≤ d.member.stop ∧ d.member.stop ≤ body.length := by
    intro body d hd
    have hr : findSnippet body field true = some d.member := by
      simp [findSnippet, findJsonSnippetRange, hd]
    have := (findSnippet_eq_some.mp hr).bounds
    omega
  simp only [JsonMember.inResponse, Option.bind_eq_bind, Option.bind_eq_some_iff,
    findResponseBodyRange_eq_some, toOption_eq_some, getRange_eq_some, requireContiguous_eq_some,
    Option.pure_def, Option.some.injEq]
  constructor
  · rintro ⟨⟨b, stop⟩, ⟨hb, rfl⟩, decoded, hdec, d, hd, raw, hraw, _, ⟨-, -, rfl⟩, _, ⟨-, -, rfl⟩,
      -, heq, rfl⟩
    simp only [slice_body] at hraw heq
    exact ⟨b, decoded, d, raw, hb, hdec, hd, hraw, heq, rfl⟩
  · rintro ⟨b, decoded, d, raw, hb, hdec, hd, hraw, heq, rfl⟩
    refine ⟨⟨b, recv.length⟩, ⟨hb, rfl⟩, decoded, hdec, d, hd, raw, ?_⟩
    simp only [slice_body]
    exact ⟨hraw, _, ⟨(hbounds hraw).1, (hbounds hraw).2, rfl⟩, _,
      ⟨(hbounds hd).1, (hbounds hd).2, rfl⟩, (), heq, trivial⟩

theorem exists_body_iff {α : Type} {recv decoded : Bytes} {b : Nat} {P : Nat → Bytes → α → α → Prop}
    (hb : BodyAt recv b) (hdec : extractResponseBody recv = .ok decoded) :
    (∃ b' decoded' d raw, BodyAt recv b' ∧ extractResponseBody recv = .ok decoded' ∧
      P b' decoded' d raw) ↔ ∃ d raw, P b decoded d raw := by
  constructor
  · rintro ⟨b', decoded', d, raw, hb', hdec', h⟩
    obtain rfl := hb.unique hb'
    obtain rfl := Except.ok.inj (hdec.symm.trans hdec')
    exact ⟨d, raw, h⟩
  · rintro ⟨d, raw, h⟩
    exact ⟨b, decoded, d, raw, hb, hdec, h⟩

theorem inResponse_iff {recv field decoded : Bytes} {b : Nat} {m : JsonMember}
    (hb : BodyAt recv b) (hdec : extractResponseBody recv = .ok decoded) :
    JsonMember.inResponse recv field = some m ↔
      ∃ d raw, JsonMember.inBody decoded field = some d ∧
        JsonMember.inBody (recv.drop b) field = some raw ∧
        slice (recv.drop b) raw.member = slice decoded d.member ∧
        m = ⟨raw.member.shift b, raw.value.shift b⟩ := by
  rw [inResponse_eq_some]
  exact exists_body_iff hb hdec

theorem computeIdSnippetRange_eq_some {recv field : Bytes} {quoted : Bool} {r : Range} :
    computeIdSnippetRange recv field quoted = some r ↔
      ∃ b decoded d raw, BodyAt recv b ∧ extractResponseBody recv = .ok decoded ∧
        FirstSnippetAt decoded field quoted d ∧ FirstSnippetAt (recv.drop b) field quoted raw ∧
        slice (recv.drop b) raw = slice decoded d ∧ r = raw.shift b := by
  simp only [← findSnippet_eq_some]
  cases quoted with
  | true =>
    simp only [computeIdSnippetRange, if_true, computeFieldSnippetRange, Option.map_eq_some_iff,
      inResponse_eq_some, findSnippet, findJsonSnippetRange]
    constructor
    · rintro ⟨_, ⟨b, decoded, d, raw, hb, hdec, hd, hraw, heq, rfl⟩, rfl⟩
      exact ⟨b, decoded, _, _, hb, hdec, ⟨d, hd, rfl⟩, ⟨raw, hraw, rfl⟩, heq, rfl⟩
    · rintro ⟨b, decoded, _, _, hb, hdec, ⟨d, hd, rfl⟩, ⟨raw, hraw, rfl⟩, heq, rfl⟩
      exact ⟨_, ⟨b, decoded, d, raw, hb, hdec, hd, hraw, heq, rfl⟩, rfl⟩
  | false =>
    simp only [computeIdSnippetRange, findSnippet, Bool.false_eq_true, if_false,
      Option.bind_eq_bind, Option.bind_eq_some_iff, findResponseBodyRange_eq_some,
      toOption_eq_some, getRange_eq_some, requireContiguous_eq_some, Option.pure_def,
      Option.some.injEq]
    constructor
    · rintro ⟨⟨b, stop⟩, ⟨hb, rfl⟩, decoded, hdec, d, hd, raw, hraw, _, ⟨-, -, rfl⟩, _,
        ⟨-, -, rfl⟩, -, heq, rfl⟩
      simp only [slice_body] at hraw heq
      exact ⟨b, decoded, d, raw, hb, hdec, hd, hraw, heq, rfl⟩
    · rintro ⟨b, decoded, d, raw, hb, hdec, hd, hraw, heq, rfl⟩
      have hdb := (findSnippet_eq_some.mp (show findSnippet _ _ false = some d from hd)).bounds
      have hrb := (findSnippet_eq_some.mp (show findSnippet _ _ false = some raw from hraw)).bounds
      refine ⟨⟨b, recv.length⟩, ⟨hb, rfl⟩, decoded, hdec, d, hd, raw, ?_⟩
      simp only [slice_body]
      exact ⟨hraw, _, ⟨by omega, hrb.2, rfl⟩, _, ⟨by omega, hdb.2, rfl⟩, (), heq, trivial⟩

theorem computeIdSnippetRange_iff {recv field decoded : Bytes} {quoted : Bool} {b : Nat}
    {r : Range} (hb : BodyAt recv b) (hdec : extractResponseBody recv = .ok decoded) :
    computeIdSnippetRange recv field quoted = some r ↔
      ∃ d raw, FirstSnippetAt decoded field quoted d ∧
        FirstSnippetAt (recv.drop b) field quoted raw ∧
        slice (recv.drop b) raw = slice decoded d ∧ r = raw.shift b := by
  rw [computeIdSnippetRange_eq_some]
  exact exists_body_iff hb hdec

end Libid.Transcript
