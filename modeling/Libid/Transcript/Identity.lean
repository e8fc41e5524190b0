import Libid.Transcript.Ceremony
import Libid.Transcript.Locality

/-! The layout of the identity response.  Its two ranges come from two scans that
share no state, so where they can meet, and what their bytes say once joined,
follows from where a snippet can hold a quote. -/

namespace Libid.Transcript

def IsNameByte (b : UInt8) : Prop := isAsciiAlphabetic b ∨ isAsciiDigit b ∨ b = 0x5f

instance (b : UInt8) : Decidable (IsNameByte b) :=
  inferInstanceAs (Decidable (isAsciiAlphabetic b = true ∨ isAsciiDigit b = true ∨ b = 0x5f))

def IsName (field : Bytes) : Prop := ∀ b ∈ field, IsNameByte b

instance (field : Bytes) : Decidable (IsName field) :=
  inferInstanceAs (Decidable (∀ b ∈ field, IsNameByte b))

def IsSeparator (b : UInt8) : Prop := isJsonWhitespace b ∨ b = colon

instance (b : UInt8) : Decidable (IsSeparator b) :=
  inferInstanceAs (Decidable (isJsonWhitespace b = true ∨ b = colon))

theorem IsSeparator.not_head :
    ∀ {b : UInt8}, IsSeparator b → ¬ (IsNameByte b ∨ b = quote) := by
  decide +kernel

theorem IsName.quote_notMem {field : Bytes} (h : IsName field) : quote ∉ field :=
  fun hq => absurd (h _ hq) (by decide)

theorem KeyAt.after {body field : Bytes} {s c : Nat} (h : KeyAt body field s c) :
    ∃ b, body[s + field.length + 2]? = some b ∧ IsSeparator b := by
  rcases Nat.eq_or_lt_of_le h.ws.le with heq | hlt
  · exact ⟨_, heq ▸ h.colon, .inr rfl⟩
  · obtain ⟨b, hb, hws⟩ := h.ws.ws _ le_rfl hlt
    exact ⟨b, hb, .inl hws⟩

theorem KeyAt.head {body field : Bytes} {s c : Nat} (h : KeyAt body field s c)
    (hf : IsName field) : ∃ b, body[s + 1]? = some b ∧ (IsNameByte b ∨ b = quote) := by
  cases field with
  | nil => exact ⟨quote, h.closing, .inr rfl⟩
  | cons b field => exact ⟨b, h.name (i := 0) (by simp), .inl (hf b (by simp))⟩

/-- No key opens where another's name closes: a separator follows, not a name. -/
theorem KeyAt.ne_closing {body f g : Bytes} {s i c d : Nat} (hf : KeyAt body f s c)
    (hg : KeyAt body g i d) (hname : IsName g) : i ≠ s + f.length + 1 := by
  rintro rfl
  obtain ⟨b, hb, hsep⟩ := hf.after
  obtain ⟨b', hb', hhead⟩ := hg.head hname
  obtain rfl : b = b' := Option.some.inj (hb.symm.trans hb')
  exact hsep.not_head hhead

theorem KeyAt.field_unique {body f g : Bytes} {s c d : Nat} (hf : KeyAt body f s c)
    (hg : KeyAt body g s d) (hfn : IsName f) (hgn : IsName g) : f = g := by
  have h1 := hf.le_of_quote hfn.quote_notMem (by omega) hg.closing
  have h2 := hg.le_of_quote hgn.quote_notMem (by omega) hf.closing
  have hlen : f.length = g.length := by omega
  apply List.ext_getElem? fun i => ?_
  rcases Nat.lt_or_ge i f.length with hi | hi
  · rw [← hf.name hi, ← hg.name (hlen ▸ hi)]
  · rw [List.getElem?_eq_none hi, List.getElem?_eq_none (hlen ▸ hi)]

theorem SnippetAt.quotes {body field : Bytes} {quoted : Bool} {s v stop i : Nat}
    (h : SnippetAt body field quoted s v stop) (hf : IsName field) (hi : s ≤ i) (hlt : i < stop)
    (hq : body[i]? = some quote) :
    i = s ∨ i = s + field.length + 1 ∨ quoted = true ∧ (i = v ∨ i + 1 = stop) := by
  obtain ⟨hvalue, htail⟩ := h
  by_contra hno
  simp only [not_or, not_and] at hno
  obtain ⟨hs, hclose, hval⟩ := hno
  have hv := (hvalue.le_of_quote hf.quote_notMem (by omega) hq).resolve_left hclose
  cases quoted with
  | true =>
    obtain ⟨e, hstr, rfl⟩ := tailAt_true.mp htail
    have := hval rfl
    exact hstr.quoteFree i (by omega) (by omega) hq
  | false =>
    obtain ⟨n, t, hnum, rfl⟩ := tailAt_false.mp htail
    have hn : n ≤ i := by
      by_contra hin
      obtain ⟨b, hb, hdig⟩ := hnum.digits i hv (by omega)
      rw [hq] at hb
      obtain rfl := Option.some.inj hb
      simp [isAsciiDigit, quote] at hdig
    obtain rfl : i = t := Nat.le_antisymm (by omega) (hnum.ws.le_of_not_wsAt (not_wsAt_quote hq) hn)
    have := hnum.term
    simp [hq, quote] at this

/-- A key that opens inside a snippet is the snippet's own, or opens with a quote
of the snippet's value. -/
theorem SnippetAt.keyAt {body f g : Bytes} {quoted : Bool} {s v stop i c : Nat}
    (h : SnippetAt body f quoted s v stop) (hf : IsName f) (hg : IsName g)
    (hk : KeyAt body g i c) (hi : s ≤ i) (hlt : i < stop) :
    i = s ∧ g = f ∨ quoted = true ∧ (i = v ∧ i + g.length + 2 = stop ∨ i + 1 = stop) := by
  have hkey := h.1.choose_spec.1
  rcases h.quotes hf hi hlt hk.opening with rfl | hclose | ⟨rfl, rfl | hstop⟩
  · exact .inl ⟨rfl, hk.field_unique hkey hg hf⟩
  · exact absurd hclose (hkey.ne_closing hk hg)
  · obtain ⟨e, hstr, rfl⟩ := tailAt_true.mp h.2
    have h1 := hk.le_of_quote hg.quote_notMem hstr.lt hstr.closing
    have h2 : e ≤ i + g.length + 1 := by
      by_contra hlt
      exact hstr.quoteFree _ (by omega) (by omega) hk.closing
    exact .inr ⟨rfl, .inl ⟨rfl, by omega⟩⟩
  · exact .inr ⟨rfl, .inr hstop⟩

/-- The first match of `g`'s template opens with a quote of the value in the first
match of `f`'s, be it the opening one or the closing one. -/
def SplicedInto (body f g : Bytes) (quoted : Bool) : Prop :=
  ∃ s q e v, FirstValueAt body f true s q ∧ StringAt body q e ∧
    (FirstValueAt body g quoted q v ∨ FirstValueAt body g quoted e v)

theorem FirstSnippetAt.spliced_of_lt {body f g : Bytes} {quoted quoted' : Bool} {a d : Range}
    (ha : FirstSnippetAt body f quoted a) (hd : FirstSnippetAt body g quoted' d)
    (hf : IsName f) (hg : IsName g) (hne : f ≠ g) (hle : a.start ≤ d.start)
    (hlt : d.start < a.stop) : quoted = true ∧ SplicedInto body f g quoted' := by
  obtain ⟨v, hv, htail⟩ := ha
  obtain ⟨w, hw, -⟩ := hd
  obtain ⟨c, hc, -⟩ := hw.1
  have hsnip : SnippetAt body f quoted a.start v a.stop := ⟨hv.1, htail⟩
  rcases hsnip.keyAt hf hg hc hle hlt with ⟨-, heq⟩ | ⟨rfl, hval⟩
  · exact absurd heq.symm hne
  · obtain ⟨e, hstr, hstop⟩ := tailAt_true.mp htail
    refine ⟨rfl, a.start, v, e, w, hv, hstr, ?_⟩
    rcases hval with ⟨heq, -⟩ | heq
    · exact .inl (heq ▸ hw)
    · obtain rfl : d.start = e := by omega
      exact .inr hw

theorem FirstSnippetAt.start_mem_of_spliced {body f g : Bytes} {quoted : Bool} {a d : Range}
    (ha : FirstSnippetAt body f true a) (hd : FirstSnippetAt body g quoted d)
    (h : SplicedInto body f g quoted) : d.start ∈ a := by
  obtain ⟨v, hv, htail⟩ := ha
  obtain ⟨w, hw, -⟩ := hd
  obtain ⟨e, hstr, hstop⟩ := tailAt_true.mp htail
  obtain ⟨s, q, e', v', hfirst, hstr', hopen⟩ := h
  obtain ⟨rfl, rfl⟩ := hv.unique hfirst
  obtain rfl := hstr.unique hstr'
  have hlt := hv.1.lt
  have hstrlt := hstr.lt
  rw [Range.mem_iff]
  rcases hopen with hq | he
  · rw [(hw.unique hq).1]
    omega
  · rw [(hw.unique he).1]
    omega

namespace Layout

theorem identityResponse_eq_ok {recv : Bytes} {session : IdentitySession} {l : Layout} :
    identityResponse recv session = .ok l ↔ ∃ id handle,
      computeIdSnippetRange recv session.idField (session.idShape == .jsonString) = some id ∧
        computeFieldSnippetRange recv session.handleField = some handle ∧
        l = revealing [id, handle] recv.length := by
  simp only [identityResponse, bind_eq_ok, okOr_eq_ok]
  simp [pure, Except.pure, eq_comm]

theorem identityResponse_snippets {recv : Bytes} {session : IdentitySession} {l : Layout}
    (h : identityResponse recv session = .ok l) :
    ∃ b id handle, BodyAt recv b ∧
      FirstSnippetAt (recv.drop b) session.idField (session.idShape == .jsonString) id ∧
      FirstSnippetAt (recv.drop b) session.handleField true handle ∧
      computeIdSnippetRange recv session.idField (session.idShape == .jsonString) =
        some (id.shift b) ∧
      computeFieldSnippetRange recv session.handleField = some (handle.shift b) ∧
      l = revealing [id.shift b, handle.shift b] recv.length := by
  obtain ⟨_, _, hid, hhandle, rfl⟩ := identityResponse_eq_ok.mp h
  obtain ⟨b, -, -, id, hb, -, -, hfid, -, rfl⟩ := computeIdSnippetRange_eq_some.mp hid
  have hhandle' : computeIdSnippetRange recv session.handleField true = _ := hhandle
  obtain ⟨b', -, -, handle, hb', -, -, hfhandle, -, rfl⟩ :=
    computeIdSnippetRange_eq_some.mp hhandle'
  obtain rfl := hb.unique hb'
  exact ⟨b, id, handle, hb, hfid, hfhandle, hid, hhandle, rfl⟩

structure TilesResponse (recv : Bytes) (session : IdentitySession) (l : Layout) : Prop where
  disjoint : ∀ id handle,
    computeIdSnippetRange recv session.idField (session.idShape == .jsonString) = some id →
    computeFieldSnippetRange recv session.handleField = some handle → id.Disjoint handle
  inOrder : l.RevealsInOrder
  tiles : Tiles recv.length (l.reveal ++ l.commit)

/-- In the body of `recv`, one member's first match opens with a quote of the other's value. -/
def Spliced (recv : Bytes) (session : IdentitySession) : Prop :=
  ∃ b, BodyAt recv b ∧
    (session.idShape = .jsonString ∧
        SplicedInto (recv.drop b) session.idField session.handleField true ∨
      SplicedInto (recv.drop b) session.handleField session.idField
        (session.idShape == .jsonString))

theorem accounts_identityResponse {recv : Bytes} {b : Nat} {id handle : Range}
    (hid : id.start < id.stop ∧ id.stop ≤ (recv.drop b).length)
    (hhandle : handle.start < handle.stop ∧ handle.stop ≤ (recv.drop b).length)
    (hb : b ≤ recv.length) (hdis : (id.shift b).Disjoint (handle.shift b)) :
    (revealing [id.shift b, handle.shift b] recv.length).Accounts recv.length := by
  rw [List.length_drop] at hid hhandle
  refine accounts_revealing ?_ ?_ (by simpa using hdis)
  · intro r hr
    simp only [List.mem_cons, List.not_mem_nil, or_false] at hr
    rcases hr with rfl | rfl <;> simp only [Range.shift_start, Range.shift_stop] <;> omega
  · intro r hr
    simp only [List.mem_cons, List.not_mem_nil, or_false] at hr
    rcases hr with rfl | rfl <;> simp only [Range.shift_stop] <;> omega

/-- An identity response tiles exactly when neither member is spliced into the other's value. -/
theorem identityResponse_tiles_iff {recv : Bytes} {session : IdentitySession} {l : Layout}
    (hid : IsName session.idField) (hhandle : IsName session.handleField)
    (hne : session.idField ≠ session.handleField) (h : identityResponse recv session = .ok l) :
    TilesResponse recv session l ↔ ¬ Spliced recv session := by
  obtain ⟨b, id, handle, hb, hfid, hfhandle, hcid, hchandle, rfl⟩ := identityResponse_snippets h
  have hbid := hfid.bounds
  have hbhandle := hfhandle.bounds
  constructor
  · rintro ⟨hdis, -, -⟩ ⟨b', hb', hspl⟩
    obtain rfl := hb.unique hb'
    have hdis := hdis _ _ hcid hchandle
    rcases hspl with ⟨hshape, hspl⟩ | hspl
    · rw [hshape] at hfid
      have hmem := hfid.start_mem_of_spliced hfhandle hspl
      refine hdis (b + handle.start) ?_ ?_
      · simpa using hmem
      · simpa using hbhandle.1
    · have hmem := hfhandle.start_mem_of_spliced hfid hspl
      refine hdis (b + id.start) ?_ ?_
      · simpa using hbid.1
      · simpa using hmem
  · intro hspl
    have hdis : (id.shift b).Disjoint (handle.shift b) := by
      rw [Range.disjoint_iff (by simpa using hbid.1) (by simpa using hbhandle.1)]
      simp only [Range.Before, Range.shift_start, Range.shift_stop]
      by_contra hno
      rcases Nat.le_total id.start handle.start with hle | hle
      · obtain ⟨hq, hs⟩ := hfid.spliced_of_lt hfhandle hid hhandle hne hle (by omega)
        exact hspl ⟨b, hb, .inl ⟨by simpa using hq, hs⟩⟩
      · obtain ⟨-, hs⟩ := hfhandle.spliced_of_lt hfid hhandle hid hne.symm hle (by omega)
        exact hspl ⟨b, hb, .inr hs⟩
    have hacc := accounts_identityResponse hbid hbhandle hb.le_length hdis
    refine ⟨fun id' handle' hid' hhandle' => ?_, hacc.ascending.ordered.isChain, hacc.tiles⟩
    obtain rfl := Option.some.inj (hcid.symm.trans hid')
    obtain rfl := Option.some.inj (hchandle.symm.trans hhandle')
    exact hdis

theorem identityResponse_tiles_iff_run :
    TilesResponse (ascii "HTTP/1.1 200 OK\r\n\r\n\x7b\"id\":\"7\",\"username\":\"bob\"\x7d")
        ⟨ascii "id", ascii "username", .jsonString⟩
        ⟨[⟨20, 28⟩, ⟨29, 45⟩], [⟨0, 20⟩, ⟨28, 29⟩, ⟨45, 46⟩]⟩ ↔
      ¬ Spliced (ascii "HTTP/1.1 200 OK\r\n\r\n\x7b\"id\":\"7\",\"username\":\"bob\"\x7d")
        ⟨ascii "id", ascii "username", .jsonString⟩ :=
  identityResponse_tiles_iff (by decide +kernel) (by decide +kernel) (by decide)
    (by decide +kernel)

/-- A quoted id whose value is the handle's own key. -/
theorem identityResponse_overlap :
    ∃ l, identityResponse (ascii "HTTP/1.1 200 OK\r\n\r\n\x7b\"id\":\"username\":\"alice\"\x7d")
        ⟨ascii "id", ascii "username", .jsonString⟩ = .ok l ∧
      IsName (ascii "id") ∧ IsName (ascii "username") ∧ ascii "id" ≠ ascii "username" ∧
      ¬ Range.Disjoint ⟨20, 35⟩ ⟨25, 43⟩ ∧
      l.reveal = [⟨20, 35⟩, ⟨25, 43⟩] ∧ ¬ l.RevealsInOrder ∧ ¬ Tiles 44 (l.reveal ++ l.commit) := by
  refine ⟨⟨[⟨20, 35⟩, ⟨25, 43⟩], [⟨0, 20⟩, ⟨43, 44⟩]⟩, by decide +kernel, by decide +kernel,
    by decide +kernel, by decide, ?_, rfl, ?_, ?_⟩
  · intro h
    exact h 25 (by decide) (by decide)
  · simp [RevealsInOrder, Range.Before]
  · intro h
    have hdis := (List.pairwise_cons.mp h.disjoint).1 ⟨25, 43⟩ (by simp)
    exact hdis 25 (by decide) (by decide)

end Layout

/-- The delimiter `"field" ws* :` matches at one place of `data`. -/
def Once (data field : Bytes) : Prop := ∃! p : Nat × Nat, KeyAt data field p.1 p.2

theorem KeyAt.at_start {data f g k : Bytes} {quoted quoted' : Bool} {v w n i c : Nat}
    (hf : SnippetAt data f quoted 0 v n) (hg : SnippetAt data g quoted' n w data.length)
    (hfn : IsName f) (hgn : IsName g) (hkn : IsName k) (hk : KeyAt data k i c) :
    i = 0 ∧ k = f ∨ i = n ∧ k = g := by
  have hlen := (List.getElem?_eq_some_iff.mp hk.opening).1
  obtain ⟨d, hseam, -⟩ := hg.1
  obtain ⟨b, hb, hsep⟩ := hk.after
  rcases Nat.lt_or_ge i n with hlt | hge
  · rcases hf.keyAt hfn hkn hk (Nat.zero_le i) hlt with h | ⟨-, ⟨-, hstop⟩ | hstop⟩
    · exact .inl h
    · -- The value would be the name, but a quote follows it, and no separator.
      rw [hstop, hseam.opening] at hb
      obtain rfl := Option.some.inj hb
      exact absurd (.inr rfl) hsep.not_head
    · -- The match would open on the last quote before the seam, with an empty name.
      have hempty := hk.le_of_quote hkn.quote_notMem (i := n) (by omega) hseam.opening
      obtain ⟨b', hb', hhead⟩ := hseam.head hgn
      rw [show i + k.length + 2 = n + 1 by omega, hb'] at hb
      obtain rfl := Option.some.inj hb
      exact absurd hhead hsep.not_head
  · have hend := (List.getElem?_eq_some_iff.mp hb).1
    rcases hg.keyAt hgn hkn hk hge hlen with h | ⟨-, ⟨-, hstop⟩ | hstop⟩
    · exact .inr h
    · omega
    · omega

theorem once_of_snippets {data f g : Bytes} {quoted quoted' : Bool} {v w n : Nat}
    (hf : SnippetAt data f quoted 0 v n) (hg : SnippetAt data g quoted' n w data.length)
    (hfn : IsName f) (hgn : IsName g) (hne : f ≠ g) : Once data f ∧ Once data g := by
  obtain ⟨c, hc, -⟩ := hf.1
  obtain ⟨d, hd, -⟩ := hg.1
  constructor
  · refine ⟨(0, c), hc, ?_⟩
    rintro ⟨i, c'⟩ hk
    rcases hk.at_start hf hg hfn hgn hfn with ⟨rfl, -⟩ | ⟨-, heq⟩
    · exact Prod.ext rfl (hk.unique hc)
    · exact absurd heq hne
  · refine ⟨(n, d), hd, ?_⟩
    rintro ⟨i, d'⟩ hk
    rcases hk.at_start hf hg hfn hgn hgn with ⟨-, heq⟩ | ⟨rfl, -⟩
    · exact absurd heq.symm hne
    · exact Prod.ext rfl (hk.unique hd)

theorem once_of_joined {recv f g : Bytes} {quoted quoted' : Bool} {a d : Range}
    (ha : ∃ v, SnippetAt recv f quoted a.start v a.stop)
    (hd : ∃ w, SnippetAt recv g quoted' d.start w d.stop)
    (hfn : IsName f) (hgn : IsName g) (hne : f ≠ g) :
    Once (slice recv a ++ slice recv d) f ∧ Once (slice recv a ++ slice recv d) g := by
  obtain ⟨v, ha⟩ := ha
  obtain ⟨w, hd⟩ := hd
  have hla := length_slice recv a ha.2.bounds.2
  have hld := length_slice recv d hd.2.bounds.2
  have ha' := ha.transport (y := slice recv a ++ slice recv d) 0 fun i hi => by
    rw [Nat.zero_add, List.getElem?_append_left (by omega), getElem?_slice, if_pos hi]
  have hd' := hd.transport (y := slice recv a ++ slice recv d) (slice recv a).length
    fun i hi => by
      rw [List.getElem?_append_right (by omega), Nat.add_sub_cancel_left, getElem?_slice, if_pos hi]
  rw [Nat.zero_add, Nat.zero_add, ← hla] at ha'
  rw [← hld, ← List.length_append] at hd'
  exact once_of_snippets ha' hd' hfn hgn hne

namespace Layout

/-- Each delimiter of an identity response is shown once, seam and values included. -/
theorem identityResponse_once {recv : Bytes} {session : IdentitySession} {l : Layout}
    (hid : IsName session.idField) (hhandle : IsName session.handleField)
    (hne : session.idField ≠ session.handleField) (h : identityResponse recv session = .ok l)
    (hdis : l.reveal.Pairwise Range.Disjoint) :
    Ascending l.reveal ∧ Once (l.shown recv) session.idField ∧
      Once (l.shown recv) session.handleField := by
  obtain ⟨b, id, handle, hb, ⟨v, hv, htv⟩, ⟨w, hw, htw⟩, -, -, rfl⟩ := identityResponse_snippets h
  have hsid : ∃ v, SnippetAt recv session.idField (session.idShape == .jsonString)
      (id.shift b).start v (id.shift b).stop := ⟨_, snippetAt_drop.mp ⟨hv.1, htv⟩⟩
  have hshandle : ∃ w, SnippetAt recv session.handleField true
      (handle.shift b).start w (handle.shift b).stop := ⟨_, snippetAt_drop.mp ⟨hw.1, htw⟩⟩
  have hasc : Ascending (revealing [id.shift b, handle.shift b] recv.length).reveal := by
    refine ascending_sortByStart ?_ ?_
    · have h1 := hv.1.lt
      have h2 := htv.bounds
      have h3 := hw.1.lt
      have h4 := htw.bounds
      intro r hr
      simp only [List.mem_cons, List.not_mem_nil, or_false] at hr
      rcases hr with rfl | rfl <;> simp only [Range.shift_start, Range.shift_stop] <;> omega
    · exact (perm_sortByStart _).pairwise hdis Range.Disjoint.symm
  refine ⟨hasc, ?_⟩
  rw [shown, revealing_reveal, sortByStart_pair]
  split
  · simpa using once_of_joined hsid hshandle hid hhandle hne
  · simpa [and_comm] using once_of_joined hshandle hsid hhandle hid hne.symm

theorem identityResponse_once_run :
    Ascending [⟨20, 28⟩, ⟨29, 45⟩] ∧
      Once (ascii "\"id\":\"7\"\"username\":\"bob\"") (ascii "id") ∧
      Once (ascii "\"id\":\"7\"\"username\":\"bob\"") (ascii "username") := by
  have h : identityResponse
      (ascii "HTTP/1.1 200 OK\r\n\r\n\x7b\"id\":\"7\",\"username\":\"bob\"\x7d")
      ⟨ascii "id", ascii "username", .jsonString⟩ =
      .ok ⟨[⟨20, 28⟩, ⟨29, 45⟩], [⟨0, 20⟩, ⟨28, 29⟩, ⟨45, 46⟩]⟩ := by decide +kernel
  exact identityResponse_once (by decide +kernel) (by decide +kernel) (by decide) h
    (by simp [Range.disjoint_iff, Range.Before])

end Layout

end Libid.Transcript
