import Libid.Transcript.Contiguity
import Libid.Transcript.Encoding

/-! The scans of a plainly chunked body and of its payload.  A match needs a quote
to begin and a colon to go on, and framing holds neither, so the matches on the
wire are the matches of the payload that one chunk holds. -/

namespace Libid.Transcript

def IsPlain (field : Bytes) : Prop := ∀ b ∈ field, b ≠ quote ∧ isJsonWhitespace b = false

instance (field : Bytes) : Decidable (IsPlain field) :=
  inferInstanceAs (Decidable (∀ b ∈ field, b ≠ quote ∧ isJsonWhitespace b = false))

namespace Place

def Holds (p : Place) (r : Range) : Prop := p.out ≤ r.start ∧ r.stop ≤ p.out + p.len

/-- Where the payload's offsets `r` sit on the wire. -/
def image (p : Place) (r : Range) : Range := ⟨p.raw + (r.start - p.out), p.raw + (r.stop - p.out)⟩

theorem getElem?_image {chunks : List Chunk} {p : Place} (hp : p ∈ places chunks) {s : Nat}
    (hs : p.out ≤ s) {i : Nat} (hi : s + i < p.out + p.len) :
    (payload chunks)[s + i]? = (wire chunks)[p.raw + (s - p.out) + i]? := by
  have := getElem?_place hp (i := s - p.out + i) (by omega)
  rw [show p.out + (s - p.out + i) = s + i by omega] at this
  rw [← this, Nat.add_assoc]

theorem slice_image {chunks : List Chunk} {p : Place} (hp : p ∈ places chunks) {r : Range}
    (hr : r.start ≤ r.stop) (h : p.Holds r) :
    slice (wire chunks) (p.image r) = slice (payload chunks) r := by
  obtain ⟨hstart, hstop⟩ := h
  apply List.ext_getElem?
  intro i
  simp only [getElem?_slice, image]
  split
  · rw [if_pos (by omega), getElem?_image hp hstart (by omega)]
  · rw [if_neg (by omega)]

end Place

section Correspondence

variable {chunks : List Chunk} {field : Bytes}

theorem WsRun.lt_of_stop {p : Place} (hp : p ∈ places chunks) {a b : Nat} {x : UInt8}
    (h : WsRun (wire chunks) a b) (ha : a ≤ p.raw + p.len) (hb : (wire chunks)[b]? = some x)
    (hx : ¬ IsFramingByte x) : b < p.raw + p.len := by
  obtain ⟨hcrlf, y, d, hy, hd⟩ := after_place hp
  have hcr := hcrlf.getElem? (k := 0) (a := 0x0d) rfl
  have hlf := hcrlf.getElem? (k := 1) (a := 0x0a) rfl
  have hdigit : ∀ y : UInt8, (hexDigit y).isSome → isJsonWhitespace y = false := by
    decide +kernel
  have hle := h.le_of_not_wsAt (not_wsAt_of_eq hy (hdigit y (by simp [hd]))) (by omega)
  have hne : ∀ {i z}, (wire chunks)[i]? = some z → IsFramingByte z → b ≠ i := by
    rintro i z hz hframing rfl
    exact hx (Option.some.inj (hb.symm.trans hz) ▸ hframing)
  have h0 := hne hcr (by decide)
  have h1 := hne hlf (by decide)
  have h2 := hne hy (.inl (by simp [hd]))
  omega

theorem KeyAt.in_place (hfield : IsPlain field) {s c : Nat}
    (h : KeyAt (wire chunks) field s c) :
    ∃ p ∈ places chunks, p.raw ≤ s ∧ c < p.raw + p.len := by
  obtain ⟨p, hp, hle, hlt⟩ := exists_place h.opening (by decide)
  have hcr := (after_place hp).1.getElem? (k := 0) (a := 0x0d) rfl
  -- The key holds no CR, so it ends where it began.
  have hkey : s + field.length + 2 ≤ p.raw + p.len := by
    by_contra hend
    rcases Nat.eq_or_lt_of_le (show p.raw + p.len ≤ s + field.length + 1 by omega) with heq | hin
    · have hq := h.closing
      rw [← heq, ← Nat.add_zero (p.raw + p.len), hcr] at hq
      exact absurd hq (by decide)
    · have hmem := h.mem_field (i := p.raw + p.len) (by omega) hin hcr
      exact absurd (hfield _ hmem).2 (by decide)
  exact ⟨p, hp, hle, h.ws.lt_of_stop hp hkey h.colon (by decide)⟩

theorem ValueAt.on_payload (hfield : IsPlain field) {quoted : Bool} {s v : Nat}
    (h : ValueAt (wire chunks) field quoted s v) :
    ∃ p ∈ places chunks, ∃ i < p.len, s = p.raw + i ∧
      ∃ w, ValueAt (payload chunks) field quoted (p.out + i) w := by
  obtain ⟨c, hc, hskip, hq⟩ := h
  obtain ⟨p, hp, hle, hlt⟩ := hc.in_place hfield
  have hsc := hc.lt
  have hplace : ∀ i, p.raw ≤ s + i → s + i < p.raw + p.len →
      (wire chunks)[s + i]? = (payload chunks)[p.out + (s - p.raw) + i]? := by
    intro i hi hilt
    have := getElem?_place hp (i := s - p.raw + i) (by omega)
    rwa [show p.raw + (s - p.raw + i) = s + i by omega, ← Nat.add_assoc] at this
  refine ⟨p, hp, s - p.raw, by omega, by omega, ?_⟩
  cases quoted with
  | false =>
    have hkey := hc.transport (y := payload chunks) (p.out + (s - p.raw)) fun i hi =>
      hplace i (by omega) (by omega)
    exact ⟨_, _, hkey, rfl, .inl rfl⟩
  | true =>
    have hq' := hq.resolve_left (by decide)
    obtain ⟨hrun, -⟩ := skipJsonWhitespace_eq_iff.mp hskip
    have hv := hrun.lt_of_stop hp (by omega) hq' (by decide)
    have hvalue : ValueAt (wire chunks) field true s v := ⟨c, hc, hskip, hq⟩
    exact ⟨_, hvalue.transport (p.out + (s - p.raw)) fun i hi =>
      hplace i (by omega) (by have := hvalue.lt; omega)⟩

theorem FirstValueAt.image (hfield : IsPlain field) {quoted : Bool} {s v : Nat} {p : Place}
    (h : FirstValueAt (payload chunks) field quoted s v) (hp : p ∈ places chunks)
    (hs : p.out ≤ s) (hv : v < p.out + p.len) :
    FirstValueAt (wire chunks) field quoted (p.raw + (s - p.out)) (p.raw + (v - p.out)) := by
  have hlt := h.1.lt
  constructor
  · have himage := h.1.transport (y := wire chunks) (p.raw + (s - p.out)) fun i hi =>
      Place.getElem?_image hp hs (by omega)
    rwa [show p.raw + (s - p.out) + (v - s) = p.raw + (v - p.out) by omega] at himage
  · intro s' hs' v' hv'
    obtain ⟨t, ht, i, hi, rfl, w, hw⟩ := hv'.on_payload hfield
    have hord := out_lt_of_raw_lt ht hp hi (show s - p.out < p.len by omega) hs'
    exact h.2 _ (by omega) w hw

theorem FirstSnippetAt.image (hfield : IsPlain field) {quoted : Bool} {m : Range} {p : Place}
    (h : FirstSnippetAt (payload chunks) field quoted m) (hp : p ∈ places chunks)
    (hm : p.Holds m) : FirstSnippetAt (wire chunks) field quoted (p.image m) := by
  obtain ⟨v, hv, htail⟩ := h
  have hlt := hv.1.lt
  have hbound := htail.bounds
  obtain ⟨hstart, hstop⟩ := hm
  have hsnip : SnippetAt _ field quoted m.start v m.stop := ⟨hv.1, htail⟩
  have himage := hsnip.transport (y := wire chunks) (p.raw + (m.start - p.out)) fun i hi =>
    Place.getElem?_image hp hstart (by omega)
  rw [show p.raw + (m.start - p.out) + (m.stop - m.start) = p.raw + (m.stop - p.out) by omega,
    show p.raw + (m.start - p.out) + (v - m.start) = p.raw + (v - p.out) by omega] at himage
  exact ⟨_, hv.image hfield hp hstart (by omega), himage.2⟩

/-- A snippet on the wire without a CR in it is a snippet of the payload that one chunk holds. -/
theorem FirstSnippetAt.exists_image {quoted : Bool} {r : Range}
    (h : FirstSnippetAt (wire chunks) field quoted r) (hcr : 0x0d ∉ slice (wire chunks) r) :
    ∃ p ∈ places chunks, ∃ t, p.Holds t ∧ r = p.image t ∧
      ∃ v, SnippetAt (payload chunks) field quoted t.start v t.stop := by
  obtain ⟨v, hv, htail⟩ := h
  obtain ⟨c, hc, -⟩ := hv.1
  obtain ⟨p, hp, hle, hlt⟩ := exists_place hc.opening (by decide)
  have hend : r.stop ≤ p.raw + p.len := by
    by_contra hend
    exact hcr (mem_slice.mpr ⟨p.raw + p.len, by omega, by omega,
      (after_place hp).1.getElem? (k := 0) rfl⟩)
  have hbound := hv.1.lt
  have hbound' := htail.bounds
  have hsnip : SnippetAt _ field quoted r.start v r.stop := ⟨hv.1, htail⟩
  have htrans := hsnip.transport (y := payload chunks) (p.out + (r.start - p.raw)) fun i hi => by
    have := getElem?_place hp (i := r.start - p.raw + i) (by omega)
    rwa [show p.raw + (r.start - p.raw + i) = r.start + i by omega, ← Nat.add_assoc] at this
  refine ⟨p, hp, ⟨p.out + (r.start - p.raw), p.out + (r.start - p.raw) + (r.stop - r.start)⟩,
    ⟨by simp, by simp only; omega⟩, ?_, _, htrans⟩
  simp only [Place.image]
  cases r
  simp only [Range.mk.injEq] at *
  omega

def Place.imageMember (p : Place) (m : JsonMember) : JsonMember :=
  ⟨p.image m.member, p.image m.value⟩

def IsMember (body field : Bytes) (t : JsonMember) : Prop :=
  ∃ s c q e, MemberAt body field s c q e ∧ t = memberOf s q e

theorem inBody_isMember {body : Bytes} {m : JsonMember}
    (h : JsonMember.inBody body field = some m) : IsMember body field m := by
  obtain ⟨s, q, e, hfirst, hstr, rfl⟩ := inBody_eq_some.mp h
  obtain ⟨c, hc⟩ := exists_memberAt_iff.mpr ⟨hfirst.1, hstr⟩
  exact ⟨s, c, q, e, hc, rfl⟩

theorem eq_imageMember {p : Place} (hp : p ∈ places chunks) {t raw : JsonMember}
    (ht : IsMember (payload chunks) field t) (hholds : p.Holds t.member)
    (hraw : JsonMember.inBody (wire chunks) field = some raw)
    (heq : raw.member = p.image t.member) : raw = p.imageMember t := by
  obtain ⟨s, c, q, e, hmem, rfl⟩ := ht
  obtain ⟨s', q', e', hfirst, hstr, rfl⟩ := inBody_eq_some.mp hraw
  obtain ⟨hvalue, hstr'⟩ := exists_memberAt_iff.mp ⟨c, hmem⟩
  obtain ⟨hstart, hstop⟩ := hholds
  have hlt := hvalue.lt
  have hqe := hstr'.lt
  simp only [memberOf, Place.image, Range.mk.injEq] at heq hstart hstop
  have htrans := hvalue.transport (y := wire chunks) (p.raw + (s - p.out)) fun i hi =>
    Place.getElem?_image hp hstart (by omega)
  rw [← heq.1] at htrans
  have hq := hfirst.1.unique htrans
  have hqe' := hstr.lt
  simp only [memberOf, Place.imageMember, Place.image, JsonMember.mk.injEq, Range.mk.injEq]
  omega

end Correspondence

def JsonMember.shift (n : Nat) (m : JsonMember) : JsonMember := ⟨m.member.shift n, m.value.shift n⟩

/-- The snippet the code returns for a chunked body at `b` of `recv`. -/
structure ReadsSnippet (recv field : Bytes) (b : Nat) (chunks : List Chunk) (quoted : Bool) :
    Prop where
  missing : findSnippet (payload chunks) field quoted = none →
    computeIdSnippetRange recv field quoted = none
  inside : ∀ m, findSnippet (payload chunks) field quoted = some m →
    ∀ p ∈ places chunks, p.Holds m →
      computeIdSnippetRange recv field quoted = some ((p.image m).shift b)
  straddling : ∀ m, findSnippet (payload chunks) field quoted = some m →
    (∀ p ∈ places chunks, ¬ p.Holds m) →
      ∀ r, computeIdSnippetRange recv field quoted = some r →
        ∃ p ∈ places chunks, ∃ t, p.Holds t ∧ r = (p.image t).shift b ∧ m.start < t.start ∧
          slice (payload chunks) t = slice (payload chunks) m ∧
          ∃ v, SnippetAt (payload chunks) field quoted t.start v t.stop

structure ReadsMember (recv field : Bytes) (b : Nat) (chunks : List Chunk) : Prop where
  missing : JsonMember.inBody (payload chunks) field = none →
    JsonMember.inResponse recv field = none
  inside : ∀ m, JsonMember.inBody (payload chunks) field = some m →
    ∀ p ∈ places chunks, p.Holds m.member →
      JsonMember.inResponse recv field = some ((p.imageMember m).shift b)
  straddling : ∀ m, JsonMember.inBody (payload chunks) field = some m →
    (∀ p ∈ places chunks, ¬ p.Holds m.member) →
      ∀ r, JsonMember.inResponse recv field = some r →
        ∃ p ∈ places chunks, ∃ t, p.Holds t.member ∧ r = (p.imageMember t).shift b ∧
          m.member.start < t.member.start ∧
          slice (payload chunks) t.member = slice (payload chunks) m.member ∧
          IsMember (payload chunks) field t

section Chunked

variable {recv field : Bytes} {b : Nat} {chunks : List Chunk}

theorem extractResponseBody_wire (hb : BodyAt recv b) (hchunked : isChunked recv)
    (hwire : recv.drop b = wire chunks) : extractResponseBody recv = .ok (payload chunks) :=
  extractResponseBody_chunked hb hchunked (by rw [hwire, decodeChunkedBody_wire])

/-- A range of the wire that spells a first snippet another chunk boundary splits
is a later snippet. -/
theorem straddling_of_slice_eq (hcr : 0x0d ∉ payload chunks) {quoted : Bool} {m r : Range}
    (hm : FirstSnippetAt (payload chunks) field quoted m)
    (hr : FirstSnippetAt (wire chunks) field quoted r)
    (heq : slice (wire chunks) r = slice (payload chunks) m)
    (hsplit : ∀ p ∈ places chunks, ¬ p.Holds m) :
    ∃ p ∈ places chunks, ∃ t, p.Holds t ∧ r = p.image t ∧ m.start < t.start ∧
      slice (payload chunks) t = slice (payload chunks) m ∧
      ∃ v, SnippetAt (payload chunks) field quoted t.start v t.stop := by
  have hfree : 0x0d ∉ slice (wire chunks) r := by
    rw [heq]
    intro hmem
    obtain ⟨i, -, -, hi⟩ := mem_slice.mp hmem
    exact hcr (List.mem_of_getElem? hi)
  obtain ⟨p, hp, t, ht, rfl, v, hv⟩ := hr.exists_image hfree
  have hbounds := hv.2.bounds
  have hlt := hv.1.lt
  have himage := Place.slice_image hp (show t.start ≤ t.stop by omega) ht
  refine ⟨p, hp, t, ht, rfl, ?_, by rw [← himage, heq], v, hv⟩
  have hlen : t.stop - t.start = m.stop - m.start := by
    rw [← length_slice _ t hbounds.2, ← length_slice _ m hm.bounds.2, ← himage, heq]
  have hmb := hm.bounds
  obtain ⟨w, hw, -⟩ := hm
  by_contra hge
  rcases Nat.eq_or_lt_of_le (Nat.not_lt.mp hge) with hstart | hbefore
  · have hmt : m = t := by
      cases m
      cases t
      simp only [Range.mk.injEq] at *
      omega
    exact hsplit p hp (hmt ▸ ht)
  · exact hw.2 _ hbefore v hv.1

theorem readsSnippet (hb : BodyAt recv b) (hchunked : isChunked recv)
    (hwire : recv.drop b = wire chunks) (hcr : 0x0d ∉ payload chunks) (hfield : IsPlain field)
    (quoted : Bool) : ReadsSnippet recv field b chunks quoted := by
  have hext := extractResponseBody_wire hb hchunked hwire
  have hspec : ∀ r, computeIdSnippetRange recv field quoted = some r ↔
      ∃ d raw, FirstSnippetAt (payload chunks) field quoted d ∧
        FirstSnippetAt (wire chunks) field quoted raw ∧
        slice (wire chunks) raw = slice (payload chunks) d ∧ r = raw.shift b := by
    intro r
    rw [computeIdSnippetRange_iff hb hext, hwire]
  constructor
  · intro hnone
    rw [Option.eq_none_iff_forall_ne_some]
    intro r hr
    obtain ⟨d, raw, hd, -⟩ := (hspec r).mp hr
    rw [findSnippet_eq_some.mpr hd] at hnone
    exact absurd hnone (by simp)
  · intro m hm p hp hholds
    have hm' := findSnippet_eq_some.mp hm
    exact (hspec _).mpr ⟨m, _, hm', hm'.image hfield hp hholds,
      Place.slice_image hp (Nat.le_of_lt hm'.bounds.1) hholds, rfl⟩
  · intro m hm hsplit r hr
    obtain ⟨d, raw, hd, hraw, heq, rfl⟩ := (hspec r).mp hr
    obtain rfl : d = m := by
      rw [← findSnippet_eq_some, hm] at hd
      exact (Option.some.inj hd).symm
    obtain ⟨p, hp, t, ht, rfl, hlt, hslice, hv⟩ := straddling_of_slice_eq hcr hd hraw heq hsplit
    exact ⟨p, hp, t, ht, rfl, hlt, hslice, hv⟩

theorem readsMember (hb : BodyAt recv b) (hchunked : isChunked recv)
    (hwire : recv.drop b = wire chunks) (hcr : 0x0d ∉ payload chunks) (hfield : IsPlain field) :
    ReadsMember recv field b chunks := by
  have hext := extractResponseBody_wire hb hchunked hwire
  have hspec : ∀ r, JsonMember.inResponse recv field = some r ↔
      ∃ d raw, JsonMember.inBody (payload chunks) field = some d ∧
        JsonMember.inBody (wire chunks) field = some raw ∧
        slice (wire chunks) raw.member = slice (payload chunks) d.member ∧ r = raw.shift b := by
    intro r
    rw [inResponse_iff hb hext, hwire]
    rfl
  constructor
  · intro hnone
    rw [Option.eq_none_iff_forall_ne_some]
    intro r hr
    obtain ⟨d, raw, hd, -⟩ := (hspec r).mp hr
    rw [hd] at hnone
    exact absurd hnone (by simp)
  · intro m hm p hp hholds
    have hfirst := inBody_firstSnippetAt hm
    have himage := findSnippet_eq_some.mpr (hfirst.image hfield hp hholds)
    obtain ⟨raw, hraw, hmember⟩ := Option.map_eq_some_iff.mp
      (show (JsonMember.inBody (wire chunks) field).map (·.member) = _ from himage)
    have heq := eq_imageMember hp (inBody_isMember hm) hholds hraw hmember
    refine (hspec _).mpr ⟨m, raw, hm, hraw, ?_, by rw [heq]⟩
    rw [hmember]
    exact Place.slice_image hp (Nat.le_of_lt hfirst.bounds.1) hholds
  · intro m hm hsplit r hr
    obtain ⟨d, raw, hd, hraw, heq, rfl⟩ := (hspec r).mp hr
    obtain rfl := Option.some.inj (hm.symm.trans hd)
    obtain ⟨p, hp, t, ht, hmember, hlt, hslice, v, hv⟩ := straddling_of_slice_eq hcr
      (inBody_firstSnippetAt hm) (inBody_firstSnippetAt hraw) heq hsplit
    obtain ⟨e, hstr, hstop⟩ := tailAt_true.mp hv.2
    obtain ⟨c, hc⟩ := exists_memberAt_iff.mpr ⟨hv.1, hstr⟩
    have htm : (memberOf t.start v e).member = t := by
      rw [memberOf, ← hstop]
    have hismem : IsMember (payload chunks) field (memberOf t.start v e) := ⟨_, c, v, e, hc, rfl⟩
    refine ⟨p, hp, memberOf t.start v e, by rwa [htm], ?_, by rwa [htm], by rwa [htm], hismem⟩
    rw [eq_imageMember hp hismem (by rwa [htm]) hraw (by rwa [htm])]

/-- On a plainly chunked response the code returns the image of the payload's first
member, or of a later copy of it when a chunk boundary splits the first. -/
theorem reads_plainly_chunked (hb : BodyAt recv b) (hchunked : isChunked recv)
    (hwire : recv.drop b = wire chunks) (hcr : 0x0d ∉ payload chunks) (hfield : IsPlain field) :
    ReadsMember recv field b chunks ∧ ∀ quoted, ReadsSnippet recv field b chunks quoted :=
  ⟨readsMember hb hchunked hwire hcr hfield, readsSnippet hb hchunked hwire hcr hfield⟩

end Chunked

theorem reads_plainly_chunked_run :
    ∃ chunks, wire chunks =
        ascii "13\r\n\x7b\"login\":\"octocat\",\r\n7\r\n\"id\":1\x7d\r\n0\r\n\r\n" ∧
      ReadsMember (chunkedHead ++ wire chunks) (ascii "login") 47 chunks ∧
      ∀ quoted, ReadsSnippet (chunkedHead ++ wire chunks) (ascii "login") 47 chunks quoted := by
  refine ⟨[
    ⟨ascii "13", [], ascii "\x7b\"login\":\"octocat\",", by decide, by decide, by decide, by simp⟩,
    ⟨ascii "7", [], ascii "\"id\":1\x7d", by decide, by decide, by decide, by simp⟩],
    by decide +kernel, ?_⟩
  exact reads_plainly_chunked (by decide +kernel) (by decide +kernel) (by decide +kernel)
    (by decide +kernel) (by decide +kernel)

end Libid.Transcript
