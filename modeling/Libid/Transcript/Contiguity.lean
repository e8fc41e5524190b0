import Libid.Transcript.Framing
import Libid.Transcript.Locality

/-! When a range found in a chunked body is data.  The raw scan runs over size
lines and trailers it does not know, and only its bytes are compared with the
decoded member, so a copy of the member that stands among the framing passes. -/

namespace Libid.Transcript

def InOneChunk (recv : Bytes) (b : Nat) (r : Range) : Prop :=
  ∃ rs, Framing (recv.drop b) rs ∧ ∃ d ∈ rs, b + d.start ≤ r.start ∧ r.stop ≤ b + d.stop

/-- The octet at `i` of a chunked body belongs to its framing, or comes after the last chunk. -/
def FramingAt (raw : Bytes) (i : Nat) : Prop := ∃ rs, Framing raw rs ∧ ¬ Covers rs i

theorem inOneChunk_iff {recv decoded : Bytes} {b : Nat} {r : Range}
    (hdec : decodeChunkedBody (recv.drop b) = .ok decoded) (hr : r.start < r.stop) :
    InOneChunk recv b (r.shift b) ↔ ∀ i ∈ r, ¬ FramingAt (recv.drop b) i := by
  obtain ⟨rs, hf, -⟩ := decodeChunkedBody_eq_ok.mp hdec
  have hinside := hf.inside_iff hr
  constructor
  · rintro ⟨ts, ht, d, hd, hstart, hstop⟩ i hi ⟨us, hu, hcov⟩
    obtain rfl := hf.unique ht
    obtain rfl := hf.unique hu
    refine hcov (hinside.mp ⟨d, hd, ?_, ?_⟩ i hi)
    · simpa using hstart
    · simpa using hstop
  · intro h
    obtain ⟨d, hd, hstart, hstop⟩ := hinside.mpr fun i hi => by
      by_contra hcov
      exact h i hi ⟨rs, hf, hcov⟩
    exact ⟨rs, hf, d, hd, by simpa using hstart, by simpa using hstop⟩

theorem InOneChunk.mono {recv : Bytes} {b : Nat} {r t : Range} (h : InOneChunk recv b r)
    (hstart : r.start ≤ t.start) (hstop : t.stop ≤ r.stop) : InOneChunk recv b t := by
  obtain ⟨rs, hf, d, hd, hle, hge⟩ := h
  exact ⟨rs, hf, d, hd, Nat.le_trans hle hstart, Nat.le_trans hstop hge⟩

theorem extractResponseBody_chunked {recv decoded : Bytes} {b : Nat} (hb : BodyAt recv b)
    (hchunked : isChunked recv) (hdec : decodeChunkedBody (recv.drop b) = .ok decoded) :
    extractResponseBody recv = .ok decoded := by
  simp [extractResponseBody, bodyAt_iff.mp hb, hchunked, slice_body, hdec]

theorem FirstSnippetAt.of_slice_eq {x y field : Bytes} {quoted : Bool} {d : Range} {n : Nat}
    (hd : FirstSnippetAt x field quoted d) (hy : Occurs (slice x d) y n)
    (hfirst : ∀ s < n, ∀ v, ¬ ValueAt y field quoted s v) :
    FirstSnippetAt y field quoted ⟨n, n + (d.stop - d.start)⟩ := by
  have hlen := length_slice x d hd.bounds.2
  obtain ⟨v, hv, htail⟩ := hd
  have hsnip : SnippetAt x field quoted d.start v d.stop := ⟨hv.1, htail⟩
  have hat := hsnip.transport (y := y) n fun i hi => by
    rw [occurs_iff_getElem?.mp hy i (by omega), getElem?_slice, if_pos hi]
  exact ⟨_, ⟨hat.1, hfirst⟩, hat.2⟩

theorem FirstSnippetAt.length_eq {x y field : Bytes} {quoted : Bool} {r d : Range}
    (hr : FirstSnippetAt x field quoted r) (hd : FirstSnippetAt y field quoted d)
    (heq : slice x r = slice y d) : r.stop - r.start = d.stop - d.start := by
  rw [← length_slice x r hr.bounds.2, ← length_slice y d hd.bounds.2, heq]

theorem inBody_firstSnippetAt {body field : Bytes} {m : JsonMember}
    (h : JsonMember.inBody body field = some m) : FirstSnippetAt body field true m.member :=
  findSnippet_eq_some.mp (by simp [findSnippet, findJsonSnippetRange, h])

theorem inBody_value {body field : Bytes} {m : JsonMember}
    (h : JsonMember.inBody body field = some m) :
    m.member.start < m.value.start ∧ m.value.stop + 1 = m.member.stop := by
  obtain ⟨s, q, e, hfirst, -, rfl⟩ := inBody_eq_some.mp h
  have := hfirst.1.lt
  exact ⟨by simp only [memberOf]; omega, rfl⟩

theorem inBody_value_eq {x y field : Bytes} {m n : JsonMember}
    (hm : JsonMember.inBody x field = some m) (hn : JsonMember.inBody y field = some n)
    (heq : slice x m.member = slice y n.member) : slice x m.value = slice y n.value := by
  have hfm := inBody_firstSnippetAt hm
  have hfn := inBody_firstSnippetAt hn
  have hlen := hfm.length_eq hfn heq
  obtain ⟨s, q, e, hq, hstr, rfl⟩ := inBody_eq_some.mp hm
  obtain ⟨t, p, k, hp, hstr', rfl⟩ := inBody_eq_some.mp hn
  have hsnip : SnippetAt x field true s q (e + 1) := ⟨hq.1, tailAt_true.mpr ⟨e, hstr, rfl⟩⟩
  have hval := (hsnip.transport (y := y) t fun i hi => getElem?_eq_of_slice_eq heq hlen hi).1.unique
    hp.1
  have hlt := hq.1.lt
  have hqe := hstr.lt
  have hpk := hstr'.lt
  simp only [memberOf] at heq hlen ⊢
  have hx := slice_slice x (r := ⟨s, e + 1⟩) (t := ⟨q + 1 - s, e - s⟩) (by simp only; omega)
  have hy := slice_slice y (r := ⟨t, k + 1⟩) (t := ⟨q + 1 - s, e - s⟩) (by simp only; omega)
  simp only at hx hy
  rw [show s + (q + 1 - s) = q + 1 by omega, show s + (e - s) = e by omega] at hx
  rw [show t + (q + 1 - s) = p + 1 by omega, show t + (e - s) = k by omega] at hy
  rw [← hx, ← hy, heq]

def chunkedHead : Bytes := ascii "HTTP/1.1 200 OK\r\nTransfer-Encoding: chunked\r\n\r\n"

/-- Every range the code returns for `field` lies in one chunk's data and holds
the bytes of the decoded body's first member. -/
structure ReadsData (recv field : Bytes) (b : Nat) (decoded : Bytes) : Prop where
  member : ∀ m, JsonMember.inResponse recv field = some m →
    InOneChunk recv b m.member ∧ InOneChunk recv b m.value ∧
      ∃ d, JsonMember.inBody decoded field = some d ∧
        slice recv m.member = slice decoded d.member ∧ slice recv m.value = slice decoded d.value
  fieldSnippet : ∀ r, computeFieldSnippetRange recv field = some r →
    InOneChunk recv b r ∧
      ∃ d, findJsonSnippetRange decoded field = some d ∧ slice recv r = slice decoded d
  idSnippet : ∀ quoted r, computeIdSnippetRange recv field quoted = some r →
    InOneChunk recv b r ∧
      ∃ d, findSnippet decoded field quoted = some d ∧ slice recv r = slice decoded d

/-- The text of the decoded body's first member stands in the raw body with an
octet of framing in it, and no earlier candidate hides it. -/
def Decoy (raw decoded field : Bytes) (quoted : Bool) : Prop :=
  ∃ d n, FirstSnippetAt decoded field quoted d ∧ Occurs (slice decoded d) raw n ∧
    (∀ s < n, ∀ v, ¬ ValueAt raw field quoted s v) ∧
    ∃ i, n ≤ i ∧ i < n + (d.stop - d.start) ∧ FramingAt raw i

theorem computeIdSnippetRange_readsData_iff {recv decoded field : Bytes} {b : Nat} {quoted : Bool}
    (hb : BodyAt recv b) (hchunked : isChunked recv)
    (hdec : decodeChunkedBody (recv.drop b) = .ok decoded) :
    (∀ r, computeIdSnippetRange recv field quoted = some r → InOneChunk recv b r ∧
      ∃ d, findSnippet decoded field quoted = some d ∧ slice recv r = slice decoded d) ↔
      ¬ Decoy (recv.drop b) decoded field quoted := by
  have hext := extractResponseBody_chunked hb hchunked hdec
  constructor
  · rintro hreads ⟨d, n, hd, hocc, hfirst, i, hi, hlt, hframing⟩
    have hraw := hd.of_slice_eq hocc hfirst
    have hslice : slice (recv.drop b) ⟨n, n + (d.stop - d.start)⟩ = slice decoded d := by
      rw [← length_slice decoded d hd.bounds.2]
      exact occurs_iff_slice_eq.mp hocc
    obtain ⟨hin, -⟩ := hreads _ ((computeIdSnippetRange_iff hb hext).mpr
      ⟨d, _, hd, hraw, hslice, rfl⟩)
    exact (inOneChunk_iff hdec hraw.bounds.1).mp hin i ⟨hi, hlt⟩ hframing
  · intro hdecoy r hr
    obtain ⟨d, raw, hd, hraw, hslice, rfl⟩ := (computeIdSnippetRange_iff hb hext).mp hr
    refine ⟨(inOneChunk_iff hdec hraw.bounds.1).mpr fun i hi hframing => hdecoy ?_, d,
      findSnippet_eq_some.mpr hd, ?_⟩
    · have hlen := hraw.length_eq hd hslice
      have hbounds := hraw.bounds
      refine ⟨d, raw.start, hd, ?_, hraw.choose_spec.1.2, i, hi.1, ?_, hframing⟩
      · rw [occurs_iff_slice_eq, length_slice decoded d hd.bounds.2, ← hlen,
          Nat.add_sub_cancel' (Nat.le_of_lt hbounds.1)]
        exact hslice
      · have := hi.2
        omega
    · rw [← hslice, slice_drop]
      rfl

/-- On a chunked response the code accepts, its ranges read data exactly when no
copy of the member stands among the framing. -/
theorem readsData_iff {recv decoded field : Bytes} {b : Nat} (hb : BodyAt recv b)
    (hchunked : isChunked recv) (hdec : decodeChunkedBody (recv.drop b) = .ok decoded) :
    ReadsData recv field b decoded ↔ ∀ quoted, ¬ Decoy (recv.drop b) decoded field quoted := by
  have hiff : ∀ quoted, (∀ r, computeIdSnippetRange recv field quoted = some r →
      InOneChunk recv b r ∧
        ∃ d, findSnippet decoded field quoted = some d ∧ slice recv r = slice decoded d) ↔
      ¬ Decoy (recv.drop b) decoded field quoted := fun _ =>
    computeIdSnippetRange_readsData_iff hb hchunked hdec
  constructor
  · intro h quoted
    exact (hiff quoted).mp fun r hr => h.idSnippet quoted r hr
  · intro h
    have hid : ∀ quoted r, _ := fun quoted => (hiff quoted).mpr (h quoted)
    have hfield : ∀ r, computeFieldSnippetRange recv field = some r → InOneChunk recv b r ∧
        ∃ d, findJsonSnippetRange decoded field = some d ∧ slice recv r = slice decoded d :=
      fun r hr => hid true r hr
    refine ⟨fun m hm => ?_, hfield, hid⟩
    obtain ⟨hin, -⟩ := hfield m.member (by simp [computeFieldSnippetRange, hm])
    obtain ⟨d, raw, hd, hraw, hslice, rfl⟩ :=
      (inResponse_iff hb (extractResponseBody_chunked hb hchunked hdec)).mp hm
    have hval := inBody_value hraw
    refine ⟨hin, hin.mono ?_ ?_, d, hd, ?_, ?_⟩
    · simp only [Range.shift_start]
      omega
    · simp only [Range.shift_stop]
      omega
    · rw [← hslice, slice_drop]
      rfl
    · rw [← inBody_value_eq hraw hd hslice, slice_drop]
      rfl

theorem readsData_iff_run :
    ReadsData (chunkedHead ++ ascii "11\r\n\x7b\"login\":\"alice\"\x7d\r\n0\r\n\r\n")
        (ascii "login") 47 (ascii "\x7b\"login\":\"alice\"\x7d") ↔
      ∀ quoted, ¬ Decoy (ascii "11\r\n\x7b\"login\":\"alice\"\x7d\r\n0\r\n\r\n")
        (ascii "\x7b\"login\":\"alice\"\x7d") (ascii "login") quoted :=
  readsData_iff (by decide +kernel) (by decide +kernel) (by decide +kernel)

def copiedInExtension : Bytes :=
  chunkedHead ++ ascii "10;\"login\":\"alice\"\r\n\x7b\"login\":\"alice\"\r\n0\r\n\r\n"

theorem computeFieldSnippetRange_in_extension :
    BodyAt copiedInExtension 47 ∧ isChunked copiedInExtension ∧
      decodeChunkedBody (copiedInExtension.drop 47) = .ok (ascii "\x7b\"login\":\"alice\"") ∧
      computeFieldSnippetRange copiedInExtension (ascii "login") = some ⟨50, 65⟩ ∧
      slice copiedInExtension ⟨47, 50⟩ = ascii "10;" ∧
      ¬ InOneChunk copiedInExtension 47 ⟨50, 65⟩ := by
  refine ⟨by decide +kernel, by decide +kernel, by decide +kernel, by decide +kernel,
    by decide +kernel, ?_⟩
  have hf : Framing (copiedInExtension.drop 47) [⟨20, 36⟩] :=
    .chunk (h := 20) (n := 16)  (by decide +kernel) (by decide) (by decide +kernel)
      (.last (h := 3) (by decide +kernel))
  rintro ⟨rs, hrs, d, hd, hstart, -⟩
  obtain rfl := hrs.unique hf
  obtain rfl : d = ⟨20, 36⟩ := by simpa using hd
  simp at hstart

end Libid.Transcript
