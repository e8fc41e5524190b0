import Libid.Transcript.Chunked

/-! The shape of a chunked body: which of its octets are data.  `Framing` reads
the size lines one after another; the decoder accepts exactly the bodies it
derives, and joins exactly their data octets. -/

namespace Libid.Transcript

/-- `raw` is chunked, and `rs` are its chunks' data octets. -/
inductive Framing : Bytes → List Range → Prop
  | last {raw : Bytes} {h : Nat} : parseChunkSize raw = .ok (.Complete (h, 0)) → Framing raw []
  | chunk {raw : Bytes} {h n : Nat} {rs : List Range} :
      parseChunkSize raw = .ok (.Complete (h, n)) → 0 < n → Occurs crlf raw (h + n) →
      Framing (raw.drop (h + n + 2)) rs →
      Framing raw (⟨h, h + n⟩ :: rs.map (Range.shift (h + n + 2)))

def joined (raw : Bytes) (rs : List Range) : Bytes := rs.flatMap (slice raw)

theorem joined_shift (raw : Bytes) (n : Nat) (rs : List Range) :
    joined raw (rs.map (Range.shift n)) = joined (raw.drop n) rs := by
  induction rs with
  | nil => rfl
  | cons r rs ih =>
    simp only [joined, List.map_cons, List.flatMap_cons, slice_drop] at ih ⊢
    rw [ih]
    rfl

theorem getRange_crlf_iff {raw : Bytes} {i : Nat} :
    getRange raw ⟨i, i + 2⟩ = some crlf ↔ Occurs crlf raw i := by
  rw [getRange_eq_some, occurs_iff_slice_eq]
  constructor
  · rintro ⟨-, -, h⟩
    exact h
  · intro h
    have hle := (occurs_iff_slice_eq.mpr h).le_length (by decide)
    exact ⟨by simp, hle, h⟩

theorem decodeChunkedBodyFrom_chunk {out raw : Bytes} {h n : Nat}
    (hp : parseChunkSize raw = .ok (.Complete (h, n))) (hn : 0 < n)
    (hcrlf : Occurs crlf raw (h + n)) :
    decodeChunkedBodyFrom out raw =
      decodeChunkedBodyFrom (out ++ slice raw ⟨h, h + n⟩) (raw.drop (h + n + 2)) := by
  have hlen := hcrlf.le_length (by decide)
  have hmax := parseChunkSize_lt hp
  have hget : getRange raw ⟨h, h + n⟩ = some (slice raw ⟨h, h + n⟩) :=
    getRange_eq_some.mpr ⟨by simp, by simp only [crlf] at hlen; simp at hlen ⊢; omega, rfl⟩
  rw [decodeChunkedBodyFrom]
  simp only [hp, hget, if_neg (Nat.ne_of_gt hn), if_neg (Nat.not_lt.mpr hmax)]
  split
  · rename_i hnone
    rw [getRange_crlf_iff.mpr hcrlf] at hnone
    simp at hnone
  · rename_i after hafter
    rw [getRange_crlf_iff.mpr hcrlf] at hafter
    obtain rfl := Option.some.inj hafter
    simp

theorem decodeChunkedBodyFrom_eq_ok {out raw body : Bytes} :
    decodeChunkedBodyFrom out raw = .ok body ↔
      ∃ rs, Framing raw rs ∧ body = out ++ joined raw rs := by
  constructor
  · intro h
    fun_induction decodeChunkedBodyFrom out raw with
    | case1 | case2 | case4 | case5 | case6 | case7 | case8 => simp at h
    | case3 out raw headerLen hp =>
      refine ⟨[], .last hp, ?_⟩
      simpa [joined] using h.symm
    | case9 out raw headerLen size hp hzero hmax bodyEnd chunk hchunk after hafter hcrlf ih =>
      obtain ⟨rs, hf, rfl⟩ := ih h
      have hcrlf' : Occurs crlf raw (headerLen + size) := by
        rw [← getRange_crlf_iff, hafter, Decidable.not_not.mp hcrlf]
      refine ⟨_, .chunk hp (Nat.pos_of_ne_zero hzero) hcrlf' hf, ?_⟩
      rw [← (getRange_eq_some.mp hchunk).2.2]
      simp only [joined, List.flatMap_cons, List.append_assoc]
      rw [← joined, ← joined, joined_shift]
  · rintro ⟨rs, hf, rfl⟩
    induction hf generalizing out with
    | last hp =>
      rw [decodeChunkedBodyFrom]
      simp [hp, joined]
    | @chunk raw h n rs hp hn hcrlf hf ih =>
      rw [decodeChunkedBodyFrom_chunk hp hn hcrlf, ih]
      simp only [joined, List.flatMap_cons, List.append_assoc]
      rw [← joined, ← joined, joined_shift]

theorem decodeChunkedBody_eq_ok {raw body : Bytes} :
    decodeChunkedBody raw = .ok body ↔ ∃ rs, Framing raw rs ∧ body = joined raw rs := by
  simp [decodeChunkedBody, decodeChunkedBodyFrom_eq_ok]

theorem Framing.unique {raw : Bytes} {rs ts : List Range} (hr : Framing raw rs)
    (ht : Framing raw ts) : rs = ts := by
  induction hr generalizing ts with
  | last hp =>
    cases ht with
    | last => rfl
    | chunk hp' hn' =>
      rw [hp] at hp'
      simp at hp'
      omega
  | chunk hp hn _ _ ih =>
    cases ht with
    | last hp' =>
      rw [hp] at hp'
      simp at hp'
      omega
    | chunk hp' _ _ ht =>
      rw [hp] at hp'
      obtain ⟨rfl, rfl⟩ : _ = _ ∧ _ = _ := by simpa using hp'
      rw [ih ht]

theorem Framing.separated {raw : Bytes} {rs : List Range} (hf : Framing raw rs) :
    (∀ r ∈ rs, r.start < r.stop) ∧ rs.Pairwise fun a b => a.stop < b.start := by
  induction hf with
  | last => simp
  | @chunk raw h n rs hp hn _ _ ih =>
    constructor
    · intro r hr
      rcases List.mem_cons.mp hr with rfl | hr
      · simpa using hn
      · obtain ⟨t, ht, rfl⟩ := List.mem_map.mp hr
        have := ih.1 t ht
        simp only [Range.shift_start, Range.shift_stop]
        omega
    · refine List.pairwise_cons.mpr ⟨?_, ?_⟩
      · intro r hr
        obtain ⟨t, -, rfl⟩ := List.mem_map.mp hr
        simp only [Range.shift_start]
        omega
      · refine List.pairwise_map.mpr (ih.2.imp ?_)
        intro a b hab
        simp only [Range.shift_start, Range.shift_stop]
        omega

def Framing.toRangeSet {raw : Bytes} {rs : List Range} (hf : Framing raw rs) : RangeSet :=
  ⟨rs, hf.separated.1, hf.separated.2⟩

theorem Framing.inside_iff {raw : Bytes} {rs : List Range} (hf : Framing raw rs) {r : Range}
    (hr : r.start < r.stop) :
    (∃ d ∈ rs, d.start ≤ r.start ∧ r.stop ≤ d.stop) ↔ ∀ i ∈ r, Covers rs i :=
  hf.toRangeSet.inside_iff hr

end Libid.Transcript
