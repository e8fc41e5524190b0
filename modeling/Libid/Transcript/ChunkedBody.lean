import Libid.Transcript.SizeLine

namespace Libid.Transcript

namespace SizeLine

theorem takeWhile_after_digits (l : SizeLine) (t : Bytes) :
    (l.blanks ++ (l.extension ++ (crlf ++ t))).takeWhile (fun b => (hexDigit b).isSome) = [] := by
  cases hb : l.blanks with
  | cons b blanks =>
    rcases l.blank b (by simp [hb]) with rfl | rfl
    · rfl
    · rfl
  | nil =>
    cases he : l.extension with
    | cons b ext =>
      obtain rfl := l.ext.semicolon b (by simp [he])
      rfl
    | nil => rfl

theorem takeWhile_bytes (l : SizeLine) (t : Bytes) :
    (l.bytes ++ t).takeWhile (fun b => (hexDigit b).isSome) = l.digits := by
  rw [bytes, List.append_assoc, List.append_assoc, List.append_assoc,
    List.takeWhile_append_of_pos (isSome_of_hexValueFrom l.value), takeWhile_after_digits,
    List.append_nil]

theorem eq_of_append_eq {l l' : SizeLine} {t t' : Bytes} (h : l.bytes ++ t = l'.bytes ++ t') :
    l.bytes = l'.bytes ∧ t = t' ∧ l.size = l'.size ∧ l.digits = l'.digits := by
  have hp := parseChunkSize_bytes l t
  rw [h, parseChunkSize_bytes] at hp
  obtain ⟨hlen, hsize⟩ : l'.bytes.length = l.bytes.length ∧ l'.size = l.size := by
    simpa using hp
  obtain ⟨hbytes, ht⟩ := List.append_inj h hlen.symm
  refine ⟨hbytes, ht, hsize.symm, ?_⟩
  rw [← l.takeWhile_bytes t, h, l'.takeWhile_bytes]

theorem digits_ne {l : SizeLine} (h : 0 < l.size) : l.digits ≠ [] := by
  intro hd
  have hv := l.value
  rw [hd] at hv
  have : 0 = l.size := by simpa [hexValue, hexValueFrom] using hv
  omega

end SizeLine

structure DataChunk where
  line : SizeLine
  data : Bytes
  data_ne : data ≠ []
  size : line.size = data.length

namespace DataChunk

def encode (c : DataChunk) : Bytes := c.line.bytes ++ (c.data ++ crlf)

theorem size_pos (c : DataChunk) : 0 < c.line.size :=
  c.size ▸ List.length_pos_of_ne_nil c.data_ne

theorem length_encode (c : DataChunk) :
    c.encode.length = c.line.bytes.length + c.line.size + 2 := by
  simp [encode, crlf, c.size, Nat.add_assoc]

end DataChunk

def bodyHead (chunks : List DataChunk) (last : SizeLine) : Bytes :=
  chunks.flatMap DataChunk.encode ++ last.bytes

@[simp] theorem bodyHead_nil (last : SizeLine) : bodyHead [] last = last.bytes := rfl

@[simp] theorem bodyHead_cons (c : DataChunk) (chunks : List DataChunk) (last : SizeLine) :
    bodyHead (c :: chunks) last = c.encode ++ bodyHead chunks last := by
  simp [bodyHead]

theorem decodeChunkedBodyFrom_bodyHead (out : Bytes) (chunks : List DataChunk) {last : SizeLine}
    (hlast : last.size = 0) (tail : Bytes) :
    decodeChunkedBodyFrom out (bodyHead chunks last ++ tail) =
      .ok (out ++ chunks.flatMap DataChunk.data) := by
  induction chunks generalizing out with
  | nil =>
    rw [decodeChunkedBodyFrom]
    simp [parseChunkSize_bytes, hlast]
  | cons c chunks ih =>
    have hraw : bodyHead (c :: chunks) last ++ tail =
        c.line.bytes ++ (c.data ++ (crlf ++ (bodyHead chunks last ++ tail))) := by
      simp [DataChunk.encode]
    have hcrlf : Occurs crlf (bodyHead (c :: chunks) last ++ tail)
        (c.line.bytes.length + c.line.size) := by
      rw [Occurs, hraw, c.size, ← List.drop_drop, List.drop_left, List.drop_left]
      exact List.prefix_append ..
    have hdata : slice (bodyHead (c :: chunks) last ++ tail)
        ⟨c.line.bytes.length, c.line.bytes.length + c.line.size⟩ = c.data := by
      rw [c.size, ← occurs_iff_slice_eq, Occurs, hraw, List.drop_left]
      exact List.prefix_append ..
    have hrest : (bodyHead (c :: chunks) last ++ tail).drop
        (c.line.bytes.length + c.line.size + 2) = bodyHead chunks last ++ tail := by
      rw [bodyHead_cons, List.append_assoc, ← c.length_encode, List.drop_left]
    rw [decodeChunkedBodyFrom_chunk (by rw [hraw, parseChunkSize_bytes]) c.size_pos hcrlf, hdata,
      hrest, ih, List.flatMap_cons, List.append_assoc]

theorem exists_bodyHead {raw : Bytes} {rs : List Range} (hf : Framing raw rs) :
    ∃ chunks last tail, last.size = 0 ∧ raw = bodyHead chunks last ++ tail := by
  induction hf with
  | last hp =>
    obtain ⟨l, hsize, -, t, rfl⟩ := exists_sizeLine hp
    exact ⟨[], l, t, hsize, rfl⟩
  | @chunk raw h n rs hp hn hcrlf _ ih =>
    obtain ⟨chunks, last, tail, hlast, hrest⟩ := ih
    obtain ⟨l, rfl, rfl, t, rfl⟩ := exists_sizeLine hp
    have hdrop : ∀ k, (l.bytes ++ t).drop (l.bytes.length + k) = t.drop k := fun k => by
      rw [← List.drop_drop, List.drop_left]
    rw [Occurs, hdrop] at hcrlf
    obtain ⟨u, hu⟩ := hcrlf
    have hlen : l.size ≤ t.length := by
      have := congrArg List.length hu
      rw [List.length_append, List.length_drop, crlf, List.length_cons] at this
      omega
    have htake : (t.take l.size).length = l.size := List.length_take_of_le hlen
    rw [Nat.add_assoc, hdrop, ← List.drop_drop, ← hu] at hrest
    refine ⟨⟨l, t.take l.size, List.ne_nil_of_length_pos (by omega), htake.symm⟩ :: chunks, last,
      tail, hlast, ?_⟩
    rw [bodyHead_cons, DataChunk.encode, List.append_assoc, List.append_assoc, List.append_assoc,
      ← hrest]
    exact congrArg (l.bytes ++ ·) ((List.take_append_drop l.size t).symm.trans
      (congrArg (t.take l.size ++ ·) hu.symm))

theorem decodeChunkedBody_eq_ok_iff {raw out : Bytes} :
    decodeChunkedBody raw = .ok out ↔ ∃ chunks last tail, last.size = 0 ∧
      raw = bodyHead chunks last ++ tail ∧ out = chunks.flatMap DataChunk.data := by
  constructor
  · intro h
    obtain ⟨rs, hf, -⟩ := decodeChunkedBody_eq_ok.mp h
    obtain ⟨chunks, last, tail, hlast, rfl⟩ := exists_bodyHead hf
    rw [decodeChunkedBody, decodeChunkedBodyFrom_bodyHead [] chunks hlast tail] at h
    exact ⟨chunks, last, tail, hlast, rfl, (Except.ok.inj h).symm⟩
  · rintro ⟨chunks, last, tail, hlast, rfl, rfl⟩
    exact decodeChunkedBodyFrom_bodyHead [] chunks hlast tail

theorem bodyHead_nil_ne {c : DataChunk} {chunks : List DataChunk} {last last' : SizeLine}
    {tail tail' : Bytes} (hlast : last.size = 0) :
    bodyHead [] last ++ tail ≠ bodyHead (c :: chunks) last' ++ tail' := by
  intro h
  rw [bodyHead_nil, bodyHead_cons, DataChunk.encode, List.append_assoc, List.append_assoc] at h
  have hpos := c.size_pos
  have hsize := (SizeLine.eq_of_append_eq h).2.2.1
  omega

theorem bodyHead_unique {chunks chunks' : List DataChunk} {last last' : SizeLine}
    {tail tail' : Bytes} (hlast : last.size = 0) (hlast' : last'.size = 0)
    (h : bodyHead chunks last ++ tail = bodyHead chunks' last' ++ tail') :
    bodyHead chunks last = bodyHead chunks' last' ∧ last.digits = last'.digits := by
  induction chunks generalizing chunks' with
  | nil =>
    cases chunks' with
    | nil =>
      obtain ⟨hbytes, -, -, hdigits⟩ := SizeLine.eq_of_append_eq h
      exact ⟨hbytes, hdigits⟩
    | cons c chunks' =>
      exact absurd h (bodyHead_nil_ne hlast)
  | cons c chunks ih =>
    cases chunks' with
    | nil =>
      exact absurd h.symm (bodyHead_nil_ne hlast')
    | cons d chunks' =>
      have hlen : c.encode.length = d.encode.length := by
        simp only [bodyHead_cons, DataChunk.encode, List.append_assoc] at h
        obtain ⟨hline, -, hsize, -⟩ := SizeLine.eq_of_append_eq h
        rw [c.length_encode, d.length_encode, hline, hsize]
      rw [bodyHead_cons, bodyHead_cons, List.append_assoc, List.append_assoc] at h
      obtain ⟨hencode, hrest⟩ := List.append_inj h hlen
      obtain ⟨hhead, hdigits⟩ := ih hrest
      exact ⟨by rw [bodyHead_cons, bodyHead_cons, hencode, hhead], hdigits⟩

def isizeMax : Nat := 2 ^ 63 - 1

/-- `a + b` on `usize`; `none` where `checked_add` is `None` and where `+` panics. -/
def usizeAdd (a b : Nat) : Option Nat := if a + b ≤ usizeMax then some (a + b) else none

theorem usizeAdd_eq_some {a b c : Nat} :
    usizeAdd a b = some c ↔ a + b ≤ usizeMax ∧ a + b = c := by
  simp [usizeAdd]

/-- The loop of `decode_chunked_body` with every operation that can fail; `none` is a
panic. -/
def decodeChunkedBodyChecked (out rest : Bytes) : Option (Except Error Bytes) :=
  match parseChunkSize rest with
  | .error _ => some (.error (badChunk "chunk size is not hexadecimal"))
  | .ok .Partial => some (.error (badChunk "ends inside a chunk header"))
  | .ok (.Complete (headerLen, size)) =>
    if size = 0 then some (.ok out)
    else if size > usizeMax then some (.error (badChunk "chunk larger than this machine"))
    else
      match usizeAdd headerLen size with
      | none => some (.error (badChunk "chunk length overflows"))
      | some bodyEnd =>
        match getRange rest ⟨headerLen, bodyEnd⟩ with
        | none => some (.error (badChunk "chunk is shorter than its declared size"))
        | some chunk =>
          match _hnext : usizeAdd bodyEnd 2 with
          | none => none
          | some next =>
            match getRange rest ⟨bodyEnd, next⟩ with
            | none => some (.error (badChunk "ends before a chunk terminator"))
            | some after =>
              if after ≠ crlf then some (.error (badChunk "chunk is not terminated by CRLF"))
              else
                match _hrest : getFrom rest next with
                | none => none
                | some rest => decodeChunkedBodyChecked (out ++ chunk) rest
termination_by rest.length
decreasing_by
  obtain ⟨hle, rfl⟩ := getFrom_eq_some.mp _hrest
  have hpos := (usizeAdd_eq_some.mp _hnext).2
  rw [List.length_drop]
  omega

theorem usizeAdd_of_le {a b : Nat} (h : a + b ≤ isizeMax + 2) : usizeAdd a b = some (a + b) :=
  if_pos (h.trans (by decide))

theorem decodeChunkedBodyChecked_chunk {out rest chunk : Bytes} {headerLen size : Nat}
    (hlen : rest.length ≤ isizeMax)
    (hp : parseChunkSize rest = .ok (.Complete (headerLen, size))) (hzero : size ≠ 0)
    (hmax : ¬ size > usizeMax)
    (hchunk : getRange rest ⟨headerLen, headerLen + size⟩ = some chunk) :
    decodeChunkedBodyChecked out rest =
      match getRange rest ⟨headerLen + size, headerLen + size + 2⟩ with
      | none => some (.error (badChunk "ends before a chunk terminator"))
      | some after =>
        if after ≠ crlf then some (.error (badChunk "chunk is not terminated by CRLF"))
        else
          match getFrom rest (headerLen + size + 2) with
          | none => none
          | some rest => decodeChunkedBodyChecked (out ++ chunk) rest := by
  have hle : headerLen + size ≤ rest.length := (getRange_eq_some.mp hchunk).2.1
  have hadd : usizeAdd headerLen size = some (headerLen + size) := usizeAdd_of_le (by omega)
  have hnext : usizeAdd (headerLen + size) 2 = some (headerLen + size + 2) :=
    usizeAdd_of_le (by omega)
  rw [decodeChunkedBodyChecked, hp]
  simp only [if_neg hzero, if_neg hmax, hadd, hchunk]
  split
  case h_1 h => simp [hnext] at h
  case h_2 next h =>
    obtain rfl := Option.some.inj (h.symm.trans hnext)
    cases getRange rest ⟨headerLen + size, headerLen + size + 2⟩ with
    | none => rfl
    | some after => cases getFrom rest (headerLen + size + 2) <;> rfl

theorem decodeChunkedBodyChecked_eq {out rest : Bytes} (hlen : rest.length ≤ isizeMax) :
    decodeChunkedBodyChecked out rest = some (decodeChunkedBodyFrom out rest) := by
  fun_induction decodeChunkedBodyFrom out rest with
  | case1 out rest e hp => rw [decodeChunkedBodyChecked, hp]
  | case2 out rest hp => rw [decodeChunkedBodyChecked, hp]
  | case3 out rest headerLen hp => rw [decodeChunkedBodyChecked, hp]; rfl
  | case4 out rest headerLen size hp hzero hmax =>
    rw [decodeChunkedBodyChecked, hp]
    simp only [if_neg hzero, if_pos hmax]
  | case5 out rest headerLen size hp hzero hmax bodyEnd hnone hover =>
    have hadd : usizeAdd headerLen size = none := if_neg (Nat.not_le.mpr hover)
    rw [decodeChunkedBodyChecked, hp]
    simp only [if_neg hzero, if_neg hmax, hadd]
  | case6 out rest headerLen size hp hzero hmax bodyEnd hnone hover =>
    have hadd : usizeAdd headerLen size = some bodyEnd := if_pos (Nat.not_lt.mp hover)
    rw [decodeChunkedBodyChecked, hp]
    simp only [if_neg hzero, if_neg hmax, hadd, hnone]
  | case7 out rest headerLen size hp hzero hmax bodyEnd chunk hchunk hafter =>
    rw [decodeChunkedBodyChecked_chunk hlen hp hzero hmax hchunk, hafter]
  | case8 out rest headerLen size hp hzero hmax bodyEnd chunk hchunk after hafter hne =>
    rw [decodeChunkedBodyChecked_chunk hlen hp hzero hmax hchunk, hafter]
    exact if_pos hne
  | case9 out rest headerLen size hp hzero hmax bodyEnd chunk hchunk after hafter hcrlf ih =>
    have hle : bodyEnd + 2 ≤ rest.length := (getRange_eq_some.mp hafter).2.1
    rw [decodeChunkedBodyChecked_chunk hlen hp hzero hmax hchunk, hafter]
    simp only [if_neg hcrlf]
    rw [getFrom_eq_some.mpr ⟨hle, rfl⟩]
    exact ih (by rw [List.length_drop]; omega)

theorem error_of_isPrefix {chunks : List DataChunk} {last : SizeLine} (hlast : last.size = 0)
    {p : Bytes} (hp : p <+: bodyHead chunks last) (hne : p ≠ bodyHead chunks last) :
    ∃ e, decodeChunkedBody p = .error e := by
  cases h : decodeChunkedBody p with
  | error e => exact ⟨e, rfl⟩
  | ok out =>
    obtain ⟨chunks', last', tail', hlast', rfl, -⟩ := decodeChunkedBody_eq_ok_iff.mp h
    obtain ⟨t, ht⟩ := hp
    have heq : bodyHead chunks' last' ++ (tail' ++ t) = bodyHead chunks last ++ [] := by
      rw [← List.append_assoc, ht, List.append_nil]
    have hhead := (bodyHead_unique hlast' hlast heq).1
    have hlen := congrArg List.length ht
    rw [List.length_append, List.length_append, hhead] at hlen
    obtain rfl : tail' = [] := List.length_eq_zero_iff.mp (by omega)
    exact absurd (by rw [hhead, List.append_nil]) hne

/-- Decoding undoes chunking, refuses every body that ends too early, and never panics. -/
theorem decodeChunkedBody_inverts_chunking :
    (∀ chunks last tail, last.size = 0 →
      decodeChunkedBody (bodyHead chunks last ++ tail) = .ok (chunks.flatMap DataChunk.data)) ∧
    (∀ chunks last p, last.size = 0 → p <+: bodyHead chunks last → p ≠ bodyHead chunks last →
      ∃ e, decodeChunkedBody p = .error e) ∧
    ∀ raw : Bytes, raw.length ≤ isizeMax →
      decodeChunkedBodyChecked [] raw = some (decodeChunkedBody raw) :=
  ⟨fun chunks _ tail hlast => decodeChunkedBodyFrom_bodyHead [] chunks hlast tail,
    fun _ _ _ hlast hp hne => error_of_isPrefix hlast hp hne,
    fun _ hlen => decodeChunkedBodyChecked_eq hlen⟩

theorem decodeChunkedBody_inverts_chunking_run :
    decodeChunkedBody (ascii "0a;x=1\r\nhello\r\n000\r\n00\r\ntail") = .ok (ascii "hello\r\n000") ∧
      ∃ e, decodeChunkedBody (ascii "0a;x=1\r\nhello\r\n000\r\n00\r") = .error e := by
  constructor
  · exact decodeChunkedBody_inverts_chunking.1
      [⟨⟨ascii "0a", [], ascii ";x=1", 10, rfl, by decide, by simp,
        isExtension_cons.mpr ⟨rfl, by decide⟩⟩, ascii "hello\r\n000", by decide, by decide⟩]
      ⟨ascii "00", [], [], 0, rfl, by decide, by simp, .nil⟩ (ascii "tail") rfl
  · exact decodeChunkedBody_inverts_chunking.2.1
      [⟨⟨ascii "0a", [], ascii ";x=1", 10, rfl, by decide, by simp,
        isExtension_cons.mpr ⟨rfl, by decide⟩⟩, ascii "hello\r\n000", by decide, by decide⟩]
      ⟨ascii "00", [], [], 0, rfl, by decide, by simp, .nil⟩ _ rfl ⟨[0x0a], rfl⟩ (by decide)

/-- `raw` begins with chunks and a last size line, each with a digit, and `out` is the
chunks' data. -/
def WellChunked (raw out : Bytes) : Prop :=
  ∃ (chunks : List DataChunk) (last : SizeLine) (tail : Bytes),
    (∀ c ∈ chunks, c.line.digits ≠ [] ∧ 0 < c.line.size) ∧ last.digits ≠ [] ∧ last.size = 0 ∧
      raw = bodyHead chunks last ++ tail ∧ out = chunks.flatMap DataChunk.data

def HasBareLine (raw : Bytes) : Prop :=
  ∃ (chunks : List DataChunk) (line : SizeLine) (tail : Bytes),
    line.digits = [] ∧ raw = bodyHead chunks line ++ tail

theorem SizeLine.size_eq_zero {l : SizeLine} (h : l.digits = []) : l.size = 0 := by
  by_contra hne
  exact digits_ne (Nat.pos_of_ne_zero hne) h

theorem HasBareLine.not_wellChunked {raw out : Bytes} (h : HasBareLine raw) :
    ¬ WellChunked raw out := by
  obtain ⟨chunks, line, tail, hbare, rfl⟩ := h
  rintro ⟨chunks', last, tail', -, hdigits, hlast, hraw, -⟩
  exact hdigits ((bodyHead_unique (SizeLine.size_eq_zero hbare) hlast hraw).2.symm.trans hbare)

/-- The decoder accepts only well-chunked bodies unless a size line has no digit: such a
line ends the body wherever it stands. -/
theorem decodeChunkedBody_wellChunked_iff (raw : Bytes) :
    (∀ out, decodeChunkedBody raw = .ok out → WellChunked raw out) ↔ ¬ HasBareLine raw := by
  constructor
  · intro h hbare
    obtain ⟨chunks, line, tail, hdigits, hraw⟩ := id hbare
    have hok := decodeChunkedBody_eq_ok_iff.mpr
      ⟨chunks, line, tail, SizeLine.size_eq_zero hdigits, hraw, rfl⟩
    exact hbare.not_wellChunked (h _ hok)
  · intro hbare out hok
    obtain ⟨chunks, last, tail, hlast, hraw, hout⟩ := decodeChunkedBody_eq_ok_iff.mp hok
    refine ⟨chunks, last, tail, fun c _ => ⟨SizeLine.digits_ne c.size_pos, c.size_pos⟩, ?_,
      hlast, hraw, hout⟩
    intro hdigits
    exact hbare ⟨chunks, last, tail, hdigits, hraw⟩

/-- An empty line between two chunks, and the second is lost. -/
theorem decodeChunkedBody_bare_line :
    ∃ raw out, raw = ascii "5\r\nhello\r\n\r\n5\r\nworld\r\n0\r\n\r\n" ∧
      decodeChunkedBody raw = .ok out ∧ out = ascii "hello" ∧ ¬ WellChunked raw out := by
  refine ⟨_, _, rfl, by decide +kernel, rfl, HasBareLine.not_wellChunked
    ⟨[⟨⟨[0x35], [], [], 5, rfl, by decide, by simp, .nil⟩, ascii "hello", by decide, rfl⟩],
      ⟨[], [], [], 0, rfl, by decide, by simp, .nil⟩,
      ascii "5\r\nworld\r\n0\r\n\r\n", rfl, by decide⟩⟩

end Libid.Transcript
