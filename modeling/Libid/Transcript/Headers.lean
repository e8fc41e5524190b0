import Libid.Transcript.ChunkedBody
import Libid.Transcript.Template

/-! Where the header search finds a header, on the bytes of a whole response: it knows
neither the line structure of a head nor where the head ends. -/

namespace Libid.Transcript

def lowercase (bs : Bytes) : Bytes := bs.map toAsciiLowercase

@[simp] theorem length_lowercase (bs : Bytes) : (lowercase bs).length = bs.length :=
  List.length_map ..

@[simp] theorem lowercase_append (x y : Bytes) :
    lowercase (x ++ y) = lowercase x ++ lowercase y := List.map_append

@[simp] theorem lowercase_drop (x : Bytes) (n : Nat) :
    lowercase (x.drop n) = (lowercase x).drop n := List.map_drop

def HeaderAt (name data : Bytes) (i : Nat) : Prop :=
  Occurs (lowercase (headerNeedle name)) (lowercase data) i

instance (name data : Bytes) (i : Nat) : Decidable (HeaderAt name data i) :=
  inferInstanceAs (Decidable (Occurs ..))

def FirstHeaderAt (name data : Bytes) (i : Nat) : Prop :=
  FirstAt (lowercase (headerNeedle name)) (lowercase data) i

theorem needle_ne_nil (name : Bytes) : lowercase (headerNeedle name) ≠ [] := by
  simp [headerNeedle, crlf, lowercase]

theorem eqIgnoreAsciiCase_slice_iff {needle data : Bytes} {i : Nat} :
    eqIgnoreAsciiCase (slice data ⟨i, i + needle.length⟩) needle = true ↔
      Occurs (lowercase needle) (lowercase data) i := by
  rw [eqIgnoreAsciiCase, beq_iff_eq, occurs_iff_slice_eq, length_lowercase]
  simp only [slice, lowercase, List.map_take, List.map_drop]

theorem windowsPosition_header {name data : Bytes} {i : Nat} :
    windowsPosition (headerNeedle name).length (eqIgnoreAsciiCase · (headerNeedle name)) data =
      some i ↔ FirstHeaderAt name data i := by
  simp only [windowsPosition_eq_some, eqIgnoreAsciiCase_slice_iff, FirstHeaderAt, FirstAt]
  apply and_iff_right_of_imp
  intro h
  have hle := h.1.le_length (needle_ne_nil name)
  rwa [length_lowercase, length_lowercase] at hle

theorem findHeaderRange_eq_some {data name : Bytes} {r : Range} :
    findHeaderRange data name = some r ↔
      ∃ i p, FirstHeaderAt name data i ∧
        FirstAt crlf (data.drop (i + (headerNeedle name).length)) p ∧
        r = ⟨i + (headerNeedle name).length, i + (headerNeedle name).length + p⟩ := by
  simp only [findHeaderRange, Option.bind_eq_bind, Option.bind_eq_some_iff,
    windowsPosition_header, getFrom_eq_some, Option.pure_def, Option.some.injEq]
  constructor
  · rintro ⟨i, hi, rest, ⟨hle, rfl⟩, p, hp, rfl⟩
    exact ⟨i, p, hi, (windowsPosition_beq_eq_some (by decide)).mp hp, rfl⟩
  · rintro ⟨i, p, hi, hp, rfl⟩
    have hle := hi.1.le_length (needle_ne_nil name)
    rw [length_lowercase, length_lowercase] at hle
    exact ⟨i, hi, _, ⟨hle, rfl⟩, p, (windowsPosition_beq_eq_some (by decide)).mpr hp, rfl⟩

theorem firstHeaderAt_add {name data : Bytes} {k i : Nat}
    (h : ∀ j < k, ¬ HeaderAt name data j) :
    FirstHeaderAt name data (k + i) ↔ FirstHeaderAt name (data.drop k) i := by
  rw [FirstHeaderAt, FirstHeaderAt, lowercase_drop]
  exact firstAt_add h

theorem findHeaderRange_skip {data name : Bytes} {k : Nat}
    (h : ∀ j < k, ¬ HeaderAt name data j) :
    findHeaderRange data name = (findHeaderRange (data.drop k) name).map (Range.shift k) := by
  apply Option.ext
  intro r
  simp only [Option.map_eq_some_iff, findHeaderRange_eq_some]
  constructor
  · rintro ⟨i, p, hi, hp, rfl⟩
    obtain ⟨m, rfl⟩ := Nat.exists_eq_add_of_le (hi.le h)
    refine ⟨_, ⟨m, p, ?_, ?_, rfl⟩, by simp [Range.shift, Nat.add_assoc]⟩
    · exact (firstHeaderAt_add h).mp hi
    · rwa [List.drop_drop, ← Nat.add_assoc]
  · rintro ⟨_, ⟨m, p, hm, hp, rfl⟩, rfl⟩
    refine ⟨k + m, p, (firstHeaderAt_add h).mpr hm, ?_,
      by simp [Range.shift, Nat.add_assoc]⟩
    rwa [List.drop_drop, ← Nat.add_assoc] at hp

theorem extractHeader_skip {data name : Bytes} {k : Nat}
    (h : ∀ j < k, ¬ HeaderAt name data j) :
    extractHeader data name = extractHeader (data.drop k) name := by
  rw [extractHeader, extractHeader, findHeaderRange_skip h, Option.map_map]
  refine congrArg (Option.map · _) (funext fun r => ?_)
  rw [Function.comp_apply, slice_drop]
  rfl

theorem toAsciiLowercase_eq_cr : ∀ {b : UInt8}, toAsciiLowercase b = 0x0d → b = 0x0d := by
  decide +kernel

theorem HeaderAt.getElem?_eq_cr {name data : Bytes} {i : Nat} (h : HeaderAt name data i) :
    data[i]? = some 0x0d := by
  have hcr : (lowercase (headerNeedle name))[0]? = some 0x0d := rfl
  have hi := Occurs.getElem? h hcr
  rw [Nat.add_zero, lowercase, List.getElem?_map, Option.map_eq_some_iff] at hi
  obtain ⟨b, hb, hlower⟩ := hi
  rw [hb, toAsciiLowercase_eq_cr hlower]

theorem HeaderAt.of_append {name x y : Bytes} {i : Nat} (h : HeaderAt name (x ++ y) i)
    (hlen : i + (headerNeedle name).length ≤ x.length) : HeaderAt name x i := by
  rw [HeaderAt, lowercase_append] at h
  exact Occurs.of_append h (by rwa [length_lowercase, length_lowercase])

/-- A field line: whatever blanks surround the value are part of it. -/
structure Field where
  name : Bytes
  value : Bytes
  name_colon : 0x3a ∉ name
  name_cr : 0x0d ∉ name
  value_cr : 0x0d ∉ value

def Field.line (f : Field) : Bytes := f.name ++ 0x3a :: f.value

theorem Field.line_cr (f : Field) : 0x0d ∉ f.line := by
  have hname := f.name_cr
  have hvalue := f.value_cr
  simp [line, hname, hvalue]

theorem Field.line_pos (f : Field) : 0 < f.line.length := by
  simp [line]

structure Head where
  status : Bytes
  fields : List Field
  status_cr : 0x0d ∉ status

def fieldLines (fields : List Field) : Bytes := fields.flatMap fun f => crlf ++ f.line

def Head.bytes (h : Head) : Bytes := h.status ++ (fieldLines h.fields ++ headBoundary)

def Field.Matches (name : Bytes) (f : Field) : Prop :=
  eqIgnoreAsciiCase f.name name = true ∧ f.value.head? = some 0x20

instance (name : Bytes) : DecidablePred (Field.Matches name) := fun _ => instDecidableAnd

theorem toAsciiLowercase_eq_colon : ∀ {b : UInt8}, toAsciiLowercase b = 0x3a → b = 0x3a := by
  decide +kernel

theorem toAsciiLowercase_eq_space : ∀ {b : UInt8}, toAsciiLowercase b = 0x20 ↔ b = 0x20 := by
  decide +kernel

theorem colon_notMem_lowercase {bs : Bytes} (h : 0x3a ∉ bs) : 0x3a ∉ lowercase bs := by
  intro hmem
  obtain ⟨b, hb, hlower⟩ := List.mem_map.mp hmem
  exact h (toAsciiLowercase_eq_colon hlower ▸ hb)

theorem head?_value_iff (f : Field) (rest : Bytes) :
    (lowercase (f.value ++ (crlf ++ rest))).head? = some 0x20 ↔ f.value.head? = some 0x20 := by
  cases f.value with
  | nil => simp [lowercase, crlf, toAsciiLowercase_eq_space]
  | cons b value => simp [lowercase, toAsciiLowercase_eq_space]

theorem append_cons_cancel {a : UInt8} {x y s t : Bytes} (hx : a ∉ x) (hy : a ∉ y)
    (h : x ++ a :: s = y ++ a :: t) : x = y ∧ s = t := by
  induction x generalizing y with
  | nil =>
    cases y with
    | nil => exact ⟨rfl, (List.cons.inj h).2⟩
    | cons b y => exact absurd ((List.cons.inj h).1 ▸ List.mem_cons_self) hy
  | cons c x ih =>
    rw [List.mem_cons, not_or] at hx
    cases y with
    | nil => exact absurd (List.cons.inj h).1.symm hx.1
    | cons b y =>
      obtain ⟨rfl, htail⟩ := List.cons.inj h
      obtain ⟨rfl, hst⟩ := ih hx.2 (fun hmem => hy (List.mem_cons_of_mem c hmem)) htail
      exact ⟨rfl, hst⟩

theorem headerAt_line {name : Bytes} (hname : 0x3a ∉ name) (f : Field) (rest : Bytes) :
    HeaderAt name (crlf ++ (f.line ++ (crlf ++ rest))) 0 ↔ f.Matches name := by
  have hneedle : lowercase (headerNeedle name) = crlf ++ (lowercase name ++ [0x3a, 0x20]) := by
    simp only [headerNeedle, lowercase_append, List.append_assoc]
    rfl
  have hline : lowercase (crlf ++ (f.line ++ (crlf ++ rest))) =
      crlf ++ (lowercase f.name ++ 0x3a :: lowercase (f.value ++ (crlf ++ rest))) := by
    rw [Field.line, List.append_assoc, List.cons_append, lowercase_append, lowercase_append]
    rfl
  rw [HeaderAt, Occurs, List.drop_zero, hneedle, hline, List.prefix_append_right_inj,
    Field.Matches, eqIgnoreAsciiCase, beq_iff_eq, ← head?_value_iff f rest]
  constructor
  · rintro ⟨t, ht⟩
    rw [List.append_assoc, List.cons_append] at ht
    obtain ⟨hlower, htail⟩ := append_cons_cancel (colon_notMem_lowercase f.name_colon)
      (colon_notMem_lowercase hname) ht.symm
    exact ⟨hlower, by rw [htail]; rfl⟩
  · rintro ⟨hlower, hhead⟩
    obtain ⟨t, ht⟩ := List.head?_eq_some_iff.mp hhead
    refine ⟨t, ?_⟩
    rw [ht, List.append_assoc]
    exact congrArg (· ++ 0x3a :: 0x20 :: t) hlower.symm

theorem firstAt_crlf {bs : Bytes} (h : 0x0d ∉ bs) (rest : Bytes) :
    FirstAt crlf (bs ++ (crlf ++ rest)) bs.length := by
  constructor
  · rw [Occurs, List.drop_left]
    exact List.prefix_append ..
  · intro j hj hocc
    have hcr : (bs ++ (crlf ++ rest))[j]? = some 0x0d := Occurs.getElem? (k := 0) hocc rfl
    rw [List.getElem?_append_left hj] at hcr
    exact h (List.mem_of_getElem? hcr)

theorem extractHeader_line {name : Bytes} (hname : 0x3a ∉ name) {f : Field}
    (hf : f.Matches name) (rest : Bytes) :
    extractHeader (crlf ++ (f.line ++ (crlf ++ rest))) name =
      some (fromUtf8Lossy (f.value.drop 1)) := by
  have hfirst : FirstHeaderAt name (crlf ++ (f.line ++ (crlf ++ rest))) 0 :=
    ⟨(headerAt_line hname f rest).mpr hf, by simp⟩
  have hlen : f.name.length = name.length := by
    have := congrArg List.length (beq_iff_eq.mp hf.1)
    rwa [List.length_map, List.length_map] at this
  obtain ⟨value, hvalue⟩ := List.head?_eq_some_iff.mp hf.2
  have hcr : 0x0d ∉ value := fun h => f.value_cr (by rw [hvalue]; exact List.mem_cons_of_mem _ h)
  have hdrop : (crlf ++ (f.line ++ (crlf ++ rest))).drop (0 + (headerNeedle name).length) =
      value ++ (crlf ++ rest) := by
    have hn : 0 + (headerNeedle name).length = (crlf ++ f.name ++ [0x3a, 0x20]).length := by
      simp [headerNeedle, hlen, ascii]
    have hsplit : crlf ++ ((f.name ++ 0x3a :: 0x20 :: value) ++ (crlf ++ rest)) =
        (crlf ++ f.name ++ [0x3a, 0x20]) ++ (value ++ (crlf ++ rest)) := by simp
    rw [hn, Field.line, hvalue, hsplit, List.drop_left]
  have hrange := findHeaderRange_eq_some.mpr
    ⟨0, value.length, hfirst, hdrop ▸ firstAt_crlf hcr rest, rfl⟩
  rw [extractHeader, hrange, Option.map_some, hvalue, slice, hdrop]
  simp

theorem extractHeader_line_skip {name : Bytes} (hname : 0x3a ∉ name) {f : Field}
    (hf : ¬ f.Matches name) (rest : Bytes) :
    extractHeader (crlf ++ (f.line ++ (crlf ++ rest))) name =
      extractHeader (crlf ++ rest) name := by
  have hnone : ∀ j < (crlf ++ f.line).length,
      ¬ HeaderAt name (crlf ++ (f.line ++ (crlf ++ rest))) j := by
    intro j hj hat
    have hcr := hat.getElem?_eq_cr
    match j with
    | 0 => exact hf ((headerAt_line hname f rest).mp hat)
    | 1 => simp [crlf] at hcr
    | j + 2 =>
      have hlt : j < f.line.length := by simpa [crlf] using hj
      have hmem : (f.line ++ (crlf ++ rest))[j]? = some 0x0d := hcr
      rw [List.getElem?_append_left hlt] at hmem
      exact f.line_cr (List.mem_of_getElem? hmem)
  rw [extractHeader_skip hnone, ← List.append_assoc, List.drop_left]

theorem fieldLines_append_crlf (fields : List Field) (rest : Bytes) :
    ∃ t, fieldLines fields ++ (crlf ++ rest) = crlf ++ t := by
  cases fields with
  | nil => exact ⟨rest, rfl⟩
  | cons f fields => exact ⟨_, by rw [fieldLines, List.flatMap_cons, List.append_assoc,
      List.append_assoc]⟩

theorem extractHeader_fieldLines {name : Bytes} (hname : 0x3a ∉ name) (fields : List Field)
    (rest : Bytes) :
    extractHeader (fieldLines fields ++ (crlf ++ rest)) name =
      match fields.find? (Field.Matches name ·) with
      | some f => some (fromUtf8Lossy (f.value.drop 1))
      | none => extractHeader (crlf ++ rest) name := by
  induction fields with
  | nil => rfl
  | cons f fields ih =>
    obtain ⟨t, ht⟩ := fieldLines_append_crlf fields rest
    rw [fieldLines, List.flatMap_cons, ← fieldLines, List.append_assoc, List.append_assoc, ht]
    by_cases hf : f.Matches name
    · rw [extractHeader_line hname hf, List.find?_cons_of_pos (by simpa using hf)]
    · rw [extractHeader_line_skip hname hf, List.find?_cons_of_neg (by simpa using hf), ← ht, ih]

theorem isChunked_iff {recv : Bytes} :
    isChunked recv = true ↔ ∃ te, extractHeader recv (ascii "Transfer-Encoding") = some te ∧
      ascii "chunked" <:+: te := by
  unfold isChunked
  split
  case h_1 te hte =>
    rw [decide_eq_true_iff]
    constructor
    · intro hin
      exact ⟨te, hte, hin⟩
    · rintro ⟨_, hte', hin⟩
      exact Option.some.inj (hte.symm.trans hte') ▸ hin
  case h_2 hnone =>
    constructor
    · simp
    · rintro ⟨te, hte, -⟩
      exact nomatch hnone.symm.trans hte

namespace Head

variable (h : Head)

theorem bytes_append (body : Bytes) :
    h.bytes ++ body = h.status ++ (fieldLines h.fields ++ (crlf ++ (crlf ++ body))) := by
  simp [bytes, headBoundary]

theorem extractHeader_bytes {name : Bytes} (hname : 0x3a ∉ name) (body : Bytes) :
    extractHeader (h.bytes ++ body) name =
      match h.fields.find? (Field.Matches name ·) with
      | some f => some (fromUtf8Lossy (f.value.drop 1))
      | none => extractHeader (crlf ++ (crlf ++ body)) name := by
  have hnone : ∀ j < h.status.length, ¬ HeaderAt name (h.bytes ++ body) j := by
    intro j hj hat
    have hcr := hat.getElem?_eq_cr
    rw [bytes_append, List.getElem?_append_left hj] at hcr
    exact h.status_cr (List.mem_of_getElem? hcr)
  rw [extractHeader_skip hnone, bytes_append, List.drop_left, extractHeader_fieldLines hname]

theorem firstAt_fieldLines (fields : List Field) (body : Bytes) :
    FirstAt headBoundary (fieldLines fields ++ (headBoundary ++ body))
      (fieldLines fields).length := by
  induction fields with
  | nil => exact ⟨List.prefix_append .., by simp [fieldLines]⟩
  | cons f fields ih =>
    have hdata : fieldLines (f :: fields) ++ (headBoundary ++ body) =
        crlf ++ f.line ++ (fieldLines fields ++ (headBoundary ++ body)) := by
      simp [fieldLines]
    have hnone : ∀ j < (crlf ++ f.line).length,
        ¬ Occurs headBoundary (fieldLines (f :: fields) ++ (headBoundary ++ body)) j := by
      intro j hj hocc
      rw [hdata] at hocc
      have hcr := Occurs.getElem? hocc (k := 0) (a := 0x0d) rfl
      have hcr' := Occurs.getElem? hocc (k := 2) (a := 0x0d) rfl
      have hmem : ∀ k, (crlf ++ f.line ++ (fieldLines fields ++ (headBoundary ++ body)))[k + 2]? =
          some 0x0d → ¬ k < f.line.length := by
        intro k hk hlt
        have hk : (f.line ++ (fieldLines fields ++ (headBoundary ++ body)))[k]? = some 0x0d := hk
        rw [List.getElem?_append_left hlt] at hk
        exact f.line_cr (List.mem_of_getElem? hk)
      match j with
      | 0 => exact hmem 0 hcr' f.line_pos
      | 1 => simp [crlf] at hcr
      | j + 2 => exact hmem j hcr (by simpa [crlf] using hj)
    have hlen : (fieldLines (f :: fields)).length =
        (crlf ++ f.line).length + (fieldLines fields).length := by
      simp [fieldLines, Nat.add_assoc]
    rw [hlen, firstAt_add hnone, hdata, List.drop_left]
    exact ih

theorem bodyAt_bytes (body : Bytes) : BodyAt (h.bytes ++ body) h.bytes.length := by
  have hdata : h.bytes ++ body = h.status ++ (fieldLines h.fields ++ (headBoundary ++ body)) := by
    simp [bytes]
  have hnone : ∀ j < h.status.length, ¬ Occurs headBoundary (h.bytes ++ body) j := by
    intro j hj hocc
    have hcr : (h.bytes ++ body)[j]? = some 0x0d := Occurs.getElem? (k := 0) hocc rfl
    rw [hdata, List.getElem?_append_left hj] at hcr
    exact h.status_cr (List.mem_of_getElem? hcr)
  refine ⟨h.status.length + (fieldLines h.fields).length, (firstAt_add hnone).mpr ?_, ?_⟩
  · rw [hdata, List.drop_left]
    exact firstAt_fieldLines h.fields body
  · simp [bytes, Nat.add_assoc]

end Head

theorem extractResponseBody_of_bodyAt {recv : Bytes} {b : Nat} (hb : BodyAt recv b) :
    extractResponseBody recv =
      if isChunked recv then decodeChunkedBody (recv.drop b) else .ok (recv.drop b) := by
  simp only [extractResponseBody, bodyAt_iff.mp hb, slice_body]

theorem length_data_le (chunks : List DataChunk) :
    (chunks.flatMap DataChunk.data).length ≤ (chunks.flatMap DataChunk.encode).length := by
  induction chunks with
  | nil => simp
  | cons c chunks ih =>
    simp only [List.flatMap_cons, List.length_append, c.length_encode, c.size]
    omega

/-- Decoding never leaves a body as it is: it drops at least the last size line. -/
theorem decodeChunkedBody_ne_self (raw : Bytes) : decodeChunkedBody raw ≠ .ok raw := by
  intro h
  obtain ⟨chunks, last, tail, -, hraw, hout⟩ := decodeChunkedBody_eq_ok_iff.mp h
  have hle := length_data_le chunks
  rw [← hout, hraw, bodyHead, SizeLine.bytes] at hle
  simp [crlf] at hle

def isBlank (b : UInt8) : Bool := b == 0x20 || b == 0x09

def trimBlanks (bs : Bytes) : Bytes :=
  ((bs.dropWhile isBlank).reverse.dropWhile isBlank).reverse

namespace Head

variable (h : Head)

/-- The transfer codings of all the head's fields, in the order they were applied. -/
def codings : List Bytes :=
  ((h.fields.filter fun f => eqIgnoreAsciiCase f.name (ascii "Transfer-Encoding")).flatMap fun f =>
    (f.value.splitOn 0x2c).map trimBlanks).filter (· ≠ [])

def DeclaresChunked : Prop :=
  ∃ coding, h.codings.getLast? = some coding ∧ eqIgnoreAsciiCase coding (ascii "chunked") = true

/-- The first `Transfer-Encoding` field with a space after its colon spells `chunked` in
lower case. -/
def SpellsChunked : Prop :=
  ∃ f, h.fields.find? (Field.Matches (ascii "Transfer-Encoding") ·) = some f ∧
    ascii "chunked" <:+: fromUtf8Lossy (f.value.drop 1)

structure Dechunks (body : Bytes) : Prop where
  dechunked : extractResponseBody (h.bytes ++ body) = decodeChunkedBody body
  member : ∀ field m, JsonMember.inResponse (h.bytes ++ body) field = some m →
    ∃ decoded d, decodeChunkedBody body = .ok decoded ∧
      JsonMember.inBody decoded field = some d ∧
      slice (h.bytes ++ body) m.member = slice decoded d.member
  idSnippet : ∀ field quoted r, computeIdSnippetRange (h.bytes ++ body) field quoted = some r →
    ∃ decoded d, decodeChunkedBody body = .ok decoded ∧
      findSnippet decoded field quoted = some d ∧
      slice (h.bytes ++ body) r = slice decoded d

variable {h}

theorem isChunked_of_spellsChunked (hs : h.SpellsChunked) (body : Bytes) :
    isChunked (h.bytes ++ body) = true := by
  obtain ⟨f, hf, hin⟩ := hs
  refine isChunked_iff.mpr ⟨_, ?_, hin⟩
  rw [h.extractHeader_bytes (by decide), hf]

theorem spellsChunked_of_isChunked (hc : isChunked (h.bytes ++ []) = true) : h.SpellsChunked := by
  obtain ⟨te, hte, hin⟩ := isChunked_iff.mp hc
  rw [h.extractHeader_bytes (by decide)] at hte
  cases hf : h.fields.find? (Field.Matches (ascii "Transfer-Encoding") ·) with
  | some f =>
    rw [hf] at hte
    exact ⟨f, hf, Option.some.inj hte ▸ hin⟩
  | none =>
    have hempty : extractHeader (crlf ++ (crlf ++ [])) (ascii "Transfer-Encoding") = none := by
      decide +kernel
    rw [hf] at hte
    exact nomatch hempty.symm.trans hte

theorem extractResponseBody_bytes (body : Bytes) :
    extractResponseBody (h.bytes ++ body) =
      if isChunked (h.bytes ++ body) then decodeChunkedBody body else .ok body := by
  rw [extractResponseBody_of_bodyAt (h.bodyAt_bytes body), List.drop_left]

theorem dechunks_of_body {body : Bytes}
    (hbody : extractResponseBody (h.bytes ++ body) = decodeChunkedBody body) :
    h.Dechunks body := by
  refine ⟨hbody, ?_, ?_⟩
  · intro field m hm
    obtain ⟨b, decoded, d, raw, hb, hdec, hd, hraw, heq, rfl⟩ := inResponse_eq_some.mp hm
    refine ⟨decoded, d, hbody ▸ hdec, hd, ?_⟩
    rw [← heq, slice_drop]
    rfl
  · intro field quoted r hr
    obtain ⟨b, decoded, d, raw, hb, hdec, hd, hraw, heq, rfl⟩ := computeIdSnippetRange_eq_some.mp hr
    refine ⟨decoded, d, hbody ▸ hdec, findSnippet_eq_some.mpr hd, ?_⟩
    rw [← heq, slice_drop]
    rfl

/-- A head that declares the chunked coding has every body read without its framing
exactly when its first field of the name is spelled as the search expects. -/
theorem dechunks_iff (h : Head) :
    (h.DeclaresChunked → ∀ body, h.Dechunks body) ↔ (h.DeclaresChunked → h.SpellsChunked) := by
  refine forall_congr' fun _ => ⟨fun hall => ?_, fun hs body => ?_⟩
  · have hbody := (hall []).dechunked
    rw [extractResponseBody_bytes] at hbody
    split at hbody
    case isTrue hc => exact spellsChunked_of_isChunked hc
    case isFalse => exact absurd hbody.symm (decodeChunkedBody_ne_self [])
  · apply dechunks_of_body
    rw [extractResponseBody_bytes, if_pos (isChunked_of_spellsChunked hs body)]

/-- A capital letter in the coding: the member is compared with itself, and a range with
framing in it is returned. -/
theorem capital_not_dechunked :
    ∃ (h : Head) (body : Bytes) (r : Range), h.DeclaresChunked ∧
      h.bytes ++ body = ascii "HTTP/1.1 200 OK\r\nTransfer-Encoding: Chunked\r\n\r\n" ++
        ascii "7\r\n\x7b\"id\":\"\r\n4\r\n42\"\x7d\r\n0\r\n\r\n" ∧
      decodeChunkedBody body = .ok (ascii "\x7b\"id\":\"42\"\x7d") ∧
      extractResponseBody (h.bytes ++ body) = .ok body ∧
      computeFieldSnippetRange (h.bytes ++ body) (ascii "id") = some r ∧
      slice (h.bytes ++ body) r = ascii "\"id\":\"\r\n4\r\n42\"" := by
  refine ⟨⟨ascii "HTTP/1.1 200 OK",
    [⟨ascii "Transfer-Encoding", ascii " Chunked", by decide, by decide, by decide⟩], by decide⟩,
    ascii "7\r\n\x7b\"id\":\"\r\n4\r\n42\"\x7d\r\n0\r\n\r\n", ⟨51, 65⟩,
    ⟨ascii "Chunked", by decide +kernel, by decide +kernel⟩, by decide +kernel, by decide +kernel,
    by decide +kernel, by decide +kernel, by decide +kernel⟩

end Head

theorem HeaderAt.le_boundary {name head : Bytes} {p i : Nat} (hp : Occurs headBoundary head p)
    (hlen : head.length = p + headBoundary.length) (hi : HeaderAt name head i) :
    i + (headerNeedle name).length ≤ p := by
  have hn : (headerNeedle name).length = name.length + 4 := by
    simp [headerNeedle, crlf, ascii]
  have hle := Occurs.le_length hi (needle_ne_nil name)
  rw [length_lowercase, length_lowercase, hlen] at hle
  have hneedle : lowercase (headerNeedle name) =
      (crlf ++ (lowercase name ++ [0x3a])) ++ [0x20] := by
    simp only [headerNeedle, lowercase_append, List.append_assoc]
    rfl
  have hspace : (lowercase (headerNeedle name))[name.length + 3]? = some 0x20 := by
    have hpos : (crlf ++ (lowercase name ++ [0x3a])).length = name.length + 3 := by
      simp only [crlf, length_lowercase, List.length_append, List.length_cons, List.length_nil]
      omega
    rw [hneedle, ← hpos]
    exact List.getElem?_concat_length
  have hhead := Occurs.getElem? hi hspace
  rw [lowercase, List.getElem?_map, Option.map_eq_some_iff] at hhead
  obtain ⟨b, hb, hlower⟩ := hhead
  obtain rfl := toAsciiLowercase_eq_space.mp hlower
  by_contra hlt
  have hk : i + (name.length + 3) - p < headBoundary.length := by omega
  have hat := occurs_iff_getElem?.mp hp _ hk
  rw [show p + (i + (name.length + 3) - p) = i + (name.length + 3) by omega, hb] at hat
  exact absurd (List.mem_of_getElem? hat.symm) (by decide)

theorem findHeaderRange_append {name head : Bytes} {i : Nat} (hhead : BodyAt head head.length)
    (hi : HeaderAt name head i) :
    ∃ r, r.stop + headBoundary.length ≤ head.length ∧
      ∀ body, findHeaderRange (head ++ body) name = some r := by
  obtain ⟨p, hp, hlen⟩ := hhead
  obtain ⟨j, -, hj⟩ := Occurs.exists_firstAt hi
  have hle := HeaderAt.le_boundary hp.1 hlen hj.1
  obtain ⟨k, rfl⟩ := Nat.exists_eq_add_of_le hle
  have hcrlf : Occurs crlf (head.drop (j + (headerNeedle name).length)) k :=
    occurs_drop.mpr (occurs_append.mp hp.1).1
  obtain ⟨q, hq, hfirst⟩ := hcrlf.exists_firstAt
  refine ⟨⟨j + (headerNeedle name).length, j + (headerNeedle name).length + q⟩, ?_, fun body => ?_⟩
  · rw [hlen]
    simp only
    omega
  · refine findHeaderRange_eq_some.mpr ⟨j, q, ?_, ?_, rfl⟩
    · rw [FirstHeaderAt, lowercase_append]
      exact hj.append_left _ (needle_ne_nil name)
    · rw [List.drop_append_of_le_length (by omega)]
      exact hfirst.append_left body (by decide)

theorem findHeaderRange_eq_none {name data : Bytes} (h : ∀ i, ¬ HeaderAt name data i) :
    findHeaderRange data name = none := by
  apply Option.eq_none_iff_forall_ne_some.mpr
  intro r hr
  obtain ⟨i, -, hi, -⟩ := findHeaderRange_eq_some.mp hr
  exact h i hi.1

theorem headerAt_append (name head rest : Bytes) :
    HeaderAt name (head ++ (headerNeedle name ++ rest)) head.length := by
  rw [HeaderAt, Occurs, lowercase_append, lowercase_append, ← length_lowercase head,
    List.drop_left]
  exact List.prefix_append ..

theorem exists_findHeaderRange (name head : Bytes) :
    ∃ r, findHeaderRange (head ++ (headerNeedle name ++ crlf)) name = some r := by
  obtain ⟨j, hj, hfirst⟩ := Occurs.exists_firstAt (headerAt_append name head crlf)
  have hcrlf : Occurs crlf ((head ++ (headerNeedle name ++ crlf)).drop
      (j + (headerNeedle name).length)) (head.length - j) := by
    rw [occurs_drop, ← List.append_assoc, Occurs, show j + (headerNeedle name).length +
      (head.length - j) = (head ++ headerNeedle name).length by rw [List.length_append]; omega,
      List.drop_left]
  obtain ⟨q, -, hq⟩ := hcrlf.exists_firstAt
  exact ⟨_, findHeaderRange_eq_some.mpr ⟨j, q, hfirst, hq, rfl⟩⟩

def TreatsAsChunked (head body : Bytes) : Prop :=
  extractResponseBody (head ++ body) = decodeChunkedBody body

instance (head body : Bytes) : Decidable (TreatsAsChunked head body) :=
  inferInstanceAs (Decidable (_ = _))

theorem treatsAsChunked_iff {head : Bytes} (hhead : BodyAt head head.length) (body : Bytes) :
    TreatsAsChunked head body ↔ isChunked (head ++ body) = true := by
  have hb : BodyAt (head ++ body) head.length := by
    obtain ⟨p, hp, hlen⟩ := hhead
    exact ⟨p, hp.append_left body (by decide), hlen⟩
  rw [TreatsAsChunked, extractResponseBody_of_bodyAt hb, List.drop_left]
  split
  case isTrue hc => simp [hc]
  case isFalse hc => simp [hc, (decodeChunkedBody_ne_self body).symm]

def chunkedLine : Bytes := headerNeedle (ascii "Transfer-Encoding") ++ (ascii "chunked" ++ crlf)

/-- A needle with one CR stands first where it is appended to a head without it: it cannot
begin in the head and end past it. -/
theorem firstHeaderAt_append {name head : Bytes}
    (hcr : 0x0d ∉ (lowercase (headerNeedle name)).drop 1) (hnone : ∀ i, ¬ HeaderAt name head i)
    (rest : Bytes) : FirstHeaderAt name (head ++ (headerNeedle name ++ rest)) head.length := by
  refine ⟨headerAt_append .., fun j hj hat => ?_⟩
  by_cases hle : j + (headerNeedle name).length ≤ head.length
  · exact hnone j (HeaderAt.of_append hat hle)
  · obtain ⟨k, hk⟩ := Nat.exists_eq_add_of_lt hj
    have hget : (head ++ (headerNeedle name ++ rest))[j + (k + 1)]? = some 0x0d := by
      rw [← Nat.add_assoc, ← hk, List.getElem?_append_right (Nat.le_refl _), Nat.sub_self]
      rfl
    have hlt : k + 1 < (lowercase (headerNeedle name)).length := by
      rw [length_lowercase]
      omega
    have hneedle := occurs_iff_getElem?.mp hat _ hlt
    rw [lowercase, List.getElem?_map, hget] at hneedle
    apply hcr
    apply List.mem_of_getElem? (i := k)
    rw [List.getElem?_drop, Nat.add_comm, ← hneedle]
    rfl

theorem isChunked_chunkedLine {head : Bytes}
    (hnone : ∀ i, ¬ HeaderAt (ascii "Transfer-Encoding") head i) :
    isChunked (head ++ chunkedLine) = true := by
  have hfirst := firstHeaderAt_append (by decide +kernel) hnone (ascii "chunked" ++ crlf)
  have hdrop : (head ++ chunkedLine).drop
      (head.length + (headerNeedle (ascii "Transfer-Encoding")).length) =
      ascii "chunked" ++ crlf := by
    rw [chunkedLine, ← List.append_assoc, ← List.length_append, List.drop_left]
  have hvalue : FirstAt crlf ((head ++ chunkedLine).drop
      (head.length + (headerNeedle (ascii "Transfer-Encoding")).length))
      (ascii "chunked").length := by
    rw [hdrop]
    exact firstAt_crlf (by decide) []
  have hrange := findHeaderRange_eq_some.mpr ⟨_, _, hfirst, hvalue, rfl⟩
  refine isChunked_iff.mpr ⟨_, by rw [extractHeader, chunkedLine, hrange, Option.map_some], ?_⟩
  rw [← chunkedLine, slice, hdrop, Nat.add_sub_cancel_left, List.take_left]
  decide +kernel

/-- What the search finds, and how the body is decoded, is independent of the body exactly
when the head has the header. -/
theorem head_decides_iff (head : Bytes) (hhead : BodyAt head head.length) :
    (∀ name,
      ((∀ body body', findHeaderRange (head ++ body) name = findHeaderRange (head ++ body') name) ∧
        ∀ body r, findHeaderRange (head ++ body) name = some r →
          r.stop + headBoundary.length ≤ head.length) ↔ ∃ i, HeaderAt name head i) ∧
    ((∀ body body', TreatsAsChunked head body ↔ TreatsAsChunked head body') ↔
      ∃ i, HeaderAt (ascii "Transfer-Encoding") head i) := by
  constructor
  · intro name
    constructor
    · rintro ⟨hsame, -⟩
      by_contra hnone
      push Not at hnone
      obtain ⟨r, hr⟩ := exists_findHeaderRange name head
      rw [hsame _ [], List.append_nil, findHeaderRange_eq_none hnone] at hr
      simp at hr
    · rintro ⟨i, hi⟩
      obtain ⟨r, hstop, hr⟩ := findHeaderRange_append hhead hi
      refine ⟨fun body body' => (hr body).trans (hr body').symm, fun body r' hr' => ?_⟩
      obtain rfl := Option.some.inj ((hr body).symm.trans hr')
      exact hstop
  · simp only [treatsAsChunked_iff hhead]
    constructor
    · intro hsame
      by_contra hnone
      push Not at hnone
      have hchunked := (hsame [] chunkedLine).mpr (isChunked_chunkedLine hnone)
      obtain ⟨te, hte, -⟩ := isChunked_iff.mp hchunked
      rw [List.append_nil, extractHeader, findHeaderRange_eq_none hnone] at hte
      simp at hte
    · rintro ⟨i, hi⟩ body body'
      obtain ⟨r, hstop, hr⟩ := findHeaderRange_append hhead hi
      have hslice : ∀ body, slice (head ++ body) r = slice head r := fun body =>
        slice_congr fun k _ hk => List.getElem?_append_left (by omega)
      simp only [isChunked_iff, extractHeader, hr, Option.map_some, hslice]

/-- A head without the header decides over the bodies that do not spell it either, across the
seam or after it. -/
theorem head_decides_of_absent {head body : Bytes} (hhead : BodyAt head head.length) :
    (∀ name, (∀ i, ¬ HeaderAt name (head ++ body) i) →
      findHeaderRange (head ++ body) name = findHeaderRange head name) ∧
    ((∀ i, ¬ HeaderAt (ascii "Transfer-Encoding") (head ++ body) i) →
      ¬ TreatsAsChunked head body) := by
  constructor
  · intro name hnone
    rw [findHeaderRange_eq_none hnone, findHeaderRange_eq_none]
    intro i hi
    apply hnone i
    rw [HeaderAt, lowercase_append]
    exact Occurs.append_left hi _ (needle_ne_nil name)
  · intro hnone hchunked
    obtain ⟨te, hte, -⟩ := isChunked_iff.mp ((treatsAsChunked_iff hhead body).mp hchunked)
    rw [extractHeader, findHeaderRange_eq_none hnone] at hte
    cases hte

theorem head_decides_iff_run :
    let head := ascii "HTTP/1.1 200 OK\r\nTransfer-Encoding: chunked\r\n\r\n"
    ∀ body body', TreatsAsChunked head body ↔ TreatsAsChunked head body' :=
  ((head_decides_iff (ascii "HTTP/1.1 200 OK\r\nTransfer-Encoding: chunked\r\n\r\n")
    ⟨43, by decide +kernel, by decide +kernel⟩).2).mpr ⟨15, by decide +kernel⟩

/-- A head without the field: one body is returned as it is, the other is decoded, and the
header found for it stands past the head. -/
theorem body_chooses_decoding :
    let head := ascii "HTTP/1.1 200 OK\r\n\r\n"
    let body := ascii "5\r\nhello\r\n0\r\n\r\n"
    let body' := body ++ ascii "\r\nTransfer-Encoding: chunked\r\n"
    BodyAt head head.length ∧ ¬ TreatsAsChunked head body ∧ TreatsAsChunked head body' ∧
      extractResponseBody (head ++ body) = .ok body ∧
      extractResponseBody (head ++ body') = .ok (ascii "hello") ∧
      findHeaderRange (head ++ body) (ascii "Transfer-Encoding") = none ∧
      findHeaderRange (head ++ body') (ascii "Transfer-Encoding") = some ⟨55, 62⟩ := by
  exact ⟨⟨15, by decide +kernel, by decide +kernel⟩, by decide +kernel, by decide +kernel,
    by decide +kernel, by decide +kernel, by decide +kernel, by decide +kernel⟩

end Libid.Transcript
