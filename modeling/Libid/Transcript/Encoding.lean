import Libid.Transcript.SizeLine

/-! Plainly chunked bodies: data strings sent as chunks without extensions.  Every
chunk has a place on the wire and a place in the payload, with the same bytes. -/

namespace Libid.Transcript

/-- A chunk with a size line of at most sixteen digits, blanks after them, and no extension. -/
structure Chunk where
  digits : Bytes
  blanks : Bytes
  data : Bytes
  data_ne : data ≠ []
  digits_le : digits.length ≤ 16
  size : hexValue digits = some data.length
  blank : ∀ b ∈ blanks, b = 0x20 ∨ b = 0x09

namespace Chunk

def sizeLine (c : Chunk) : Bytes := c.digits ++ c.blanks ++ crlf

def encode (c : Chunk) : Bytes := c.sizeLine ++ (c.data ++ crlf)

theorem length_encode (c : Chunk) :
    c.encode.length = c.sizeLine.length + c.data.length + 2 := by
  simp [encode, crlf, Nat.add_assoc]

theorem data_pos (c : Chunk) : 0 < c.data.length := List.length_pos_of_ne_nil c.data_ne

def line (c : Chunk) : SizeLine :=
  ⟨c.digits, c.blanks, [], c.data.length, c.size, c.digits_le, c.blank, .nil⟩

theorem bytes_line (c : Chunk) : c.line.bytes = c.sizeLine := by
  simp [line, SizeLine.bytes, sizeLine]

theorem digits_ne (c : Chunk) : c.digits ≠ [] := by
  intro h
  have := c.size
  have := c.data_pos
  simp_all [hexValue, hexValueFrom]

end Chunk

def lastChunk : Bytes := ascii "0\r\n\r\n"

def wire (chunks : List Chunk) : Bytes := chunks.flatMap Chunk.encode ++ lastChunk

def payload (chunks : List Chunk) : Bytes := chunks.flatMap Chunk.data

@[simp] theorem wire_cons (c : Chunk) (chunks : List Chunk) :
    wire (c :: chunks) = c.encode ++ wire chunks := by
  simp [wire]

@[simp] theorem payload_cons (c : Chunk) (chunks : List Chunk) :
    payload (c :: chunks) = c.data ++ payload chunks := by
  simp [payload]

theorem parseChunkSize_sizeLine (c : Chunk) (rest : Bytes) :
    parseChunkSize (c.sizeLine ++ rest) =
      .ok (.Complete (c.sizeLine.length, c.data.length)) := by
  rw [← c.bytes_line]
  exact parseChunkSize_bytes c.line rest

/-- Where a chunk's data sits: at `raw` on the wire, at `out` in the payload. -/
structure Place where
  raw : Nat
  out : Nat
  len : Nat

def Place.shift (raw out : Nat) (p : Place) : Place := ⟨raw + p.raw, out + p.out, p.len⟩

def Place.range (p : Place) : Range := ⟨p.raw, p.raw + p.len⟩

def places : List Chunk → List Place
  | [] => []
  | c :: chunks =>
    ⟨c.sizeLine.length, 0, c.data.length⟩ ::
      (places chunks).map (Place.shift c.encode.length c.data.length)

theorem framing_wire (chunks : List Chunk) :
    Framing (wire chunks) ((places chunks).map Place.range) := by
  induction chunks with
  | nil => exact .last (h := 3) (by decide +kernel)
  | cons c chunks ih =>
    have hparse : parseChunkSize (wire (c :: chunks)) =
        .ok (.Complete (c.sizeLine.length, c.data.length)) := by
      rw [wire_cons, Chunk.encode, List.append_assoc]
      exact parseChunkSize_sizeLine c _
    have hcrlf : Occurs crlf (wire (c :: chunks)) (c.sizeLine.length + c.data.length) := by
      rw [wire_cons, Chunk.encode, Occurs, ← List.append_assoc, List.append_assoc,
        ← List.length_append, List.drop_left]
      exact List.prefix_append ..
    have hrest : (wire (c :: chunks)).drop (c.sizeLine.length + c.data.length + 2) =
        wire chunks := by
      rw [wire_cons, ← c.length_encode, List.drop_left]
    have hstep := Framing.chunk hparse c.data_pos hcrlf (by rwa [hrest])
    rw [← c.length_encode] at hstep
    simpa [places, Place.range, Place.shift, Range.shift, Function.comp_def, Nat.add_assoc]
      using hstep

theorem joined_wire (chunks : List Chunk) :
    joined (wire chunks) ((places chunks).map Place.range) = payload chunks := by
  induction chunks with
  | nil => rfl
  | cons c chunks ih =>
    have hmap : ((places chunks).map (Place.shift c.encode.length c.data.length)).map Place.range =
        ((places chunks).map Place.range).map (Range.shift c.encode.length) := by
      simp [Place.range, Place.shift, Range.shift, Function.comp_def, Nat.add_assoc]
    have hdrop : (wire (c :: chunks)).drop c.encode.length = wire chunks := by
      rw [wire_cons, List.drop_left]
    have hfirst : slice (wire (c :: chunks))
        ⟨c.sizeLine.length, c.sizeLine.length + c.data.length⟩ = c.data := by
      rw [← occurs_iff_slice_eq, wire_cons, Chunk.encode, List.append_assoc, Occurs,
        List.drop_left, List.append_assoc]
      exact List.prefix_append ..
    rw [places, List.map_cons, hmap, joined, List.flatMap_cons, ← joined, joined_shift, hdrop, ih,
      payload_cons]
    exact congrArg (· ++ payload chunks) hfirst

theorem decodeChunkedBody_wire (chunks : List Chunk) :
    decodeChunkedBody (wire chunks) = .ok (payload chunks) :=
  decodeChunkedBody_eq_ok.mpr ⟨_, framing_wire chunks, (joined_wire chunks).symm⟩

theorem getElem?_wire_sizeLine (c : Chunk) (chunks : List Chunk) (i : Nat) :
    (wire (c :: chunks))[c.sizeLine.length + i]? = (c.data ++ (crlf ++ wire chunks))[i]? := by
  rw [wire_cons, Chunk.encode, List.append_assoc, List.append_assoc,
    List.getElem?_append_right (Nat.le_add_right ..), Nat.add_sub_cancel_left]

theorem getElem?_wire_encode (c : Chunk) (chunks : List Chunk) (i : Nat) :
    (wire (c :: chunks))[c.encode.length + i]? = (wire chunks)[i]? := by
  rw [wire_cons, List.getElem?_append_right (Nat.le_add_right ..), Nat.add_sub_cancel_left]

theorem getElem?_payload_data (c : Chunk) (chunks : List Chunk) (i : Nat) :
    (payload (c :: chunks))[c.data.length + i]? = (payload chunks)[i]? := by
  rw [payload_cons, List.getElem?_append_right (Nat.le_add_right ..), Nat.add_sub_cancel_left]

theorem getElem?_place {chunks : List Chunk} {p : Place} (hp : p ∈ places chunks) {i : Nat}
    (hi : i < p.len) : (wire chunks)[p.raw + i]? = (payload chunks)[p.out + i]? := by
  induction chunks generalizing p with
  | nil => simp [places] at hp
  | cons c chunks ih =>
    rcases List.mem_cons.mp hp with rfl | hp
    · rw [getElem?_wire_sizeLine, payload_cons, Nat.zero_add, List.getElem?_append_left hi,
        List.getElem?_append_left hi]
    · obtain ⟨t, ht, rfl⟩ := List.mem_map.mp hp
      simp only [Place.shift, Nat.add_assoc] at hi ⊢
      rw [getElem?_wire_encode, getElem?_payload_data]
      exact ih ht hi

theorem wire_head (chunks : List Chunk) :
    ∃ b d, (wire chunks)[0]? = some b ∧ hexDigit b = some d := by
  cases chunks with
  | nil => exact ⟨0x30, 0, by decide +kernel, by decide⟩
  | cons c chunks =>
    have hsize := c.size
    cases hd : c.digits with
    | nil => exact absurd hd c.digits_ne
    | cons b digits =>
      rw [hd] at hsize
      simp only [hexValue, hexValueFrom, Option.bind_eq_some_iff] at hsize
      obtain ⟨d, hbd, -⟩ := hsize
      exact ⟨b, d, by simp [Chunk.encode, Chunk.sizeLine, hd], hbd⟩

theorem after_place {chunks : List Chunk} {p : Place} (hp : p ∈ places chunks) :
    Occurs crlf (wire chunks) (p.raw + p.len) ∧
      ∃ b d, (wire chunks)[p.raw + p.len + 2]? = some b ∧ hexDigit b = some d := by
  induction chunks generalizing p with
  | nil => simp [places] at hp
  | cons c chunks ih =>
    rcases List.mem_cons.mp hp with rfl | hp
    · obtain ⟨b, d, hb, hd⟩ := wire_head chunks
      constructor
      · rw [occurs_iff_getElem?]
        intro k hk
        rw [Nat.add_assoc, getElem?_wire_sizeLine,
          List.getElem?_append_right (Nat.le_add_right ..), Nat.add_sub_cancel_left,
          List.getElem?_append_left hk]
      · refine ⟨b, d, ?_, hd⟩
        simp only
        rw [← c.length_encode, ← Nat.add_zero c.encode.length, getElem?_wire_encode, hb]
    · obtain ⟨t, ht, rfl⟩ := List.mem_map.mp hp
      obtain ⟨hcrlf, b, d, hb, hd⟩ := ih ht
      simp only [Place.shift, Nat.add_assoc] at hb ⊢
      refine ⟨?_, b, d, by rw [getElem?_wire_encode, hb], hd⟩
      rw [← occurs_drop, wire_cons, List.drop_left]
      exact hcrlf

theorem places_ordered (chunks : List Chunk) :
    (places chunks).Pairwise fun a b => a.raw + a.len ≤ b.raw ∧ a.out + a.len ≤ b.out := by
  induction chunks with
  | nil => exact List.Pairwise.nil
  | cons c chunks ih =>
    refine List.pairwise_cons.mpr ⟨?_, List.pairwise_map.mpr (ih.imp ?_)⟩
    · intro p hp
      obtain ⟨t, -, rfl⟩ := List.mem_map.mp hp
      simp only [Place.shift, c.length_encode]
      omega
    · rintro a b ⟨hraw, hout⟩
      simp only [Place.shift]
      omega

theorem out_lt_of_raw_lt {chunks : List Chunk} {p t : Place} (hp : p ∈ places chunks)
    (ht : t ∈ places chunks) {i j : Nat} (hi : i < p.len) (hj : j < t.len)
    (hlt : p.raw + i < t.raw + j) : p.out + i < t.out + j := by
  let Apart : Place → Place → Prop := fun a b =>
    (a.raw + a.len ≤ b.raw ∧ a.out + a.len ≤ b.out) ∨
      (b.raw + b.len ≤ a.raw ∧ b.out + b.len ≤ a.out)
  have : Std.Symm Apart := ⟨fun _ _ => Or.symm⟩
  have hall : (places chunks).Pairwise Apart := (places_ordered chunks).imp Or.inl
  by_cases heq : p = t
  · subst heq
    omega
  · rcases hall.forall hp ht heq with h | h
    · omega
    · omega

def IsFramingByte (b : UInt8) : Prop :=
  (hexDigit b).isSome ∨ b = 0x20 ∨ b = 0x09 ∨ b = 0x0d ∨ b = 0x0a

instance (b : UInt8) : Decidable (IsFramingByte b) :=
  inferInstanceAs (Decidable ((hexDigit b).isSome = true ∨ _))

theorem isFramingByte_of_mem_crlf {b : UInt8} (h : b ∈ crlf) : IsFramingByte b := by
  rcases List.mem_cons.mp h with rfl | h
  · decide
  · obtain rfl : b = 0x0a := by simpa using h
    decide

theorem Chunk.isFramingByte {c : Chunk} {b : UInt8} (h : b ∈ c.sizeLine) : IsFramingByte b := by
  rcases List.mem_append.mp h with h | h
  · rcases List.mem_append.mp h with h | h
    · exact .inl (isSome_of_hexValueFrom c.size b h)
    · rcases c.blank b h with h | h
      · exact .inr (.inl h)
      · exact .inr (.inr (.inl h))
  · exact isFramingByte_of_mem_crlf h

/-- A byte that framing never holds lies in a place. -/
theorem exists_place {chunks : List Chunk} {i : Nat} {b : UInt8}
    (hi : (wire chunks)[i]? = some b) (hb : ¬ IsFramingByte b) :
    ∃ p ∈ places chunks, p.raw ≤ i ∧ i < p.raw + p.len := by
  induction chunks generalizing i with
  | nil =>
    have hlast : ∀ b ∈ lastChunk, IsFramingByte b := by decide +kernel
    exact absurd (hlast b (List.mem_of_getElem? hi)) hb
  | cons c chunks ih =>
    rcases Nat.lt_or_ge i c.encode.length with hlt | hge
    · refine ⟨_, List.mem_cons_self, ?_⟩
      simp only
      rw [wire_cons, List.getElem?_append_left hlt, Chunk.encode] at hi
      rcases Nat.lt_or_ge i c.sizeLine.length with hline | hline
      · rw [List.getElem?_append_left hline] at hi
        exact absurd (Chunk.isFramingByte (List.mem_of_getElem? hi)) hb
      · refine ⟨hline, ?_⟩
        by_contra hend
        rw [List.getElem?_append_right hline, List.getElem?_append_right (by omega)] at hi
        exact hb (isFramingByte_of_mem_crlf (List.mem_of_getElem? hi))
    · obtain ⟨j, rfl⟩ := Nat.exists_eq_add_of_le hge
      rw [getElem?_wire_encode] at hi
      obtain ⟨p, hp, hle, hlt⟩ := ih hi
      refine ⟨_, List.mem_cons_of_mem _ (List.mem_map_of_mem hp), ?_⟩
      simp only [Place.shift]
      omega

end Libid.Transcript
