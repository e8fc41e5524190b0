import Libid.Base.Codec
import Libid.Base.Stream
import Libid.Transcript.Ceremony

/-! The length-prefixed JSON protocol that follows a session.  The JSON library is a
parameter: `toVec` and `fromSlice`, with an error `ε` of its own. -/

namespace Libid.Transcript

def maxMsgSize : Nat := 10 * 1024 * 1024

/-- The cases of the crate's error that the protocol returns. -/
inductive WireError (ε : Type)
  | io
  | json (error : ε)
  | wireProtocol (detail : String)

section Messages

variable {α ε : Type} (toVec : α → Except ε Bytes) (fromSlice : Bytes → Except ε α)

/-- Writes to `w` what has yet to be read from it, and never fails to write. -/
def writeMsg (w : Bytes) (msg : α) : Except (WireError ε) Bytes := do
  let json ← (toVec msg).mapError .json
  if json.length < 2 ^ 32 then
    return w ++ toBeBytes 4 json.length ++ json
  else
    throw (.wireProtocol s!"message too large to encode: {json.length} bytes")

def readMsg (r : ByteStream) : Except (WireError ε) (α × ByteStream) := do
  let (lenBuf, r) ← okOr .io (r.readExact 4)
  let len := ofBeBytes lenBuf
  if len > maxMsgSize then
    throw (.wireProtocol s!"message too large: {len} bytes")
  let (buf, r) ← okOr .io (r.readExact len)
  let msg ← (fromSlice buf).mapError .json
  return (msg, r)

def writeMsgs (ms : List α) : Except (WireError ε) Bytes := ms.foldlM (writeMsg toVec) []

def readMsgs : Nat → ByteStream → Except (WireError ε) (List α × ByteStream)
  | 0, r => .ok ([], r)
  | n + 1, r => do
    let (m, r) ← readMsg fromSlice r
    let (ms, r) ← readMsgs n r
    return (m :: ms, r)

end Messages

def frame (json : Bytes) : Bytes := toBeBytes 4 json.length ++ json

section Messages

variable {α ε : Type} {toVec : α → Except ε Bytes} {fromSlice : Bytes → Except ε α}

theorem mapError_eq_ok {ε ε' α : Type} {f : ε → ε'} {x : Except ε α} {a : α} :
    x.mapError f = .ok a ↔ x = .ok a := by
  cases x <;> simp [Except.mapError]

theorem writeMsg_eq_ok {w w' : Bytes} {msg : α} :
    writeMsg toVec w msg = .ok w' ↔
      ∃ json, toVec msg = .ok json ∧ json.length < 2 ^ 32 ∧ w' = w ++ frame json := by
  simp only [writeMsg, bind_eq_ok, mapError_eq_ok]
  refine exists_congr fun json => and_congr_right fun _ => ?_
  split
  case isTrue h =>
    rw [List.append_assoc]
    exact ⟨fun e => ⟨h, (Except.ok.inj e).symm⟩, fun e => congrArg _ e.2.symm⟩
  case isFalse h =>
    constructor
    · intro e
      exact nomatch e
    · rintro ⟨hlt, -⟩
      exact absurd hlt h

theorem readMsg_frame (fromSlice : Bytes → Except ε α) {json rest : Bytes}
    (hlen : json.length < 2 ^ 32) {r : ByteStream} (hr : r.bytes = frame json ++ rest) :
    if json.length ≤ maxMsgSize then
      ∃ t, t.bytes = rest ∧
        readMsg fromSlice r = ((fromSlice json).mapError .json).map fun m => (m, t)
    else
      readMsg fromSlice r =
        .error (.wireProtocol s!"message too large: {json.length} bytes") := by
  obtain ⟨s, hs, hsb⟩ := ByteStream.readExact_append
    (show r.bytes = toBeBytes 4 json.length ++ (json ++ rest) by rw [hr, frame, List.append_assoc])
  rw [length_toBeBytes] at hs
  have hof : ofBeBytes (toBeBytes 4 json.length) = json.length := ofBeBytes_toBeBytes hlen
  split
  case isTrue hle =>
    obtain ⟨t, ht, htb⟩ := ByteStream.readExact_append hsb
    refine ⟨t, htb, ?_⟩
    simp only [readMsg, hs, okOr, bind, Except.bind, hof, ht]
    rw [if_neg (by omega)]
    cases (fromSlice json) <;> rfl
  case isFalse hgt =>
    simp only [readMsg, hs, okOr, bind, Except.bind, hof]
    rw [if_pos (by omega)]
    rfl

theorem writeMsgs_eq_ok {ms : List α} {w w' : Bytes} :
    ms.foldlM (writeMsg toVec) w = .ok w' ↔
      ∃ jsons, List.Forall₂ (fun m json => toVec m = .ok json ∧ json.length < 2 ^ 32) ms jsons ∧
        w' = w ++ jsons.flatMap frame := by
  induction ms generalizing w with
  | nil => simp [pure, Except.pure, eq_comm]
  | cons m ms ih =>
    simp only [List.foldlM_cons, bind_eq_ok, writeMsg_eq_ok, ih]
    constructor
    · rintro ⟨_, ⟨json, hjson, hlen, rfl⟩, jsons, hjsons, rfl⟩
      exact ⟨json :: jsons, .cons ⟨hjson, hlen⟩ hjsons, by
        rw [List.flatMap_cons, List.append_assoc]⟩
    · rintro ⟨_, hall, rfl⟩
      obtain ⟨json, jsons, ⟨hjson, hlen⟩, hjsons, rfl⟩ := List.forall₂_cons_left_iff.mp hall
      exact ⟨_, ⟨json, hjson, hlen, rfl⟩, jsons, hjsons, by
        rw [List.flatMap_cons, List.append_assoc]⟩

theorem readMsgs_frames (hjson : ∀ m json, toVec m = .ok json → fromSlice json = .ok m)
    {ms : List α} {jsons : List Bytes}
    (h : List.Forall₂ (fun m json => toVec m = .ok json ∧ json.length < 2 ^ 32) ms jsons)
    {rest : Bytes} {r : ByteStream} (hr : r.bytes = jsons.flatMap frame ++ rest) :
    (∃ t, readMsgs fromSlice ms.length r = .ok (ms, t) ∧ t.bytes = rest) ↔
      ∀ json ∈ jsons, json.length ≤ maxMsgSize := by
  induction h generalizing r with
  | nil => exact ⟨by simp, fun _ => ⟨r, rfl, hr⟩⟩
  | @cons m json ms jsons hm _ ih =>
    have hmsg := readMsg_frame fromSlice hm.2 (r := r)
      (by rw [hr, List.flatMap_cons, List.append_assoc])
    split at hmsg
    case isTrue hle =>
      obtain ⟨s, hs, hread⟩ := hmsg
      rw [hjson m json hm.1] at hread
      simp only [List.forall_mem_cons, and_iff_right hle, ← ih hs, List.length_cons, readMsgs,
        hread, Except.mapError, Except.map, bind_eq_ok, pure, Except.pure, Except.ok.injEq,
        Prod.mk.injEq, Prod.exists]
      constructor
      · rintro ⟨t, ⟨_, _, ⟨rfl, rfl⟩, ms', t', hms, ⟨_, rfl⟩, rfl⟩, ht⟩
        exact ⟨t', hms, ht⟩
      · rintro ⟨t, hms, ht⟩
        exact ⟨t, ⟨m, s, ⟨rfl, rfl⟩, ms, t, hms, rfl, rfl⟩, ht⟩
    case isFalse hgt =>
      rw [List.length_cons, readMsgs, hmsg]
      constructor
      · rintro ⟨t, ht, _⟩
        cases ht
      · intro hle
        exact absurd (hle json (by simp)) hgt

theorem forall₂_bounded {ms : List α} {jsons : List Bytes} {n : Nat}
    (h : List.Forall₂ (fun m json => toVec m = .ok json ∧ json.length < 2 ^ 32) ms jsons) :
    (∀ m ∈ ms, ∀ json, toVec m = .ok json → json.length ≤ n) ↔
      ∀ json ∈ jsons, json.length ≤ n := by
  induction h with
  | nil => simp
  | cons hm _ ih =>
    rw [List.forall_mem_cons, List.forall_mem_cons, ih]
    apply and_congr_left
    intro _
    simp only [hm.1, Except.ok.injEq, forall_eq']

end Messages

structure AttestationWire where
  attestedData : Bytes
  notarySignature : Bytes

def decimalDigit (n : Nat) : UInt8 := .ofNat (0x30 + n)

def decimal (b : UInt8) : Bytes :=
  let n := b.toNat
  if n < 10 then [decimalDigit n]
  else if n < 100 then [decimalDigit (n / 10), decimalDigit (n % 10)]
  else [decimalDigit (n / 100), decimalDigit (n / 10 % 10), decimalDigit (n % 10)]

/-- A byte vector is an array of numbers. -/
def jsonArray (bs : Bytes) : Bytes :=
  0x5b :: ([0x2c].intercalate (bs.map decimal) ++ [0x5d])

/-- The text of the derived `Serialize`. -/
def AttestationWire.json (m : AttestationWire) : Bytes :=
  ascii "\x7b\"attested_data\":" ++ jsonArray m.attestedData ++
    ascii ",\"notary_signature\":" ++ jsonArray m.notarySignature ++ ascii "\x7d"

example : AttestationWire.json ⟨[0xde, 0xad, 0xbe, 0xef], [1, 2, 3]⟩ =
    ascii "\x7b\"attested_data\":[222,173,190,239],\"notary_signature\":[1,2,3]\x7d" := by
  decide

theorem length_decimal : ∀ b, 1 ≤ (decimal b).length ∧ (decimal b).length ≤ 3 := by
  decide +kernel

theorem length_intercalate_decimal (bs : Bytes) :
    2 * bs.length ≤ ([0x2c].intercalate (bs.map decimal)).length + 1 ∧
      ([0x2c].intercalate (bs.map decimal)).length ≤ 4 * bs.length := by
  induction bs with
  | nil => simp
  | cons b bs ih =>
    have hb := length_decimal b
    cases bs with
    | nil =>
      rw [List.map_singleton, List.intercalate_singleton, List.length_singleton]
      omega
    | cons c bs =>
      simp only [List.map_cons, List.intercalate_cons_cons, List.length_append,
        List.length_cons, List.length_nil] at ih ⊢
      omega

theorem length_jsonArray (bs : Bytes) :
    2 * bs.length + 1 ≤ (jsonArray bs).length ∧ (jsonArray bs).length ≤ 4 * bs.length + 2 := by
  have h := length_intercalate_decimal bs
  simp only [jsonArray, List.length_cons, List.length_append, List.length_nil]
  omega

theorem AttestationWire.length_json (m : AttestationWire) :
    2 * (m.attestedData.length + m.notarySignature.length) + 40 ≤ m.json.length ∧
      m.json.length ≤ 4 * (m.attestedData.length + m.notarySignature.length) + 42 := by
  have hdata := length_jsonArray m.attestedData
  have hsignature := length_jsonArray m.notarySignature
  have hlits : (ascii "\x7b\"attested_data\":").length = 17 ∧
      (ascii ",\"notary_signature\":").length = 20 ∧ (ascii "\x7d").length = 1 := by decide
  simp only [json, List.length_append]
  omega

def ofDecimal (ds : Bytes) : UInt8 :=
  .ofNat (ds.foldl (fun n d => 10 * n + (d.toNat - 0x30)) 0)

def ofJsonArray (bs : Bytes) : Bytes × Bytes :=
  let body := (bs.drop 1).takeWhile (· != 0x5d)
  (if body = [] then [] else (body.splitOn 0x2c).map ofDecimal, bs.drop (body.length + 2))

/-- Serializing to memory cannot fail. -/
def AttestationWire.toVec (m : AttestationWire) : Except Unit Bytes := .ok m.json

/-- Undoes `toVec`, which is all that is asked of the library's reader.  The library takes other
spellings of a message besides. -/
def AttestationWire.ofJson (bs : Bytes) : Except Unit AttestationWire :=
  let (attestedData, rest) := ofJsonArray (bs.drop 17)
  let (notarySignature, _) := ofJsonArray (rest.drop 20)
  let m : AttestationWire := ⟨attestedData, notarySignature⟩
  if m.json = bs then .ok m else .error ()

theorem ofDecimal_decimal : ∀ b, ofDecimal (decimal b) = b := by decide +kernel

theorem all_isAsciiDigit_decimal : ∀ b, (decimal b).all isAsciiDigit = true := by decide +kernel

theorem isAsciiDigit_of_mem_decimal {b d : UInt8} (h : d ∈ decimal b) : isAsciiDigit d = true :=
  List.all_eq_true.mp (all_isAsciiDigit_decimal b) d h

theorem digit_or_comma_of_mem {bs : Bytes} {x : UInt8}
    (h : x ∈ [0x2c].intercalate (bs.map decimal)) : isAsciiDigit x = true ∨ x = 0x2c := by
  induction bs with
  | nil => simp at h
  | cons b bs ih =>
    cases bs with
    | nil =>
      rw [List.map_singleton, List.intercalate_singleton] at h
      exact .inl (isAsciiDigit_of_mem_decimal h)
    | cons c bs =>
      rw [List.map_cons, List.map_cons, List.intercalate_cons_cons, List.mem_append,
        List.mem_append, List.mem_singleton] at h
      rcases h with (h | h) | h
      · exact .inl (isAsciiDigit_of_mem_decimal h)
      · exact .inr h
      · exact ih h

theorem ofJsonArray_jsonArray (bs rest : Bytes) :
    ofJsonArray (jsonArray bs ++ rest) = (bs, rest) := by
  have hbody : (([0x2c].intercalate (bs.map decimal) ++ [0x5d]) ++ rest).takeWhile (· != 0x5d) =
      [0x2c].intercalate (bs.map decimal) := by
    rw [List.append_assoc, List.takeWhile_append_of_pos]
    · simp
    · intro x hx
      rcases digit_or_comma_of_mem hx with hd | rfl
      · rw [bne_iff_ne]
        rintro rfl
        simp [isAsciiDigit] at hd
      · rfl
  have hvals : (if [0x2c].intercalate (bs.map decimal) = [] then []
      else (([0x2c].intercalate (bs.map decimal)).splitOn 0x2c).map ofDecimal) = bs := by
    cases bs with
    | nil => rfl
    | cons b bs =>
      rw [if_neg, List.splitOn_intercalate _ _ (by simp), List.map_map]
      · exact (List.map_congr_left fun b _ => ofDecimal_decimal b).trans (List.map_id _)
      · intro l hl
        obtain ⟨b, -, rfl⟩ := List.mem_map.mp hl
        intro h
        exact absurd (isAsciiDigit_of_mem_decimal h) (by decide)
      · intro he
        have hlen := (length_intercalate_decimal (b :: bs)).1
        rw [he, List.length_cons, List.length_nil] at hlen
        omega
  rw [ofJsonArray, jsonArray, List.cons_append, List.drop_one, List.tail_cons, hbody]
  simp only [hvals, List.drop_succ_cons, List.append_assoc]
  rw [List.drop_append]
  simp

theorem AttestationWire.ofJson_json (m : AttestationWire) : ofJson m.json = .ok m := by
  have hfirst : m.json.drop 17 = jsonArray m.attestedData ++
      (ascii ",\"notary_signature\":" ++ (jsonArray m.notarySignature ++ ascii "\x7d")) := by
    rw [json, List.append_assoc, List.append_assoc, List.append_assoc]
    rfl
  have hsecond : (ascii ",\"notary_signature\":" ++
      (jsonArray m.notarySignature ++ ascii "\x7d")).drop 20 =
        jsonArray m.notarySignature ++ ascii "\x7d" := rfl
  simp only [ofJson, hfirst, ofJsonArray_jsonArray, hsecond, if_true]

theorem AttestationWire.ofJson_of_toVec {m : AttestationWire} {json : Bytes}
    (h : m.toVec = .ok json) : ofJson json = .ok m := by
  obtain rfl := Except.ok.inj h
  exact m.ofJson_json

section Messages

variable {α ε : Type} {toVec : α → Except ε Bytes} {fromSlice : Bytes → Except ε α}

/-- What was written is read back, however it is split, exactly when no message is longer
than the reader allows. -/
theorem readMsgs_writeMsgs_iff (hjson : ∀ m json, toVec m = .ok json → fromSlice json = .ok m)
    {ms : List α} {bs : Bytes} (hw : writeMsgs toVec ms = .ok bs) :
    (∀ r : ByteStream, r.bytes = bs →
      ∃ t, readMsgs fromSlice ms.length r = .ok (ms, t) ∧ t.bytes = []) ↔
    ∀ m ∈ ms, ∀ json, toVec m = .ok json → json.length ≤ maxMsgSize := by
  obtain ⟨jsons, hjsons, hbs⟩ := writeMsgs_eq_ok.mp hw
  have hread : ∀ r : ByteStream, r.bytes = bs →
      ((∃ t, readMsgs fromSlice ms.length r = .ok (ms, t) ∧ t.bytes = []) ↔
        ∀ json ∈ jsons, json.length ≤ maxMsgSize) := fun r hr =>
    readMsgs_frames hjson hjsons (by rw [hr, hbs, List.nil_append, List.append_nil])
  rw [forall₂_bounded hjsons]
  constructor
  · intro h
    exact (hread _ (ByteStream.bytes_ofBytes bs)).mp (h _ (ByteStream.bytes_ofBytes bs))
  · intro h r hr
    exact (hread r hr).mpr h

end Messages

theorem readMsgs_writeMsgs_iff_run :
    ∃ r t : ByteStream, r.segments.map List.length = [2, 30, 66] ∧
      readMsgs AttestationWire.ofJson 2 r = .ok ([⟨[0xde, 7], [9]⟩, ⟨[], []⟩], t) ∧
      t.bytes = [] := by
  obtain ⟨bs, hw, hlen⟩ : ∃ bs,
      writeMsgs AttestationWire.toVec [⟨[0xde, 7], [9]⟩, ⟨[], []⟩] = .ok bs ∧ bs.length = 98 :=
    ⟨_, rfl, by decide⟩
  have hne : ∀ s ∈ [bs.take 2, (bs.drop 2).take 30, (bs.drop 2).drop 30], s ≠ [] := by
    simp [← List.length_eq_zero_iff, hlen]
  have hsmall : ∀ m ∈ [(⟨[0xde, 7], [9]⟩ : AttestationWire), ⟨[], []⟩], ∀ json,
      m.toVec = .ok json → json.length ≤ maxMsgSize := by
    rintro m hm json ⟨⟩
    apply m.length_json.2.trans
    have hle : m.attestedData.length + m.notarySignature.length ≤ 3 := by
      revert m
      simp
    rw [maxMsgSize]
    omega
  obtain ⟨t, hread, hrest⟩ :=
    (readMsgs_writeMsgs_iff (fun _ _ => AttestationWire.ofJson_of_toVec) hw).mpr hsmall
      ⟨_, hne⟩ (by
        rw [ByteStream.bytes, List.flatten_cons, List.flatten_cons, List.flatten_singleton,
          List.take_append_drop, List.take_append_drop])
  exact ⟨_, t, by simp [hlen], hread, hrest⟩

theorem exists_zeros (n k : Nat) :
    ∃ m : AttestationWire, m.attestedData.length = n ∧ m.notarySignature.length = k :=
  ⟨⟨List.replicate n 0, List.replicate k 0⟩, List.length_replicate, List.length_replicate⟩

/-- The writer sends a record of 6 MiB, and the reader refuses it. -/
theorem readMsgs_refuses_written :
    ∃ m : AttestationWire, ∃ bs, ∃ r : ByteStream,
      (∀ m json, m.toVec = .ok json → AttestationWire.ofJson json = .ok m) ∧
      writeMsgs AttestationWire.toVec [m] = .ok bs ∧ r.bytes = bs ∧
      ∃ detail, readMsgs AttestationWire.ofJson 1 r = .error (.wireProtocol detail) := by
  obtain ⟨m, hdata, hsignature⟩ := exists_zeros (6 * 1024 * 1024) 65
  have hlen := m.length_json
  rw [hdata, hsignature] at hlen
  have hu32 : m.json.length < 2 ^ 32 := by omega
  have hbytes : (ByteStream.ofBytes (frame m.json)).bytes = frame m.json ++ [] := by simp
  have hread := readMsg_frame AttestationWire.ofJson hu32 hbytes
  rw [if_neg (by rw [maxMsgSize]; omega)] at hread
  refine ⟨m, frame m.json, .ofBytes (frame m.json),
    fun _ _ => AttestationWire.ofJson_of_toVec, ?_, ByteStream.bytes_ofBytes _, ?_⟩
  · exact writeMsgs_eq_ok.mpr ⟨[m.json], .cons ⟨rfl, hu32⟩ .nil, by simp⟩
  · rw [readMsgs, hread]
    exact ⟨_, rfl⟩

end Libid.Transcript
