import Libid.Base.Stream
import Libid.Base.Utf8
import Libid.Ceremony.TokenExchange

/-! The redirect that hands a capture its authorization code, and the form encoding that the
code comes in and goes out in. -/

namespace Libid.Tlsn

/-! ### `capture_ceremony.rs` -/

/-- The bytes that stand for themselves: letters, digits and `-._~`. -/
def isUnreserved (b : UInt8) : Bool :=
  isAsciiAlphabetic b || isAsciiDigit b || b == 0x2d || b == 0x2e || b == 0x5f || b == 0x7e

def upperDigit (n : Nat) : UInt8 := if n < 10 then .ofNat (0x30 + n) else .ofNat (0x37 + n)

/-- `format!("%{b:02X}")`. -/
def percent (b : UInt8) : Bytes := [0x25, upperDigit (b.toNat / 16), upperDigit (b.toNat % 16)]

def formEncode (value : Bytes) : Bytes :=
  value.flatMap fun b => if isUnreserved b then [b] else percent b

/-- `u8::from_str_radix(hex, 16)`, which takes a plus sign before its digits. -/
def fromHexPair (x y : UInt8) : Option UInt8 :=
  if x = 0x2b then (hexDigit y).map UInt8.ofNat
  else do
    let high ← hexDigit x
    let low ← hexDigit y
    return .ofNat (16 * high + low)

def formByte (b : UInt8) : UInt8 := if b = 0x2b then 0x20 else b

/-- The loop of `form_decode`.  A percent sign without two bytes behind it is kept. -/
def formDecodeBytes : Bytes → Bytes
  | b :: x :: y :: rest =>
    if b = 0x25 then
      match fromHexPair x y with
      | some c => c :: formDecodeBytes rest
      | none => b :: formDecodeBytes (x :: y :: rest)
    else formByte b :: formDecodeBytes (x :: y :: rest)
  | bs => bs.map formByte

def formDecode (value : Bytes) : Bytes := fromUtf8Lossy (formDecodeBytes value)

/-- `s.split_once(sep)`. -/
def splitOnce (sep : UInt8) (s : Bytes) : Option (Bytes × Bytes) :=
  if sep ∈ s then some (s.takeWhile (· ≠ sep), (s.dropWhile (· ≠ sep)).drop 1) else none

structure Redirect where
  code : Option Bytes
  state : Option Bytes

/-- A turn of the loop over the pairs of a query: the last of a name counts. -/
def Redirect.take (r : Redirect) (pair : Bytes) : Redirect :=
  let (k, v) := (splitOnce 0x3d pair).getD (pair, [])
  if k = ascii "code" then { r with code := some (formDecode v) }
  else if k = ascii "state" then { r with state := some (formDecode v) }
  else r

def response (status body : String) : Bytes :=
  ascii ("HTTP/1.1 " ++ status ++ "\r\ncontent-type: text/plain\r\ncontent-length: " ++
    toString body.length ++ "\r\nconnection: close\r\n\r\n" ++ body)

def refused : Bytes :=
  response "400 Bad Request" "No code, or the wrong state. Try the URL again."

theorem hexDigit_upperDigit : ∀ n < 16, hexDigit (upperDigit n) = some n := by decide

theorem upperDigit_ne_plus : ∀ n < 16, upperDigit n ≠ 0x2b := by decide

theorem isUnreserved_ne : ∀ {b : UInt8}, isUnreserved b = true → b ≠ 0x25 ∧ b ≠ 0x2b := by
  decide +kernel

theorem formDecodeBytes_cons {b : UInt8} (hb : b ≠ 0x25 ∧ b ≠ 0x2b) (rest : Bytes) :
    formDecodeBytes (b :: rest) = b :: formDecodeBytes rest := by
  have hplain : formByte b = b := if_neg hb.2
  match rest with
  | [] => simp [formDecodeBytes, hplain]
  | [x] => simp [formDecodeBytes, hplain]
  | x :: y :: rest => rw [formDecodeBytes, if_neg hb.1, hplain]

theorem fromHexPair_percent (b : UInt8) :
    fromHexPair (upperDigit (b.toNat / 16)) (upperDigit (b.toNat % 16)) = some b := by
  have hb := b.toNat_lt
  have hsum : 16 * (b.toNat / 16) + b.toNat % 16 = b.toNat := by omega
  rw [fromHexPair, if_neg (upperDigit_ne_plus _ (by omega)), hexDigit_upperDigit _ (by omega),
    hexDigit_upperDigit _ (by omega)]
  simp only [Option.bind_eq_bind, Option.bind_some, Option.pure_def, hsum, UInt8.ofNat_toNat]

theorem formDecodeBytes_percent (b : UInt8) (rest : Bytes) :
    formDecodeBytes (percent b ++ rest) = b :: formDecodeBytes rest := by
  rw [percent, List.cons_append, List.cons_append, List.cons_append, List.nil_append,
    formDecodeBytes, if_pos rfl, fromHexPair_percent]

theorem formDecodeBytes_formEncode (value : Bytes) :
    formDecodeBytes (formEncode value) = value := by
  induction value with
  | nil => rfl
  | cons b value ih =>
    rw [formEncode, List.flatMap_cons, ← formEncode]
    split
    case isTrue hb =>
      rw [List.singleton_append, formDecodeBytes_cons (isUnreserved_ne hb), ih]
    case isFalse => rw [formDecodeBytes_percent, ih]

def isEncoded (b : UInt8) : Bool := isUnreserved b || b == 0x25

theorem isEncoded_upperDigit : ∀ n < 16, isEncoded (upperDigit n) = true := by decide

theorem isEncoded_of_mem {value : Bytes} {b : UInt8} (h : b ∈ formEncode value) :
    isEncoded b = true := by
  obtain ⟨a, -, hb⟩ := List.mem_flatMap.mp h
  have ha := a.toNat_lt
  split at hb
  case isTrue hun =>
    rw [List.mem_singleton] at hb
    rw [hb, isEncoded, hun, Bool.true_or]
  case isFalse =>
    simp only [percent, List.mem_cons, List.not_mem_nil, or_false] at hb
    rcases hb with rfl | rfl | rfl
    · rfl
    · exact isEncoded_upperDigit _ (by omega)
    · exact isEncoded_upperDigit _ (by omega)

theorem notMem_formEncode {b : UInt8} (hb : isEncoded b = false) (value : Bytes) :
    b ∉ formEncode value := fun h => by
  rw [isEncoded_of_mem h] at hb
  cases hb

def formPair (p : Bytes × Bytes) : Bytes := formEncode p.1 ++ 0x3d :: formEncode p.2

def formQuery (params : List (Bytes × Bytes)) : Bytes :=
  [0x26].intercalate (params.map formPair)

theorem splitOnce_of_notMem {sep : UInt8} {x : Bytes} (h : sep ∉ x) (y : Bytes) :
    splitOnce sep (x ++ sep :: y) = some (x, y) := by
  have hx : ∀ b ∈ x, decide (b ≠ sep) = true := fun b hb =>
    decide_eq_true fun heq => h (heq ▸ hb)
  rw [splitOnce, if_pos (by simp), List.takeWhile_append_of_pos hx,
    List.dropWhile_append_of_pos hx]
  simp

theorem splitOnce_formPair (p : Bytes × Bytes) :
    splitOnce 0x3d (formPair p) = some (formEncode p.1, formEncode p.2) :=
  splitOnce_of_notMem (notMem_formEncode (by decide) _) _

theorem mem_formPair {p : Bytes × Bytes} {b : UInt8} (h : b ∈ formPair p) :
    isEncoded b = true ∨ b = 0x3d := by
  rcases List.mem_append.mp h with h | h
  · exact .inl (isEncoded_of_mem h)
  · rcases List.mem_cons.mp h with rfl | h
    · exact .inr rfl
    · exact .inl (isEncoded_of_mem h)

theorem amp_notMem_formPair (p : Bytes × Bytes) : 0x26 ∉ formPair p := fun h =>
  absurd (mem_formPair h) (by decide)

theorem mem_formQuery {params : List (Bytes × Bytes)} {b : UInt8} (h : b ∈ formQuery params) :
    isEncoded b = true ∨ b = 0x3d ∨ b = 0x26 := by
  induction params with
  | nil => simp [formQuery] at h
  | cons p params ih =>
    cases params with
    | nil => exact (mem_formPair (p := p) (by simpa [formQuery] using h)).imp_right .inl
    | cons q params =>
      rw [formQuery, List.map_cons, List.map_cons, List.intercalate_cons_cons] at h
      rcases List.mem_append.mp h with h | h
      · rcases List.mem_append.mp h with h | h
        · exact (mem_formPair h).imp_right .inl
        · exact .inr (.inr (List.mem_singleton.mp h))
      · exact ih h

theorem splitOn_formQuery {params : List (Bytes × Bytes)} (hne : params ≠ []) :
    (formQuery params).splitOn 0x26 = params.map formPair := by
  apply List.splitOn_intercalate
  · intro _ hmem
    obtain ⟨p, -, rfl⟩ := List.mem_map.mp hmem
    exact amp_notMem_formPair p
  · simpa using hne

/-- A request for a path with a query, as a browser that was redirected makes it. -/
structure BrowserRequest where
  method : Bytes
  path : Bytes
  params : List (String × String)
  rest : Bytes
  method_printable : ∀ b ∈ method, Ceremony.isPrintable b
  path_printable : ∀ b ∈ path, Ceremony.isPrintable b
  path_query : 0x3f ∉ path

namespace BrowserRequest

def query (r : BrowserRequest) : Bytes := formQuery (r.params.map (Prod.map utf8 utf8))

def target (r : BrowserRequest) : Bytes := r.path ++ 0x3f :: r.query

def line (r : BrowserRequest) : Bytes :=
  r.method ++ 0x20 :: (r.target ++ 0x20 :: ascii "HTTP/1.1")

def bytes (r : BrowserRequest) : Bytes := r.line ++ 0x0d :: 0x0a :: r.rest

/-- The value of a name, where it is given more than once the last of them. -/
def last (params : List (String × String)) (name : String) : Option String :=
  ((params.filter (·.1 = name)).getLast?).map Prod.snd

end BrowserRequest

theorem isPrintable_of_isEncoded : ∀ {b : UInt8}, isEncoded b = true →
    Ceremony.isPrintable b = true := by
  decide +kernel

theorem isPrintable_lt {b : UInt8} (h : Ceremony.isPrintable b = true) : b < 0x80 := by
  rw [Ceremony.isPrintable, Bool.and_eq_true] at h
  have hle : b ≤ 0x7e := of_decide_eq_true h.2
  exact UInt8.lt_of_le_of_lt hle (by decide)

namespace BrowserRequest

/-- A connection that carries the request, and whose first read holds the request line. -/
structure Opens (r : BrowserRequest) (socket : ByteStream) : Prop where
  bytes : socket.bytes = r.bytes
  line : r.line <+: socket.read 8192

end BrowserRequest

end Libid.Tlsn
