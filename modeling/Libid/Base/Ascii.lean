import Libid.Base.Bytes

namespace Libid

/-- A fact about every byte is a finite check. -/
instance decidableForallByte {p : UInt8 → Prop} [DecidablePred p] : Decidable (∀ b, p b) :=
  decidable_of_iff (∀ i : Fin 256, p (.ofNat i)) <| by
    constructor
    · intro h b
      simpa using h ⟨b.toNat, b.toNat_lt⟩
    · intro h i
      exact h _

def isAsciiDigit (b : UInt8) : Bool := 0x30 ≤ b && b ≤ 0x39

def isAsciiAlphabetic (b : UInt8) : Bool := (0x41 ≤ b && b ≤ 0x5a) || (0x61 ≤ b && b ≤ 0x7a)

def toAsciiLowercase (b : UInt8) : UInt8 := if 0x41 ≤ b && b ≤ 0x5a then b + 0x20 else b

def eqIgnoreAsciiCase (x y : Bytes) : Bool :=
  x.map toAsciiLowercase == y.map toAsciiLowercase

def hexDigit (b : UInt8) : Option Nat :=
  if 0x30 ≤ b && b ≤ 0x39 then some (b - 0x30).toNat
  else if 0x61 ≤ b && b ≤ 0x66 then some (b - 0x61 + 10).toNat
  else if 0x41 ≤ b && b ≤ 0x46 then some (b - 0x41 + 10).toNat
  else none

def isUtf8Cont (b : UInt8) : Bool := 0x80 ≤ b && b ≤ 0xbf

/-- Which second bytes may follow `b` in a three-byte sequence. -/
def isUtf8Second3 (b next : UInt8) : Bool :=
  (b == 0xe0 && 0xa0 ≤ next && next ≤ 0xbf) ||
  (0xe1 ≤ b && b ≤ 0xec && isUtf8Cont next) ||
  (b == 0xed && 0x80 ≤ next && next ≤ 0x9f) ||
  (0xee ≤ b && b ≤ 0xef && isUtf8Cont next)

def isUtf8Second4 (b next : UInt8) : Bool :=
  (b == 0xf0 && 0x90 ≤ next && next ≤ 0xbf) ||
  (0xf1 ≤ b && b ≤ 0xf3 && isUtf8Cont next) ||
  (b == 0xf4 && 0x80 ≤ next && next ≤ 0x8f)

/-- How many bytes after the leading byte `b` the next piece takes, and whether
the piece is a character or a maximal ill-formed run.  Past the end a byte
reads as zero, which continues nothing. -/
def utf8Piece (b : UInt8) (rest : Bytes) : Nat × Bool :=
  let at' (i : Nat) : UInt8 := rest.getD i 0
  if b < 0x80 then (0, true)
  else if 0xc2 ≤ b && b ≤ 0xdf then
    if isUtf8Cont (at' 0) then (1, true) else (0, false)
  else if 0xe0 ≤ b && b ≤ 0xef then
    if isUtf8Second3 b (at' 0) then
      if isUtf8Cont (at' 1) then (2, true) else (1, false)
    else (0, false)
  else if 0xf0 ≤ b && b ≤ 0xf4 then
    if isUtf8Second4 b (at' 0) then
      if isUtf8Cont (at' 1) then
        if isUtf8Cont (at' 2) then (3, true) else (2, false)
      else (1, false)
    else (0, false)
  else (0, false)

/-- `owed` bytes of the current piece are still to come; they are kept when the
piece is a character and dropped when `U+FFFD` already stands for it. -/
def fromUtf8LossyFrom (owed : Nat) (keep : Bool) : Bytes → Bytes
  | [] => []
  | b :: rest =>
    match owed with
    | owed + 1 =>
      if keep then b :: fromUtf8LossyFrom owed keep rest else fromUtf8LossyFrom owed keep rest
    | 0 =>
      let (more, valid) := utf8Piece b rest
      if valid then b :: fromUtf8LossyFrom more true rest
      else [0xef, 0xbf, 0xbd] ++ fromUtf8LossyFrom more false rest

/-- The UTF-8 bytes of `String::from_utf8_lossy(data)`. -/
def fromUtf8Lossy (data : Bytes) : Bytes := fromUtf8LossyFrom 0 true data

end Libid
