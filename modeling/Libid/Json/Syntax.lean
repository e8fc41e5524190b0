import Libid.Base.Ascii

/-! JSON texts as trees that keep every byte: whitespace, escapes and number
spellings included.  Strings are kept as bytes, so every UTF-8 text has its tree;
the trees do not ask that the bytes be UTF-8. -/

namespace Libid.Json

def isWs (b : UInt8) : Bool := b == 0x20 || b == 0x09 || b == 0x0a || b == 0x0d

structure Ws where
  bytes : Bytes
  ws : ∀ b ∈ bytes, isWs b

def Ws.empty : Ws := ⟨[], by simp⟩

def quote : UInt8 := 0x22

def backslash : UInt8 := 0x5c

/-- What may follow a backslash, but for `u`. -/
def escapes : Bytes := ascii "\"\\/bfnrt"

inductive StrChar
  | plain (b : UInt8) (h : 0x20 ≤ b ∧ b ≠ quote ∧ b ≠ backslash)
  | escape (b : UInt8) (h : b ∈ escapes)
  | unicode (digits : Bytes) (h : digits.length = 4 ∧ ∀ b ∈ digits, (hexDigit b).isSome)

def StrChar.bytes : StrChar → Bytes
  | .plain b _ => [b]
  | .escape b _ => [backslash, b]
  | .unicode digits _ => backslash :: 0x75 :: digits

/-- A string, as what stands between its quotes. -/
structure Str where
  chars : List StrChar

namespace Str

def text (s : Str) : Bytes := s.chars.flatMap StrChar.bytes

def token (s : Str) : Bytes := quote :: (s.text ++ [quote])

@[simp] theorem length_token (s : Str) : s.token.length = s.text.length + 2 := by
  simp [token]

end Str

structure IsDigits (ds : Bytes) : Prop where
  ne_nil : ds ≠ []
  digits : ∀ b ∈ ds, isAsciiDigit b

/-- A number, in its three parts; the last two may be empty. -/
structure Number where
  negative : Bool
  int : Bytes
  frac : Bytes
  exp : Bytes
  int_ok : IsDigits int ∧ (int.length = 1 ∨ int[0]? ≠ some 0x30)
  frac_ok : frac = [] ∨ ∃ ds, frac = 0x2e :: ds ∧ IsDigits ds
  exp_ok : exp = [] ∨ ∃ e sign ds, exp = e :: (sign ++ ds) ∧ (e = 0x65 ∨ e = 0x45) ∧
    (sign = [] ∨ sign = [0x2b] ∨ sign = [0x2d]) ∧ IsDigits ds

def Number.bytes (n : Number) : Bytes :=
  (if n.negative then [0x2d] else []) ++ (n.int ++ (n.frac ++ n.exp))

inductive Atom
  | null
  | true
  | false
  | number (n : Number)

def Atom.bytes : Atom → Bytes
  | .null => ascii "null"
  | .true => ascii "true"
  | .false => ascii "false"
  | .number n => n.bytes

structure Key where
  before : Ws
  name : Str
  after : Ws

/-- What a tree stands for: a value, or what an array or an object holds. -/
inductive Kind
  | value
  | elements
  | members

inductive Tree : Kind → Type
  | atom (a : Atom) : Tree .value
  | string (s : Str) : Tree .value
  | emptyArray (ws : Ws) : Tree .value
  | array (es : Tree .elements) : Tree .value
  | emptyObject (ws : Ws) : Tree .value
  | object (ms : Tree .members) : Tree .value
  | lastElement (before : Ws) (v : Tree .value) (after : Ws) : Tree .elements
  | element (before : Ws) (v : Tree .value) (after : Ws) (rest : Tree .elements) : Tree .elements
  | lastMember (key : Key) (before : Ws) (v : Tree .value) (after : Ws) : Tree .members
  | member (key : Key) (before : Ws) (v : Tree .value) (after : Ws) (rest : Tree .members) :
      Tree .members

abbrev Value := Tree .value

def Key.bytes (k : Key) : Bytes := k.before.bytes ++ (k.name.token ++ k.after.bytes)

def Tree.bytes {k : Kind} : Tree k → Bytes
  | .atom a => a.bytes
  | .string s => s.token
  | .emptyArray ws => 0x5b :: (ws.bytes ++ [0x5d])
  | .array es => 0x5b :: (es.bytes ++ [0x5d])
  | .emptyObject ws => 0x7b :: (ws.bytes ++ [0x7d])
  | .object ms => 0x7b :: (ms.bytes ++ [0x7d])
  | .lastElement before v after => before.bytes ++ (v.bytes ++ after.bytes)
  | .element before v after rest =>
    before.bytes ++ (v.bytes ++ (after.bytes ++ 0x2c :: rest.bytes))
  | .lastMember key before v after =>
    key.bytes ++ 0x3a :: (before.bytes ++ (v.bytes ++ after.bytes))
  | .member key before v after rest =>
    key.bytes ++ 0x3a :: (before.bytes ++ (v.bytes ++ (after.bytes ++ 0x2c :: rest.bytes)))

structure Text where
  before : Ws
  value : Value
  after : Ws

def Text.bytes (t : Text) : Bytes := t.before.bytes ++ (t.value.bytes ++ t.after.bytes)

/-- A member of an object, with the offsets of its key, its colon and its value. -/
structure Member where
  start : Nat
  name : Str
  colon : Nat
  valueAt : Nat
  value : Value

def Member.close (m : Member) : Nat := m.start + m.name.text.length + 1

/-- The members of a tree whose first byte is at `o`, at every depth. -/
def Tree.members {k : Kind} (o : Nat) : Tree k → List Member
  | .atom _ | .string _ | .emptyArray _ | .emptyObject _ => []
  | .array es => es.members (o + 1)
  | .object ms => ms.members (o + 1)
  | .lastElement before v _ => v.members (o + before.bytes.length)
  | .element before v after rest =>
    v.members (o + before.bytes.length) ++
      rest.members (o + before.bytes.length + v.bytes.length + after.bytes.length + 1)
  | .lastMember key before v _ =>
    let colon := o + key.bytes.length
    let valueAt := colon + 1 + before.bytes.length
    ⟨o + key.before.bytes.length, key.name, colon, valueAt, v⟩ :: v.members valueAt
  | .member key before v after rest =>
    let colon := o + key.bytes.length
    let valueAt := colon + 1 + before.bytes.length
    ⟨o + key.before.bytes.length, key.name, colon, valueAt, v⟩ ::
      (v.members valueAt ++
        rest.members (valueAt + v.bytes.length + after.bytes.length + 1))

def Text.members (t : Text) : List Member := t.value.members t.before.bytes.length

end Libid.Json
