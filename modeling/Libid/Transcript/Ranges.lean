import Libid.Transcript.Chunked

/-! Byte-range helpers for selective disclosure: headers, response bodies and
JSON members, as offsets into a raw transcript.  A `&str` argument is its UTF-8
bytes, which are all the code reads of it. -/

namespace Libid.Transcript

def headerNeedle (name : Bytes) : Bytes := crlf ++ name ++ ascii ": "

def findHeaderRange (data name : Bytes) : Option Range := do
  let needle := headerNeedle name
  let start ← windowsPosition needle.length (eqIgnoreAsciiCase · needle) data
  let valueStart := start + needle.length
  let rest ← getFrom data valueStart
  let pos ← windowsPosition 2 (· == crlf) rest
  return ⟨valueStart, valueStart + pos⟩

def extractHeader (data name : Bytes) : Option Bytes :=
  (findHeaderRange data name).map fun range => fromUtf8Lossy (slice data range)

def headBoundary : Bytes := crlf ++ crlf

def findResponseBodyRange (recv : Bytes) : Option Range :=
  (windowsPosition headBoundary.length (· == headBoundary) recv).map fun pos =>
    ⟨pos + headBoundary.length, recv.length⟩

/-- Whether the `Transfer-Encoding` header the code reads says `chunked`. -/
def isChunked (recv : Bytes) : Bool :=
  match extractHeader recv (ascii "Transfer-Encoding") with
  | some te => ascii "chunked" <:+: te
  | none => false

def extractResponseBody (recv : Bytes) : Except Error Bytes :=
  match findResponseBodyRange recv with
  | none => .error (.transcript "no response body found")
  | some range =>
    let rawBody := slice recv range
    if isChunked recv then decodeChunkedBody rawBody else .ok rawBody

structure JsonMember where
  member : Range
  value : Range
  deriving DecidableEq

def quote : UInt8 := 0x22

def colon : UInt8 := 0x3a

def isJsonWhitespace (b : UInt8) : Bool := b == 0x20 || b == 0x09 || b == 0x0a || b == 0x0d

def findFirst (haystack needle : Bytes) : Option Nat :=
  windowsPosition needle.length (· == needle) haystack

def skipJsonWhitespace (body : Bytes) (pos : Nat) : Nat :=
  match h : body[pos]? with
  | some b => if isJsonWhitespace b then skipJsonWhitespace body (pos + 1) else pos
  | none => pos
termination_by body.length - pos
decreasing_by
  have := (List.getElem?_eq_some_iff.mp h).1
  omega

def quotedKey (field : Bytes) : Bytes := quote :: field ++ [quote]

/-- The loop of `key_and_value`, from offset `start`. -/
def keyAndValueFrom (body key : Bytes) (quoted : Bool) (start : Nat) : Option (Nat × Nat) :=
  match _h : getFrom body start with
  | none => none
  | some rest =>
    match findFirst rest key with
    | none => none
    | some i =>
      let found := i + start
      let colonAt := skipJsonWhitespace body (found + key.length)
      let value := skipJsonWhitespace body (colonAt + 1)
      if body[colonAt]? = some colon ∧ (quoted = false ∨ body[value]? = some quote) then
        some (found, value)
      else keyAndValueFrom body key quoted (found + 1)
termination_by body.length + 1 - start
decreasing_by
  have := (getFrom_eq_some.mp _h).1
  omega

def keyAndValue (body field : Bytes) (quoted : Bool) : Option (Nat × Nat) :=
  keyAndValueFrom body (quotedKey field) quoted 0

def JsonMember.inBody (body field : Bytes) : Option JsonMember := do
  let (start, quoteAt) ← keyAndValue body field true
  let value := quoteAt + 1
  let rest ← getFrom body value
  let pos ← rest.findIdx? (· == quote)
  let close := pos + value
  return { member := ⟨start, close + 1⟩, value := ⟨value, close⟩ }

def findJsonSnippetRange (body field : Bytes) : Option Range :=
  (JsonMember.inBody body field).map (·.member)

def requireContiguous (raw decoded : Bytes) : Option Unit := if raw = decoded then some () else none

def JsonMember.inResponse (recv fieldName : Bytes) : Option JsonMember := do
  let bodyRange ← findResponseBodyRange recv
  let rawBody := slice recv bodyRange
  let decodedBody ← (extractResponseBody recv).toOption
  let decoded ← inBody decodedBody fieldName
  let raw ← inBody rawBody fieldName
  requireContiguous (← getRange rawBody raw.member) (← getRange decodedBody decoded.member)
  return {
    member := raw.member.shift bodyRange.start
    value := raw.value.shift bodyRange.start }

/-- A bare number member: `"field":<digits>`, then `,` or `}`. -/
def findJsonBareSnippetRange (body field : Bytes) : Option Range := do
  let (start, digits) ← keyAndValue body field false
  let rest ← getFrom body digits
  let width := (rest.takeWhile isAsciiDigit).length
  if width = 0 then none
  else if width > 1 ∧ rest[0]? = some 0x30 then none
  else
    let term := skipJsonWhitespace body (digits + width)
    if body[term]? = some 0x2c ∨ body[term]? = some 0x7d then some ⟨start, term + 1⟩ else none

def computeFieldSnippetRange (recv fieldName : Bytes) : Option Range :=
  (JsonMember.inResponse recv fieldName).map (·.member)

def computeIdSnippetRange (recv fieldName : Bytes) (quoted : Bool) : Option Range :=
  if quoted then computeFieldSnippetRange recv fieldName
  else do
    let bodyRange ← findResponseBodyRange recv
    let rawBody := slice recv bodyRange
    let decodedBody ← (extractResponseBody recv).toOption
    let decodedRange ← findJsonBareSnippetRange decodedBody fieldName
    let rawSnippetRange ← findJsonBareSnippetRange rawBody fieldName
    requireContiguous (← getRange rawBody rawSnippetRange) (← getRange decodedBody decodedRange)
    return rawSnippetRange.shift bodyRange.start

end Libid.Transcript
