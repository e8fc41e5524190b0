import Libid.Base.Ascii
import Libid.Base.Tiling
import Mathlib.Tactic.Ring

/-! Chunked transfer coding: the size-line parser, the loop that joins a body's
chunks, and where the chunks' data octets sit in the raw body. -/

namespace Libid.Transcript

inductive Error
  | transcript (detail : String)
  deriving DecidableEq

/-! ### `httparse::parse_chunk_size` -/

inductive Status (α : Type)
  | Partial
  | Complete (value : α)
  deriving DecidableEq

inductive InvalidChunkSize
  | mk
  deriving DecidableEq

/-- The loop's state: `pos` octets read, `count` of them digits of `size`. -/
structure SizeState where
  pos : Nat
  size : Nat
  count : Nat
  inChunkSize : Bool
  inExt : Bool

/-- One octet at a time.  A digit counts only before the first blank or `;`;
after `;` every octet is skipped until the line's CRLF. -/
def parseChunkSizeFrom (s : SizeState) : Bytes → Except InvalidChunkSize (Status (Nat × Nat))
  | [] => .ok .Partial
  | b :: rest =>
    match if s.inChunkSize then hexDigit b else none with
    | some d =>
      if s.count > 15 then .error .mk
      else
        parseChunkSizeFrom
          { s with pos := s.pos + 1, size := s.size * 16 + d, count := s.count + 1 } rest
    | none =>
      if b = 0x0d then
        match rest with
        | [] => .ok .Partial
        | b' :: _ => if b' = 0x0a then .ok (.Complete (s.pos + 2, s.size)) else .error .mk
      else if b = 0x3b && !s.inExt then
        parseChunkSizeFrom { s with pos := s.pos + 1, inChunkSize := false, inExt := true } rest
      else if (b = 0x09 || b = 0x20) && !s.inExt && !s.inChunkSize then
        parseChunkSizeFrom { s with pos := s.pos + 1 } rest
      else if (b = 0x09 || b = 0x20) && s.inChunkSize then
        parseChunkSizeFrom { s with pos := s.pos + 1, inChunkSize := false } rest
      else if s.inExt then
        parseChunkSizeFrom { s with pos := s.pos + 1 } rest
      else .error .mk

/-- The length of the size line at the front of `buf`, and the size it gives. -/
def parseChunkSize (buf : Bytes) : Except InvalidChunkSize (Status (Nat × Nat)) :=
  parseChunkSizeFrom { pos := 0, size := 0, count := 0, inChunkSize := true, inExt := false } buf

/-! ### `decode_chunked_body` -/

/-- `usize::MAX` on a 64-bit machine. -/
def usizeMax : Nat := 2 ^ 64 - 1

def crlf : Bytes := [0x0d, 0x0a]

def badChunk (detail : String) : Error := .transcript ("chunked body: " ++ detail)

/-- The loop of `decode_chunked_body`: `out` is what it has joined, `rest` what
it has not read.  A slice is shorter than `usize::MAX`, so a sum that overflows
is past its end too, and only the error's text tells the two apart. -/
def decodeChunkedBodyFrom (out rest : Bytes) : Except Error Bytes :=
  match parseChunkSize rest with
  | .error _ => .error (badChunk "chunk size is not hexadecimal")
  | .ok .Partial => .error (badChunk "ends inside a chunk header")
  | .ok (.Complete (headerLen, size)) =>
    if size = 0 then .ok out
    else if size > usizeMax then .error (badChunk "chunk larger than this machine")
    else
      let bodyEnd := headerLen + size
      match getRange rest ⟨headerLen, bodyEnd⟩ with
      | none =>
        if bodyEnd > usizeMax then .error (badChunk "chunk length overflows")
        else .error (badChunk "chunk is shorter than its declared size")
      | some chunk =>
        match h : getRange rest ⟨bodyEnd, bodyEnd + 2⟩ with
        | none => .error (badChunk "ends before a chunk terminator")
        | some after =>
          if after ≠ crlf then .error (badChunk "chunk is not terminated by CRLF")
          else decodeChunkedBodyFrom (out ++ chunk) (rest.drop (bodyEnd + 2))
termination_by rest.length
decreasing_by
  have := (getRange_eq_some.mp h).2.1
  simp only [List.length_drop] at *
  omega

def decodeChunkedBody (raw : Bytes) : Except Error Bytes := decodeChunkedBodyFrom [] raw

/-! ### What a size line can say -/

theorem hexDigit_lt {b : UInt8} {d : Nat} (h : hexDigit b = some d) : d < 16 := by
  have hsmall : ∀ b : UInt8, (hexDigit b).all (· < 16) := by decide +kernel
  simpa [h] using hsmall b

theorem parseChunkSizeFrom_lt {s : SizeState} {raw : Bytes} {h n : Nat}
    (hp : parseChunkSizeFrom s raw = .ok (.Complete (h, n)))
    (hs : s.size < 16 ^ s.count) (hc : s.count ≤ 16) : n < 16 ^ 16 := by
  have hbase : s.size < 16 ^ 16 := Nat.lt_of_lt_of_le hs (Nat.pow_le_pow_right (by decide) hc)
  induction raw generalizing s with
  | nil => simp [parseChunkSizeFrom] at hp
  | cons b rest ih =>
    rw [parseChunkSizeFrom.eq_def] at hp
    simp only at hp
    split at hp
    · rename_i d hd
      have hlt : d < 16 := by
        split at hd
        · exact hexDigit_lt hd
        · simp at hd
      split at hp
      · simp at hp
      · have hstep : s.size * 16 + d < 16 ^ (s.count + 1) := by
          rw [Nat.pow_succ]
          omega
        exact ih hp hstep (by simp only; omega)
          (Nat.lt_of_lt_of_le hstep (Nat.pow_le_pow_right (by decide) (by omega)))
    · repeat' split at hp
      all_goals first
        | simp at hp; done
        | exact ih hp hs hc hbase
        | (obtain ⟨-, rfl⟩ : s.pos + 2 = h ∧ s.size = n := by simpa using hp
           exact hbase)

theorem parseChunkSize_lt {raw : Bytes} {h n : Nat}
    (hp : parseChunkSize raw = .ok (.Complete (h, n))) : n ≤ usizeMax := by
  have := parseChunkSizeFrom_lt hp (by decide) (by decide)
  simp only [usizeMax]
  omega

end Libid.Transcript
