import Libid.Base.Count
import Libid.Base.Utf8
import Libid.Signer.Source
import Libid.Transcript.Headers

/-! The server that answers the fixtures' requests reads until a request is there, in whatever
pieces it comes. -/

namespace Libid.Tlsn

open Signer (Str asBytes isWhitespace trim)
open Transcript

def find (haystack needle : Bytes) : Option Nat :=
  windowsPosition needle.length (· == needle) haystack

def stripPlus : Str → Str
  | '+' :: s => s
  | s => s

/-- `str::parse::<usize>`, of 64 bits. -/
def parseUsize (s : Str) : Option Nat :=
  let digits := stripPlus s
  if digits ≠ [] ∧ digits.all Char.isDigit then
    let n := Nat.ofDigitChars 10 digits 0
    if n < 2 ^ 64 then some n else none
  else none

/-- The two `unwrap`s panic where there is none. -/
def declaredLength (head : Bytes) : Option Nat :=
  let lower := lowercase head
  match find lower (ascii "\r\ncontent-length:") with
  | none => some 0
  | some pos => do
    let rest := lower.drop (pos + 17)
    let stop := (find rest crlf).getD rest.length
    let text ← fromUtf8 (rest.take stop)
    parseUsize (trim text)

/-- A request is there.  The sum panics where it is not of 64 bits. -/
def isComplete (sent : Bytes) : Option Bool :=
  match find sent headBoundary with
  | none => some false
  | some pos => do
    let length ← declaredLength (sent.take pos)
    if pos + 4 + length < 2 ^ 64 then some (decide (pos + 4 + length ≤ sent.length)) else none

inductive Served
  | waiting (sent : Bytes)
  | answered (sent : Bytes)
  | panicked
  deriving DecidableEq

/-- The loop of the server of `exchange`, over what its reads return.  An empty read is the end. -/
def serve (sent : Bytes) : List Bytes → Served
  | [] => .waiting sent
  | read :: reads =>
    if read = [] then .answered sent
    else match isComplete (sent ++ read) with
      | none => .panicked
      | some true => .answered (sent ++ read)
      | some false => serve (sent ++ read) reads

structure SpellsUsize (s : Str) (n : Nat) : Prop where
  digits : ∃ sign digits, s = sign ++ digits ∧ (sign = [] ∨ sign = ['+']) ∧ digits ≠ [] ∧
    (∀ c ∈ digits, c.isDigit = true) ∧ Nat.ofDigitChars 10 digits 0 = n
  lt : n < 2 ^ 64

theorem stripPlus_of_digits {digits : Str} (hdigits : ∀ c ∈ digits, c.isDigit = true) :
    stripPlus digits = digits := by
  rw [stripPlus.eq_def]
  split
  case h_1 => exact absurd (hdigits '+' List.mem_cons_self) (by decide)
  case h_2 => rfl

theorem exists_sign (s : Str) : ∃ sign, (sign = [] ∨ sign = ['+']) ∧ s = sign ++ stripPlus s := by
  rw [stripPlus.eq_def]
  split
  case h_1 => exact ⟨['+'], .inr rfl, rfl⟩
  case h_2 => exact ⟨[], .inl rfl, rfl⟩

theorem parseUsize_eq_some {s : Str} {n : Nat} : parseUsize s = some n ↔ SpellsUsize s n := by
  simp only [parseUsize, Option.ite_none_right_eq_some, List.all_eq_true, Option.some.injEq]
  constructor
  · rintro ⟨⟨hne, hdigits⟩, hlt, rfl⟩
    obtain ⟨sign, hsign, hs⟩ := exists_sign s
    exact ⟨⟨sign, stripPlus s, hs, hsign, hne, hdigits, rfl⟩, hlt⟩
  · rintro ⟨⟨sign, digits, rfl, hsign, hne, hdigits, rfl⟩, hlt⟩
    have hstrip : stripPlus (sign ++ digits) = digits := by
      rcases hsign with rfl | rfl
      · exact stripPlus_of_digits hdigits
      · rfl
    rw [hstrip]
    exact ⟨⟨hne, hdigits⟩, hlt, rfl⟩

def SpellsLength (value : Bytes) (n : Nat) : Prop :=
  ∃ x s y, value = asBytes (x ++ (s ++ y)) ∧ (∀ c ∈ x ++ y, isWhitespace c = true) ∧
    SpellsUsize s n

theorem exists_trim (s : Str) :
    ∃ x y, s = x ++ (trim s ++ y) ∧ ∀ c ∈ x ++ y, isWhitespace c = true := by
  refine ⟨s.takeWhile isWhitespace, (s.dropWhile isWhitespace).rtakeWhile isWhitespace, ?_, ?_⟩
  · rw [trim, List.rdropWhile_append_rtakeWhile, List.takeWhile_append_dropWhile]
  · intro c hc
    rcases List.mem_append.mp hc with hc | hc
    · exact List.mem_takeWhile_imp hc
    · exact List.mem_rtakeWhile_imp hc

theorem trim_append {x s y : Str} (hws : ∀ c ∈ x ++ y, isWhitespace c = true) (hne : s ≠ [])
    (hs : ∀ c ∈ s, isWhitespace c = false) : trim (x ++ (s ++ y)) = s := by
  rw [List.forall_mem_append] at hws
  have hfront : (s ++ y).dropWhile isWhitespace = s ++ y := by
    obtain ⟨c, s, rfl⟩ := List.exists_cons_of_ne_nil hne
    exact List.dropWhile_cons_of_neg (by rw [hs c List.mem_cons_self]; exact Bool.false_ne_true)
  have hback : s.reverse.dropWhile isWhitespace = s.reverse := by
    obtain ⟨s, c, rfl⟩ := List.eq_nil_or_concat s |>.resolve_left hne
    rw [List.concat_eq_append, List.reverse_append]
    exact List.dropWhile_cons_of_neg (by rw [hs c (by simp)]; exact Bool.false_ne_true)
  rw [trim, List.dropWhile_append_of_pos hws.1, hfront, List.rdropWhile, List.reverse_append,
    List.dropWhile_append_of_pos fun c hc => hws.2 c (List.mem_reverse.mp hc), hback,
    List.reverse_reverse]

theorem SpellsUsize.ne_nil {s : Str} {n : Nat} (h : SpellsUsize s n) : s ≠ [] := by
  obtain ⟨sign, digits, rfl, -, hne, -⟩ := h.digits
  exact List.append_ne_nil_of_right_ne_nil sign hne

theorem SpellsUsize.between {s : Str} {n : Nat} (h : SpellsUsize s n) :
    ∀ c ∈ s, 0x2b ≤ c.toNat ∧ c.toNat ≤ 0x39 := by
  obtain ⟨sign, digits, rfl, hsign, -, hdigits, -⟩ := h.digits
  rw [List.forall_mem_append]
  constructor
  · rcases hsign with rfl | rfl
    · exact List.forall_mem_nil _
    · exact List.forall_mem_singleton.mpr (by decide)
  · intro c hc
    obtain ⟨hge, hle⟩ : 0x30 ≤ c.toNat ∧ c.toNat ≤ 0x39 :=
      Char.isDigit_iff_toNat.mp (hdigits c hc)
    exact ⟨by omega, by omega⟩

theorem isWhitespace_of_between {c : Char} (h : 0x2b ≤ c.toNat ∧ c.toNat ≤ 0x39) :
    isWhitespace c = false := by
  obtain ⟨hge, hle⟩ := h
  rw [isWhitespace]
  interval_cases c.toNat <;> rfl

def IsCaseless (c : Char) : Prop := ∀ b : UInt8, b.toNat = c.toNat → isAsciiAlphabetic b = false

theorem isCaseless_of_between {c : Char} (h : 0x2b ≤ c.toNat ∧ c.toNat ≤ 0x39) : IsCaseless c := by
  intro b hb
  rw [← hb] at h
  simp only [isAsciiAlphabetic, UInt8.le_iff_toNat_le]
  grind

theorem isCaseless_of_isWhitespace {c : Char} (h : isWhitespace c = true) : IsCaseless c := by
  intro b hb
  simp only [isWhitespace, ← hb, Bool.or_eq_true, Bool.and_eq_true, decide_eq_true_eq,
    List.contains_iff_mem, List.mem_cons, List.not_mem_nil, or_false] at h
  by_contra halpha
  simp only [isAsciiAlphabetic, Bool.not_eq_false, Bool.or_eq_true, Bool.and_eq_true,
    decide_eq_true_eq, UInt8.le_iff_toNat_le, UInt8.reduceToNat] at halpha
  omega

theorem toAsciiLowercase_of_caseless {b : UInt8} (h : isAsciiAlphabetic b = false) :
    toAsciiLowercase b = b := by
  rw [isAsciiAlphabetic, Bool.or_eq_false_iff] at h
  rw [toAsciiLowercase, h.1, if_neg Bool.false_ne_true]

set_option maxRecDepth 4000 in
theorem isAsciiAlphabetic_toAsciiLowercase : ∀ b : UInt8,
    isAsciiAlphabetic (toAsciiLowercase b) = isAsciiAlphabetic b := by
  decide

theorem isAsciiAlphabetic_lt {b : UInt8} (h : isAsciiAlphabetic b = true) : b < 0x80 := by
  simp only [isAsciiAlphabetic, Bool.or_eq_true, Bool.and_eq_true, decide_eq_true_eq,
    UInt8.le_iff_toNat_le] at h
  rcases h with ⟨-, h⟩ | ⟨-, h⟩
  · exact h.trans_lt (by decide)
  · exact h.trans_lt (by decide)

theorem caseless_of_mem_asBytes {text : Str} (h : ∀ c ∈ text, IsCaseless c) :
    ∀ b ∈ asBytes text, isAsciiAlphabetic b = false := by
  intro b hb
  obtain ⟨c, hc, hmem⟩ := List.mem_flatMap.mp hb
  by_contra halpha
  have hlt := isAsciiAlphabetic_lt (eq_true_of_ne_false halpha)
  exact halpha (h c hc b (toNat_of_mem_utf8EncodeChar hmem hlt).symm)

theorem lowercase_of_caseless {bs : Bytes} (h : ∀ b ∈ bs, isAsciiAlphabetic b = false) :
    lowercase bs = bs :=
  (List.map_congr_left fun b hb => toAsciiLowercase_of_caseless (h b hb)).trans (List.map_id bs)

theorem lowercase_eq_asBytes_iff {value : Bytes} {text : Str} (h : ∀ c ∈ text, IsCaseless c) :
    lowercase value = asBytes text ↔ value = asBytes text := by
  have htext := caseless_of_mem_asBytes h
  constructor
  · intro hvalue
    rw [← hvalue, lowercase_of_caseless]
    intro b hb
    rw [← isAsciiAlphabetic_toAsciiLowercase]
    exact htext _ (hvalue ▸ List.mem_map_of_mem hb)
  · rintro rfl
    exact lowercase_of_caseless htext

theorem parseUsize_fromUtf8 {value : Bytes} {n : Nat} :
    (do let text ← fromUtf8 (lowercase value); parseUsize (trim text)) = some n ↔
      SpellsLength value n := by
  have hcaseless {x s y : Str} {m : Nat} (hws : ∀ c ∈ x ++ y, isWhitespace c = true)
      (hs : SpellsUsize s m) : ∀ c ∈ x ++ (s ++ y), IsCaseless c := by
    rw [List.forall_mem_append] at hws
    rw [List.forall_mem_append, List.forall_mem_append]
    exact ⟨fun c hc => isCaseless_of_isWhitespace (hws.1 c hc),
      fun c hc => isCaseless_of_between (hs.between c hc),
      fun c hc => isCaseless_of_isWhitespace (hws.2 c hc)⟩
  simp only [Option.bind_eq_bind, Option.bind_eq_some_iff, fromUtf8_eq_some, parseUsize_eq_some]
  constructor
  · rintro ⟨text, hvalue, hs⟩
    obtain ⟨x, y, htext, hws⟩ := exists_trim text
    refine ⟨x, trim text, y, (lowercase_eq_asBytes_iff (hcaseless hws hs)).mp ?_, hws, hs⟩
    rw [← htext]
    exact hvalue
  · rintro ⟨x, s, y, rfl, hws, hs⟩
    refine ⟨x ++ (s ++ y), (lowercase_eq_asBytes_iff (hcaseless hws hs)).mpr rfl, ?_⟩
    rwa [trim_append hws hs.ne_nil fun c hc => isWhitespace_of_between (hs.between c hc)]

def lengthName : Bytes := ascii "content-length"

/-- The first field of the name spells the length.  Without one nothing follows the head. -/
def DeclaresLength (h : Head) (n : Nat) : Prop :=
  match h.fields.find? (lowercase ·.name == lengthName) with
  | some f => SpellsLength f.value n
  | none => n = 0

theorem lowercase_line (f : Field) :
    lowercase f.line = lowercase f.name ++ 0x3a :: lowercase f.value := by
  rw [Field.line, lowercase_append]
  rfl

theorem cr_notMem_lowercase {bs : Bytes} (h : 0x0d ∉ bs) : 0x0d ∉ lowercase bs := by
  intro hmem
  obtain ⟨b, hb, hlower⟩ := List.mem_map.mp hmem
  exact h (toAsciiLowercase_eq_cr hlower ▸ hb)

theorem isPrefix_line_lengthName (f : Field) :
    lengthName ++ [0x3a] <+: lowercase f.line ↔ lowercase f.name = lengthName := by
  rw [lowercase_line]
  constructor
  · rintro ⟨t, ht⟩
    rw [List.append_assoc, List.singleton_append] at ht
    exact (append_cons_cancel (colon_notMem_lowercase f.name_colon)
      (by decide) ht.symm).1
  · intro hname
    rw [hname]
    exact ⟨lowercase f.value, by simp⟩

theorem lowercase_fieldLines (fields : List Field) :
    lowercase (fieldLines fields) = joinLines 0x0d [0x0a] (fields.map (lowercase ·.line)) := by
  induction fields with
  | nil => rfl
  | cons f fields ih =>
    rw [fieldLines, List.flatMap_cons, ← fieldLines, lowercase_append, ih, List.map_cons,
      joinLines_cons, lowercase_append]
    rfl

theorem take_find_crlf {value : Bytes} (hvalue : 0x0d ∉ value) (lines : List Bytes) :
    (value ++ joinLines 0x0d [0x0a] lines).take
      ((find (value ++ joinLines 0x0d [0x0a] lines) crlf).getD
        (value ++ joinLines 0x0d [0x0a] lines).length) = value := by
  cases lines with
  | nil =>
    have hnone : find value crlf = none := by
      refine (windowsPosition_beq_eq_none (by decide)).mpr fun i hi => ?_
      exact hvalue (List.mem_of_getElem? (Occurs.getElem? (k := 0) hi rfl))
    simp [joinLines, hnone]
  | cons line lines =>
    have hsome : find (value ++ joinLines 0x0d [0x0a] (line :: lines)) crlf =
        some value.length :=
      (windowsPosition_beq_eq_some (by decide)).mpr (firstAt_crlf hvalue _)
    rw [hsome]
    exact List.take_left

theorem lengthNeedle_eq :
    ascii "\r\ncontent-length:" = 0x0d :: ([0x0a] ++ (lengthName ++ [0x3a])) := by
  decide

theorem find_lengthName {front : Bytes} {x : List Bytes} (hfront : 0x0d ∉ front)
    (hlines : ∀ line ∈ x, 0x0d ∉ line) (hx : ∀ line ∈ x, ¬ lengthName ++ [0x3a] <+: line)
    (value : Bytes) (y : List Bytes) :
    ∃ pos, find (front ++ joinLines 0x0d [0x0a] (x ++ (lengthName ++ 0x3a :: value) :: y))
        (ascii "\r\ncontent-length:") = some pos ∧
      (front ++ joinLines 0x0d [0x0a] (x ++ (lengthName ++ 0x3a :: value) :: y)).drop (pos + 17) =
        value ++ joinLines 0x0d [0x0a] y := by
  have htext : front ++ joinLines 0x0d [0x0a] (x ++ (lengthName ++ 0x3a :: value) :: y) =
      front ++ (joinLines 0x0d [0x0a] x ++
        0x0d :: ([0x0a] ++ (lengthName ++ [0x3a]) ++ (value ++ joinLines 0x0d [0x0a] y))) := by
    simp [joinLines_append, joinLines_cons]
  have hfirst : FirstAt (0x0d :: ([0x0a] ++ (lengthName ++ [0x3a])))
      (front ++ (joinLines 0x0d [0x0a] x ++
        0x0d :: ([0x0a] ++ (lengthName ++ [0x3a]) ++ (value ++ joinLines 0x0d [0x0a] y))))
      (front.length + (joinLines 0x0d [0x0a] x).length) :=
    firstAt_joinLines hfront (by decide) (by decide) hlines hx _
  have hlen : (0x0d :: ([0x0a] ++ (lengthName ++ [0x3a]))).length = 17 := by decide
  refine ⟨front.length + (joinLines 0x0d [0x0a] x).length, ?_, ?_⟩
  · rw [htext, lengthNeedle_eq]
    exact (windowsPosition_beq_eq_some (List.cons_ne_nil _ _)).mpr hfirst
  · rw [htext, ← hlen, ← List.drop_drop, ← List.drop_drop, List.drop_left, List.drop_left]
    exact List.drop_left

theorem find_lengthName_eq_none {front : Bytes} {lines : List Bytes} (hfront : 0x0d ∉ front)
    (hlines : ∀ line ∈ lines, 0x0d ∉ line)
    (hno : ∀ line ∈ lines, ¬ lengthName ++ [0x3a] <+: line) :
    find (front ++ joinLines 0x0d [0x0a] lines) (ascii "\r\ncontent-length:") = none := by
  rw [lengthNeedle_eq]
  refine (windowsPosition_beq_eq_none (List.cons_ne_nil _ _)).mpr fun i hi => ?_
  have hlast : count [0x0d] (0x0d :: ([0x0a] ++ (lengthName ++ [0x3a]))) = 0 := by
    decide
  have hnone : lines.countP (lengthName ++ [0x3a] <+: ·) = 0 := by
    simpa [List.countP_eq_zero] using hno
  have hcr : 0x0d ∉ lengthName ++ [0x3a] := by decide
  have hlf : (0x0d : UInt8) ∉ [0x0a] := by decide
  have hcount := count_joinLines hlf hcr hlines []
  rw [hnone, hlast, ← count_append_of_notMem hfront, count_eq_zero_iff (List.cons_ne_nil _ _),
    isInfix_iff_occurs] at hcount
  have happend := hi.append_left [0x0d] (List.cons_ne_nil _ _)
  rw [List.append_assoc] at happend
  exact hcount ⟨i, happend⟩

theorem declaredLength_eq_some (h : Head) (n : Nat) :
    declaredLength (h.status ++ fieldLines h.fields) = some n ↔ DeclaresLength h n := by
  have hlower : lowercase (h.status ++ fieldLines h.fields) =
      lowercase h.status ++ joinLines 0x0d [0x0a] (h.fields.map (lowercase ·.line)) := by
    rw [lowercase_append, lowercase_fieldLines]
  have hstatus := cr_notMem_lowercase h.status_cr
  have hlines (fields : List Field) : ∀ line ∈ fields.map (lowercase ·.line), 0x0d ∉ line := by
    intro line hline
    obtain ⟨f, -, rfl⟩ := List.mem_map.mp hline
    exact cr_notMem_lowercase f.line_cr
  have hno {fields : List Field}
      (h : ∀ f ∈ fields, (lowercase f.name == lengthName) = false) :
      ∀ line ∈ fields.map (lowercase ·.line), ¬ lengthName ++ [0x3a] <+: line := by
    intro line hline
    obtain ⟨f, hf, rfl⟩ := List.mem_map.mp hline
    rw [isPrefix_line_lengthName]
    exact beq_eq_false_iff_ne.mp (h f hf)
  unfold declaredLength
  rw [DeclaresLength, hlower]
  cases hfind : h.fields.find? (lowercase ·.name == lengthName) with
  | some f =>
    obtain ⟨hf, x, y, hfields, hx⟩ := List.find?_eq_some_iff_append.mp hfind
    have hx' : ∀ f ∈ x, (lowercase f.name == lengthName) = false := by simpa using hx
    obtain ⟨pos, hpos, hrest⟩ := find_lengthName hstatus (hlines x) (hno hx')
      (lowercase f.value) (y.map (lowercase ·.line))
    have htext : h.fields.map (lowercase ·.line) = x.map (lowercase ·.line) ++
        (lengthName ++ 0x3a :: lowercase f.value) :: y.map (lowercase ·.line) := by
      rw [hfields, List.map_append, List.map_cons, lowercase_line, beq_iff_eq.mp hf]
    simp only [htext, hpos, hrest, take_find_crlf (cr_notMem_lowercase f.value_cr)]
    exact parseUsize_fromUtf8
  | none =>
    have hnone := find_lengthName_eq_none hstatus (hlines h.fields) (hno (by simpa using hfind))
    simp only [hnone, Option.some.injEq]
    exact eq_comm

variable {h : Head} {body sent : Bytes}

theorem bytes_eq (h : Head) : h.bytes = (h.status ++ fieldLines h.fields) ++ headBoundary := by
  rw [Head.bytes, List.append_assoc]

theorem firstAt_headBoundary (h : Head) (body : Bytes) :
    FirstAt headBoundary (h.bytes ++ body) (h.status ++ fieldLines h.fields).length := by
  obtain ⟨p, hp, hlen⟩ := h.bodyAt_bytes body
  rw [bytes_eq, List.length_append] at hlen
  rwa [Nat.add_right_cancel hlen]

theorem isComplete_of_lt (hsent : sent <+: h.bytes ++ body) (hlt : sent.length < h.bytes.length) :
    isComplete sent = some false := by
  obtain ⟨rest, hrest⟩ := hsent
  have hnone : find sent headBoundary = none := by
    refine (windowsPosition_beq_eq_none (by decide)).mpr fun i hi => ?_
    have hle := hi.le_length (by decide)
    have hfirst := firstAt_headBoundary h body
    have hocc := hi.append_left rest (by decide)
    rw [hrest] at hocc
    rw [bytes_eq, List.length_append] at hlt
    exact hfirst.2 i (by omega) hocc
  rw [isComplete, hnone]

theorem isComplete_eq_some {b : Bool} (hsent : sent <+: h.bytes ++ body)
    (hle : h.bytes.length ≤ sent.length) : isComplete sent = some b ↔
      ∃ n, DeclaresLength h n ∧ h.bytes.length + n < 2 ^ 64 ∧
        b = decide (h.bytes.length + n ≤ sent.length) := by
  have hlen : (h.status ++ fieldLines h.fields).length + 4 = h.bytes.length := by
    have hboundary : headBoundary.length = 4 := rfl
    simp only [bytes_eq, List.length_append, hboundary]
  obtain ⟨rest, hrest⟩ := hsent
  have hfirst : FirstAt headBoundary sent (h.status ++ fieldLines h.fields).length := by
    have hwhole := firstAt_headBoundary h body
    rw [← hrest] at hwhole
    refine ⟨hwhole.1.of_append (hlen.trans_le hle), fun i hi hocc => ?_⟩
    exact hwhole.2 i hi (hocc.append_left rest (by decide))
  have hfind : find sent headBoundary = some (h.status ++ fieldLines h.fields).length :=
    (windowsPosition_beq_eq_some (by decide)).mpr hfirst
  have htake : sent.take (h.status ++ fieldLines h.fields).length =
      h.status ++ fieldLines h.fields := by
    have hwhole := congrArg (List.take (h.status ++ fieldLines h.fields).length) hrest
    rwa [List.take_append_of_le_length (by omega), bytes_eq, List.append_assoc _ headBoundary,
      List.take_left] at hwhole
  simp only [isComplete, hfind, htake, hlen, Option.bind_eq_bind, Option.bind_eq_some_iff,
    declaredLength_eq_some, Option.ite_none_right_eq_some, Option.some.injEq]
  exact exists_congr fun n => and_congr_right fun _ => and_congr_right fun _ => eq_comm

/-- What a read returns: something, and no more than its buffer takes. -/
def IsRead (read : Bytes) : Prop := read ≠ [] ∧ read.length ≤ 4096

/-- Of every way a client's bytes come in, the server answers `request` when all of it is there
and waits before. -/
def ServesExactly (request : Bytes) : Prop :=
  ∀ reads : List Bytes, (∀ read ∈ reads, IsRead read) → reads.flatten <+: request →
    serve [] reads = if reads.flatten = request then .answered request
      else .waiting reads.flatten

theorem isComplete_of_declares (hdeclares : DeclaresLength h body.length)
    (hfit : (h.bytes ++ body).length < 2 ^ 64) (hsent : sent <+: h.bytes ++ body) :
    isComplete sent = some (decide (sent = h.bytes ++ body)) := by
  rw [List.length_append] at hfit
  have hall : sent = h.bytes ++ body ↔ h.bytes.length + body.length ≤ sent.length := by
    rw [← List.length_append]
    exact ⟨fun heq => (congrArg List.length heq).ge, hsent.eq_of_length_le⟩
  rcases Nat.lt_or_ge sent.length h.bytes.length with hlt | hle
  · rw [isComplete_of_lt hsent hlt, decide_eq_false (hall.not.mpr (by omega))]
  · exact (isComplete_eq_some hsent hle).mpr
      ⟨body.length, hdeclares, hfit, decide_eq_decide.mpr hall⟩

theorem serve_of_declares (hdeclares : DeclaresLength h body.length)
    (hfit : (h.bytes ++ body).length < 2 ^ 64) {reads : List Bytes}
    (hreads : ∀ read ∈ reads, IsRead read) (hsent : sent ++ reads.flatten <+: h.bytes ++ body)
    (hne : sent ≠ h.bytes ++ body) :
    serve sent reads = if sent ++ reads.flatten = h.bytes ++ body then .answered (h.bytes ++ body)
      else .waiting (sent ++ reads.flatten) := by
  induction reads generalizing sent with
  | nil =>
    rw [List.flatten_nil, List.append_nil, if_neg hne]
    rfl
  | cons read reads ih =>
    rw [List.forall_mem_cons] at hreads
    rw [List.flatten_cons, ← List.append_assoc] at hsent ⊢
    have hread := (List.prefix_append (sent ++ read) reads.flatten).trans hsent
    rw [serve, if_neg hreads.1.1, isComplete_of_declares hdeclares hfit hread]
    by_cases hall : sent ++ read = h.bytes ++ body
    · obtain ⟨rest, hrest⟩ := hsent
      rw [hall, List.append_assoc, List.append_right_eq_self, List.append_eq_nil_iff] at hrest
      rw [hall, hrest.1, List.append_nil, if_pos rfl, decide_eq_true rfl]
    · rw [decide_eq_false hall]
      exact ih hreads.2 hsent hall

theorem isComplete_of_serve (sent : Bytes) {reads : List Bytes}
    (hreads : ∀ read ∈ reads, IsRead read) (hne : reads ≠ []) :
    (∀ out, serve sent reads = .answered out → isComplete out = some true) ∧
      ∀ out, serve sent reads = .waiting out → isComplete out = some false := by
  induction reads generalizing sent with
  | nil => exact absurd rfl hne
  | cons read reads ih =>
    rw [List.forall_mem_cons] at hreads
    rw [serve, if_neg hreads.1.1]
    split
    case h_1 => exact ⟨nofun, nofun⟩
    case h_2 htrue =>
      refine ⟨fun out h => ?_, nofun⟩
      cases h
      exact htrue
    case h_3 hfalse =>
      cases reads with
      | nil =>
        refine ⟨nofun, fun out h => ?_⟩
        cases h
        exact hfalse
      | cons next reads => exact ih _ hreads.2 (List.cons_ne_nil next reads)

theorem exists_reads (bs : Bytes) :
    ∃ reads : List Bytes, (∀ read ∈ reads, IsRead read) ∧ reads.flatten = bs := by
  refine ⟨bs.map fun b => [b], ?_, ?_⟩
  · intro read hread
    obtain ⟨b, -, rfl⟩ := List.mem_map.mp hread
    exact ⟨List.cons_ne_nil b [], by simp⟩
  · rw [← List.flatMap_def, List.flatMap_singleton']

theorem bytes_ne_nil (h : Head) : h.bytes ≠ [] := by
  rw [bytes_eq]
  exact List.append_ne_nil_of_right_ne_nil _ (List.cons_ne_nil _ _)

/-- The server takes a request, however it is split, at its exact end, if and only if the first
`content-length` field of the head spells the length of the body. -/
theorem servesExactly_iff (h : Head) (body : Bytes) (hfit : (h.bytes ++ body).length < 2 ^ 64) :
    ServesExactly (h.bytes ++ body) ↔ DeclaresLength h body.length := by
  have hne (rest : Bytes) : h.bytes ++ rest ≠ [] :=
    List.append_ne_nil_of_left_ne_nil (bytes_ne_nil h) rest
  constructor
  · intro hserves
    have hcomplete (rest : Bytes) (hrest : rest <+: body) :
        isComplete (h.bytes ++ rest) = some (decide (h.bytes ++ rest = h.bytes ++ body)) := by
      obtain ⟨reads, hreads, hflat⟩ := exists_reads (h.bytes ++ rest)
      have hserve := hserves reads hreads
      rw [hflat, List.prefix_append_right_inj] at hserve
      have hserved := isComplete_of_serve [] hreads fun hnil =>
        hne rest (by rw [← hflat, hnil, List.flatten_nil])
      by_cases hall : h.bytes ++ rest = h.bytes ++ body
      · rw [decide_eq_true hall, hserved.1]
        rw [hserve hrest, if_pos hall, hall]
      · rw [decide_eq_false hall, hserved.2]
        rw [hserve hrest, if_neg hall]
    have hlen (rest : Bytes) : h.bytes.length ≤ (h.bytes ++ rest).length :=
      (List.prefix_append ..).length_le
    -- The whole request is complete, so the head declares at most the length of the body.
    obtain ⟨n, hn, hlt, hdecide⟩ :=
      (isComplete_eq_some (List.prefix_refl _) (hlen body)).mp (hcomplete body (List.prefix_refl _))
    have hle := of_decide_eq_true (hdecide.symm.trans (decide_eq_true rfl))
    rw [List.length_append, Nat.add_le_add_iff_left] at hle
    -- That much of the body completes the request, so it is the whole of it.
    have htake : body.take n <+: body := List.take_prefix n body
    have hpart := (isComplete_eq_some ((List.prefix_append_right_inj h.bytes).mpr htake)
      (hlen _)).mpr ⟨n, hn, hlt, rfl⟩
    rw [hcomplete _ htake, List.length_append, List.length_take_of_le hle, Option.some.injEq,
      decide_eq_true (Nat.le_refl _), decide_eq_true_eq, List.append_cancel_left_eq] at hpart
    rwa [← hpart, List.length_take_of_le hle]
  · intro hdeclares reads hreads hflat
    exact serve_of_declares hdeclares hfit hreads hflat (hne body).symm

set_option maxRecDepth 4000 in
theorem servesExactly_iff_run :
    let head : Head := ⟨ascii "POST /t HTTP/1.1", [⟨ascii "content-length", ascii " 3", by decide,
      by decide, by decide⟩], by decide⟩
    ServesExactly (head.bytes ++ ascii "a=1") ∧ ¬ ServesExactly (head.bytes ++ ascii "a=12") := by
  intro head
  have hthree : DeclaresLength head 3 :=
    ⟨[' '], ['3'], [], by decide, List.forall_mem_singleton.mpr rfl,
      ⟨[], ['3'], rfl, .inl rfl, by decide, List.forall_mem_singleton.mpr rfl, rfl⟩,
      by decide⟩
  refine ⟨(servesExactly_iff head (ascii "a=1") (by decide)).mpr hthree, fun h => ?_⟩
  have hfour := (servesExactly_iff head (ascii "a=12") (by decide)).mp h
  rw [← declaredLength_eq_some] at hthree hfour
  cases hthree.symm.trans hfour

end Libid.Tlsn
