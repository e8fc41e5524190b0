import Libid.Transcript.Framing

/-! The size lines that `parse_chunk_size` accepts: digits, blanks, then an extension that
runs to the line's CRLF.  A line may have no digit at all. -/

namespace Libid.Transcript

def hexValueFrom (n : Nat) : Bytes → Option Nat
  | [] => some n
  | b :: digits => (hexDigit b).bind fun d => hexValueFrom (n * 16 + d) digits

def hexValue (digits : Bytes) : Option Nat := hexValueFrom 0 digits

structure IsExtension (ext : Bytes) : Prop where
  semicolon : ∀ b, ext.head? = some b → b = 0x3b
  no_cr : 0x0d ∉ ext

theorem IsExtension.nil : IsExtension [] := ⟨by simp, by simp⟩

theorem isExtension_cons {b : UInt8} {ext : Bytes} :
    IsExtension (b :: ext) ↔ b = 0x3b ∧ 0x0d ∉ ext := by
  constructor
  · intro h
    exact ⟨h.semicolon b rfl, fun hmem => h.no_cr (List.mem_cons_of_mem b hmem)⟩
  · rintro ⟨rfl, hcr⟩
    exact ⟨by simp, by simpa using hcr⟩

structure SizeLine where
  digits : Bytes
  blanks : Bytes
  extension : Bytes
  size : Nat
  value : hexValue digits = some size
  digits_le : digits.length ≤ 16
  blank : ∀ b ∈ blanks, b = 0x20 ∨ b = 0x09
  ext : IsExtension extension

def SizeLine.bytes (l : SizeLine) : Bytes := l.digits ++ (l.blanks ++ (l.extension ++ crlf))

theorem isSome_of_hexValueFrom {n : Nat} {digits : Bytes} {m : Nat}
    (h : hexValueFrom n digits = some m) : ∀ b ∈ digits, (hexDigit b).isSome := by
  induction digits generalizing n with
  | nil => simp
  | cons b digits ih =>
    simp only [hexValueFrom, Option.bind_eq_some_iff] at h
    obtain ⟨d, hd, h⟩ := h
    intro x hx
    rcases List.mem_cons.mp hx with rfl | hx
    · simp [hd]
    · exact ih h x hx

theorem parseChunkSizeFrom_cr {s : SizeState} {rest : Bytes} {h n : Nat} :
    parseChunkSizeFrom s (0x0d :: rest) = .ok (.Complete (h, n)) ↔
      ∃ t, rest = 0x0a :: t ∧ h = s.pos + 2 ∧ n = s.size := by
  have hdigit : (if s.inChunkSize then hexDigit 0x0d else none) = none := by
    split
    · decide
    · rfl
  simp only [parseChunkSizeFrom.eq_def s, hdigit, if_true]
  cases rest with
  | nil => simp
  | cons b t =>
    by_cases hb : b = 0x0a
    · simp [hb, eq_comm]
    · simp [hb]

theorem parseChunkSizeFrom_ext {s : SizeState} (hin : s.inChunkSize = false)
    (hext : s.inExt = true) {b : UInt8} (hb : b ≠ 0x0d) (rest : Bytes) :
    parseChunkSizeFrom s (b :: rest) = parseChunkSizeFrom { s with pos := s.pos + 1 } rest := by
  rw [parseChunkSizeFrom.eq_def]
  simp [hin, hext, hb]

theorem parseChunkSizeFrom_blank {s : SizeState} (hext : s.inExt = false) {b : UInt8}
    (hb : b = 0x20 ∨ b = 0x09) (rest : Bytes) :
    parseChunkSizeFrom s (b :: rest) =
      parseChunkSizeFrom { s with pos := s.pos + 1, inChunkSize := false } rest := by
  have hdigit : (if s.inChunkSize then hexDigit b else none) = none := by
    rcases hb with rfl | rfl <;> split <;> decide
  have hne : b ≠ 0x0d ∧ b ≠ 0x3b := by rcases hb with rfl | rfl <;> decide
  have hws : (b = 0x09 || b = 0x20) = true := by rcases hb with rfl | rfl <;> decide
  rw [parseChunkSizeFrom.eq_def]
  simp only [hdigit, if_neg hne.1, hne.2, decide_false, Bool.false_and, Bool.false_eq_true,
    if_false, hws, hext, Bool.not_false, Bool.true_and]
  cases hin : s.inChunkSize with
  | false => rfl
  | true => rfl

theorem parseChunkSizeFrom_semicolon {s : SizeState} (hext : s.inExt = false) (rest : Bytes) :
    parseChunkSizeFrom s (0x3b :: rest) =
      parseChunkSizeFrom { s with pos := s.pos + 1, inChunkSize := false, inExt := true }
        rest := by
  have hdigit : (if s.inChunkSize then hexDigit 0x3b else none) = none := by
    split
    · decide
    · rfl
  rw [parseChunkSizeFrom.eq_def]
  simp [hdigit, hext]

theorem parseChunkSizeFrom_digit {s : SizeState} (hin : s.inChunkSize = true) {b : UInt8} {d : Nat}
    (hd : hexDigit b = some d) (rest : Bytes) :
    parseChunkSizeFrom s (b :: rest) =
      if s.count > 15 then .error .mk
      else parseChunkSizeFrom
        { s with pos := s.pos + 1, size := s.size * 16 + d, count := s.count + 1 } rest := by
  rw [parseChunkSizeFrom.eq_def]
  simp only [hin, if_true, hd]

theorem parseChunkSizeFrom_other {s : SizeState} (hext : s.inExt = false) {b : UInt8}
    (hd : s.inChunkSize = true → hexDigit b = none) (hcr : b ≠ 0x0d) (hsemi : b ≠ 0x3b)
    (hblank : ¬ (b = 0x20 ∨ b = 0x09)) (rest : Bytes) :
    parseChunkSizeFrom s (b :: rest) = .error .mk := by
  have hdigit : (if s.inChunkSize then hexDigit b else none) = none := by
    split
    case isTrue hin => exact hd hin
    case isFalse => rfl
  have hws : (b = 0x09 || b = 0x20) = false := by
    simpa [not_or, and_comm] using hblank
  rw [parseChunkSizeFrom.eq_def]
  simp [hdigit, hcr, hsemi, hws, hext]

theorem parseChunkSizeFrom_no_digit {s : SizeState} (hext : s.inExt = false) {b : UInt8}
    (hd : hexDigit b = none) (rest : Bytes) :
    parseChunkSizeFrom s (b :: rest) =
      parseChunkSizeFrom { s with inChunkSize := false } (b :: rest) := by
  rw [parseChunkSizeFrom.eq_def s, parseChunkSizeFrom.eq_def { s with inChunkSize := false }]
  cases hin : s.inChunkSize with
  | false => simp [hext]
  | true => simp [hd, hext]

theorem parseChunkSizeFrom_crlf_cons (s : SizeState) (rest : Bytes) :
    parseChunkSizeFrom s (crlf ++ rest) = .ok (.Complete (s.pos + 2, s.size)) := by
  have hdigit : (if s.inChunkSize then hexDigit 0x0d else none) = none := by
    split
    · decide
    · rfl
  simp only [crlf, List.cons_append, List.nil_append, parseChunkSizeFrom.eq_def s, hdigit, if_true]

theorem parseChunkSizeFrom_digits {s : SizeState} {digits : Bytes} {n : Nat} (rest : Bytes)
    (hin : s.inChunkSize = true) (hsize : hexValueFrom s.size digits = some n)
    (hcount : s.count + digits.length ≤ 16) :
    parseChunkSizeFrom s (digits ++ rest) =
      parseChunkSizeFrom
        { s with pos := s.pos + digits.length, size := n, count := s.count + digits.length }
        rest := by
  induction digits generalizing s with
  | nil =>
    obtain rfl : s.size = n := by simpa [hexValueFrom] using hsize
    rfl
  | cons b digits ih =>
    simp only [hexValueFrom, Option.bind_eq_some_iff] at hsize
    obtain ⟨d, hd, hsize⟩ := hsize
    rw [List.length_cons] at hcount
    rw [List.cons_append, parseChunkSizeFrom.eq_def]
    simp only [hin, if_true, hd, if_neg (show ¬ s.count > 15 by omega), List.length_cons]
    rw [ih rfl hsize (by simp only; omega)]
    simp only [Nat.add_assoc, Nat.add_comm 1]

theorem parseChunkSizeFrom_octets {s : SizeState} {octets : Bytes} (rest : Bytes)
    (hin : s.inChunkSize = false) (hext : s.inExt = true) (hcr : 0x0d ∉ octets) :
    parseChunkSizeFrom s (octets ++ (crlf ++ rest)) =
      .ok (.Complete (s.pos + octets.length + 2, s.size)) := by
  induction octets generalizing s with
  | nil => exact parseChunkSizeFrom_crlf_cons s rest
  | cons b octets ih =>
    rw [List.mem_cons, not_or] at hcr
    rw [List.cons_append, parseChunkSizeFrom_ext hin hext (Ne.symm hcr.1),
      ih (s := { s with pos := s.pos + 1 }) hin hext hcr.2, List.length_cons]
    simp only [Nat.add_assoc, Nat.add_comm 1]

theorem parseChunkSizeFrom_extension {s : SizeState} {ext : Bytes} (rest : Bytes)
    (hext : s.inExt = false) (h : IsExtension ext) :
    parseChunkSizeFrom s (ext ++ (crlf ++ rest)) =
      .ok (.Complete (s.pos + ext.length + 2, s.size)) := by
  cases ext with
  | nil => exact parseChunkSizeFrom_crlf_cons s rest
  | cons b ext =>
    obtain ⟨rfl, hcr⟩ := isExtension_cons.mp h
    rw [List.cons_append, parseChunkSizeFrom_semicolon hext,
      parseChunkSizeFrom_octets rest rfl rfl hcr, List.length_cons]
    simp only [Nat.add_assoc, Nat.add_comm 1]

theorem parseChunkSizeFrom_blanks_extension {s : SizeState} {blanks ext : Bytes} (rest : Bytes)
    (hext : s.inExt = false) (hblank : ∀ b ∈ blanks, b = 0x20 ∨ b = 0x09)
    (h : IsExtension ext) :
    parseChunkSizeFrom s (blanks ++ (ext ++ (crlf ++ rest))) =
      .ok (.Complete (s.pos + blanks.length + ext.length + 2, s.size)) := by
  induction blanks generalizing s with
  | nil => exact parseChunkSizeFrom_extension rest hext h
  | cons b blanks ih =>
    obtain ⟨hb, hblank⟩ := List.forall_mem_cons.mp hblank
    rw [List.cons_append, parseChunkSizeFrom_blank hext hb,
      ih (s := { s with pos := s.pos + 1, inChunkSize := false }) hext hblank, List.length_cons]
    simp only [Nat.add_assoc, Nat.add_comm 1]

theorem parseChunkSize_bytes (l : SizeLine) (rest : Bytes) :
    parseChunkSize (l.bytes ++ rest) = .ok (.Complete (l.bytes.length, l.size)) := by
  rw [parseChunkSize, SizeLine.bytes, List.append_assoc, List.append_assoc, List.append_assoc,
    parseChunkSizeFrom_digits (s := ⟨0, 0, 0, true, false⟩) _ rfl l.value
      (by simpa using l.digits_le),
    parseChunkSizeFrom_blanks_extension rest rfl l.blank l.ext]
  simp [crlf, Nat.add_assoc]

theorem exists_of_inExt {s : SizeState} {raw : Bytes} {h n : Nat} (hin : s.inChunkSize = false)
    (hext : s.inExt = true) (hp : parseChunkSizeFrom s raw = .ok (.Complete (h, n))) :
    ∃ ext t, raw = ext ++ (crlf ++ t) ∧ 0x0d ∉ ext ∧ h = s.pos + ext.length + 2 ∧
      n = s.size := by
  induction raw generalizing s with
  | nil => simp [parseChunkSizeFrom] at hp
  | cons b rest ih =>
    by_cases hb : b = 0x0d
    · subst hb
      obtain ⟨t, rfl, rfl, rfl⟩ := parseChunkSizeFrom_cr.mp hp
      exact ⟨[], t, rfl, by simp, rfl, rfl⟩
    · rw [parseChunkSizeFrom_ext hin hext hb] at hp
      obtain ⟨ext, t, rfl, hcr, rfl, rfl⟩ := ih (s := { s with pos := s.pos + 1 }) hin hext hp
      refine ⟨b :: ext, t, rfl, by simp [hcr, Ne.symm hb], ?_, rfl⟩
      simp only [List.length_cons]
      omega

theorem exists_of_blank {s : SizeState} {raw : Bytes} {h n : Nat} (hin : s.inChunkSize = false)
    (hext : s.inExt = false) (hp : parseChunkSizeFrom s raw = .ok (.Complete (h, n))) :
    ∃ blanks ext t, raw = blanks ++ (ext ++ (crlf ++ t)) ∧
      (∀ b ∈ blanks, b = 0x20 ∨ b = 0x09) ∧ IsExtension ext ∧
      h = s.pos + blanks.length + ext.length + 2 ∧ n = s.size := by
  induction raw generalizing s with
  | nil => simp [parseChunkSizeFrom] at hp
  | cons b rest ih =>
    by_cases hblank : b = 0x20 ∨ b = 0x09
    · rw [parseChunkSizeFrom_blank hext hblank] at hp
      obtain ⟨blanks, ext, t, rfl, hblanks, he, rfl, rfl⟩ :=
        ih (s := { s with pos := s.pos + 1, inChunkSize := false }) rfl hext hp
      refine ⟨b :: blanks, ext, t, rfl, ?_, he, ?_, rfl⟩
      · exact List.forall_mem_cons.mpr ⟨hblank, hblanks⟩
      · simp only [List.length_cons]
        omega
    by_cases hcr : b = 0x0d
    · subst hcr
      obtain ⟨t, rfl, rfl, rfl⟩ := parseChunkSizeFrom_cr.mp hp
      exact ⟨[], [], t, rfl, by simp, .nil, rfl, rfl⟩
    by_cases hsemi : b = 0x3b
    · subst hsemi
      rw [parseChunkSizeFrom_semicolon hext] at hp
      obtain ⟨ext, t, rfl, hcr, rfl, rfl⟩ := exists_of_inExt rfl rfl hp
      refine ⟨[], 0x3b :: ext, t, rfl, by simp, isExtension_cons.mpr ⟨rfl, hcr⟩, ?_, rfl⟩
      simp only [List.length_cons, List.length_nil]
      omega
    · rw [parseChunkSizeFrom_other hext (by simp [hin]) hcr hsemi hblank] at hp
      simp at hp

theorem exists_of_digits {s : SizeState} {raw : Bytes} {h n : Nat} (hin : s.inChunkSize = true)
    (hext : s.inExt = false) (hcount : s.count ≤ 16)
    (hp : parseChunkSizeFrom s raw = .ok (.Complete (h, n))) :
    ∃ digits blanks ext t, raw = digits ++ (blanks ++ (ext ++ (crlf ++ t))) ∧
      hexValueFrom s.size digits = some n ∧ s.count + digits.length ≤ 16 ∧
      (∀ b ∈ blanks, b = 0x20 ∨ b = 0x09) ∧ IsExtension ext ∧
      h = s.pos + digits.length + blanks.length + ext.length + 2 := by
  induction raw generalizing s with
  | nil => simp [parseChunkSizeFrom] at hp
  | cons b rest ih =>
    cases hd : hexDigit b with
    | some d =>
      rw [parseChunkSizeFrom_digit hin hd] at hp
      split at hp
      case isTrue => simp at hp
      case isFalse hlt =>
        obtain ⟨digits, blanks, ext, t, rfl, hvalue, hle, hblanks, he, rfl⟩ :=
          ih (s := { s with
            pos := s.pos + 1, size := s.size * 16 + d, count := s.count + 1 }) hin hext
            (by simp only; omega) hp
        refine ⟨b :: digits, blanks, ext, t, rfl, ?_, ?_, hblanks, he, ?_⟩
        · rw [hexValueFrom, hd]
          exact hvalue
        · simp only [List.length_cons] at hle ⊢
          omega
        · simp only [List.length_cons]
          omega
    | none =>
      -- The line goes on as if its digits were over.
      rw [parseChunkSizeFrom_no_digit hext hd] at hp
      obtain ⟨blanks, ext, t, hraw, hblanks, he, hh, hn⟩ :=
        exists_of_blank (s := { s with inChunkSize := false }) rfl hext hp
      refine ⟨[], blanks, ext, t, hraw, ?_, by simpa using hcount, hblanks, he, hh⟩
      rw [hn]
      rfl

theorem exists_sizeLine {raw : Bytes} {h n : Nat}
    (hp : parseChunkSize raw = .ok (.Complete (h, n))) :
    ∃ l : SizeLine, l.size = n ∧ l.bytes.length = h ∧ ∃ t, raw = l.bytes ++ t := by
  obtain ⟨digits, blanks, ext, t, rfl, hvalue, hle, hblanks, he, rfl⟩ :=
    exists_of_digits rfl rfl (Nat.zero_le _) hp
  refine ⟨⟨digits, blanks, ext, n, hvalue, by simpa using hle, hblanks, he⟩, rfl, ?_, t, ?_⟩
  · simp [SizeLine.bytes, crlf, Nat.add_assoc]
  · simp [SizeLine.bytes, List.append_assoc]

end Libid.Transcript
