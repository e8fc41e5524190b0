import Libid.Base.Ascii
import Mathlib.Tactic.Ring

namespace Libid

def base64Alphabet : Bytes :=
  ascii "ABCDEFGHIJKLMNOPQRSTUVWXYZabcdefghijklmnopqrstuvwxyz0123456789-_"

def base64Digit (n : Nat) : UInt8 := base64Alphabet.getD n 0

/-- The digits of a chunk of one to three bytes, one more than the chunk has bytes. -/
def base64Chunk (chunk : Bytes) : Bytes :=
  let n := (chunk.getD 0 0).toNat * 2 ^ 16 + (chunk.getD 1 0).toNat * 2 ^ 8 + (chunk.getD 2 0).toNat
  (List.range (chunk.length + 1)).map fun i => base64Digit (n / 2 ^ (18 - 6 * i) % 64)

def base64url : Bytes → Bytes
  | [] => []
  | [a] => base64Chunk [a]
  | [a, b] => base64Chunk [a, b]
  | a :: b :: c :: bs => base64Chunk [a, b, c] ++ base64url bs

def base64Value (b : UInt8) : Option Nat := base64Alphabet.findIdx? (· == b)

def base64Decode : Bytes → Option Bytes
  | [] => some []
  | [_] => none
  | [a, b] => do
    let a ← base64Value a
    let b ← base64Value b
    return [.ofNat (a * 4 + b / 16)]
  | [a, b, c] => do
    let a ← base64Value a
    let b ← base64Value b
    let c ← base64Value c
    return [.ofNat (a * 4 + b / 16), .ofNat (b % 16 * 16 + c / 4)]
  | a :: b :: c :: d :: text => do
    let a ← base64Value a
    let b ← base64Value b
    let c ← base64Value c
    let d ← base64Value d
    let bs ← base64Decode text
    return .ofNat (a * 4 + b / 16) :: .ofNat (b % 16 * 16 + c / 4) ::
      .ofNat (c % 4 * 64 + d) :: bs

theorem base64Value_digit : ∀ n < 64, base64Value (base64Digit n) = some n := by
  decide

theorem ofNat_eq {b : UInt8} {n : Nat} (h : n = b.toNat) : UInt8.ofNat n = b := by
  rw [h, UInt8.ofNat_toNat]

theorem base64Chunk_one (a : UInt8) : base64Chunk [a] =
    [base64Digit (a.toNat / 4), base64Digit (a.toNat % 4 * 16)] := by
  have ha := a.toNat_lt
  have h0 : (a.toNat * 2 ^ 16 + 0 * 2 ^ 8 + 0) / 2 ^ 18 % 64 = a.toNat / 4 := by omega
  have h1 : (a.toNat * 2 ^ 16 + 0 * 2 ^ 8 + 0) / 2 ^ 12 % 64 = a.toNat % 4 * 16 := by omega
  rw [← h0, ← h1]
  rfl

theorem base64Chunk_two (a b : UInt8) : base64Chunk [a, b] =
    [base64Digit (a.toNat / 4), base64Digit (a.toNat % 4 * 16 + b.toNat / 16),
      base64Digit (b.toNat % 16 * 4)] := by
  have ha := a.toNat_lt
  have hb := b.toNat_lt
  have h0 : (a.toNat * 2 ^ 16 + b.toNat * 2 ^ 8 + 0) / 2 ^ 18 % 64 = a.toNat / 4 := by omega
  have h1 : (a.toNat * 2 ^ 16 + b.toNat * 2 ^ 8 + 0) / 2 ^ 12 % 64 =
      a.toNat % 4 * 16 + b.toNat / 16 := by omega
  have h2 : (a.toNat * 2 ^ 16 + b.toNat * 2 ^ 8 + 0) / 2 ^ 6 % 64 = b.toNat % 16 * 4 := by omega
  rw [← h0, ← h1, ← h2]
  rfl

theorem base64Chunk_three (a b c : UInt8) : base64Chunk [a, b, c] =
    [base64Digit (a.toNat / 4), base64Digit (a.toNat % 4 * 16 + b.toNat / 16),
      base64Digit (b.toNat % 16 * 4 + c.toNat / 64), base64Digit (c.toNat % 64)] := by
  have ha := a.toNat_lt
  have hb := b.toNat_lt
  have hc := c.toNat_lt
  have h0 : (a.toNat * 2 ^ 16 + b.toNat * 2 ^ 8 + c.toNat) / 2 ^ 18 % 64 = a.toNat / 4 := by
    omega
  have h1 : (a.toNat * 2 ^ 16 + b.toNat * 2 ^ 8 + c.toNat) / 2 ^ 12 % 64 =
      a.toNat % 4 * 16 + b.toNat / 16 := by omega
  have h2 : (a.toNat * 2 ^ 16 + b.toNat * 2 ^ 8 + c.toNat) / 2 ^ 6 % 64 =
      b.toNat % 16 * 4 + c.toNat / 64 := by omega
  have h3 : (a.toNat * 2 ^ 16 + b.toNat * 2 ^ 8 + c.toNat) / 2 ^ 0 % 64 = c.toNat % 64 := by
    omega
  rw [← h0, ← h1, ← h2, ← h3]
  rfl

theorem base64Decode_base64url (bs : Bytes) : base64Decode (base64url bs) = some bs := by
  fun_induction base64url bs with
  | case1 => rfl
  | case2 a =>
    have ha := a.toNat_lt
    rw [base64Chunk_one, base64Decode, base64Value_digit _ (by omega),
      base64Value_digit _ (by omega)]
    exact congrArg some (congrArg (List.cons · []) (ofNat_eq (by omega)))
  | case3 a b =>
    have ha := a.toNat_lt
    have hb := b.toNat_lt
    rw [base64Chunk_two, base64Decode, base64Value_digit _ (by omega),
      base64Value_digit _ (by omega), base64Value_digit _ (by omega)]
    simp only [Option.bind_eq_bind, Option.bind_some, Option.pure_def, Option.some.injEq,
      List.cons.injEq, and_true]
    exact ⟨ofNat_eq (by omega), ofNat_eq (by omega)⟩
  | case4 a b c bs ih =>
    have ha := a.toNat_lt
    have hb := b.toNat_lt
    have hc := c.toNat_lt
    rw [base64Chunk_three, List.cons_append, List.cons_append, List.cons_append, List.cons_append,
      List.nil_append, base64Decode, base64Value_digit _ (by omega),
      base64Value_digit _ (by omega), base64Value_digit _ (by omega),
      base64Value_digit _ (by omega), ih]
    simp only [Option.bind_eq_bind, Option.bind_some, Option.pure_def, Option.some.injEq,
      List.cons.injEq, and_true]
    exact ⟨ofNat_eq (by omega), ofNat_eq (by omega), ofNat_eq (by omega)⟩

theorem length_base64Chunk (chunk : Bytes) : (base64Chunk chunk).length = chunk.length + 1 := by
  rw [base64Chunk, List.length_map, List.length_range]

theorem length_base64url (bs : Bytes) : (base64url bs).length = (4 * bs.length + 2) / 3 := by
  fun_induction base64url bs with
  | case1 => rfl
  | case2 a => simp [length_base64Chunk]
  | case3 a b => simp [length_base64Chunk]
  | case4 a b c bs ih =>
    rw [List.length_append, length_base64Chunk, ih]
    simp only [List.length_cons, List.length_nil]
    omega

theorem base64Digit_mem : ∀ n < 64, base64Digit n ∈ base64Alphabet := by decide

theorem mem_alphabet_of_mem_base64Chunk {chunk : Bytes} {b : UInt8}
    (h : b ∈ base64Chunk chunk) : b ∈ base64Alphabet := by
  obtain ⟨i, -, rfl⟩ := List.mem_map.mp h
  exact base64Digit_mem _ (Nat.mod_lt _ (by decide))

theorem mem_alphabet_of_mem_base64url {bs : Bytes} {b : UInt8} (h : b ∈ base64url bs) :
    b ∈ base64Alphabet := by
  fun_induction base64url bs with
  | case1 => cases h
  | case2 a => exact mem_alphabet_of_mem_base64Chunk h
  | case3 a b => exact mem_alphabet_of_mem_base64Chunk h
  | case4 a b c bs ih =>
    rcases List.mem_append.mp h with h | h
    · exact mem_alphabet_of_mem_base64Chunk h
    · exact ih h

end Libid
