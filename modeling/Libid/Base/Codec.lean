import Libid.Base.Bytes
import Mathlib.Logic.Equiv.Defs
import Mathlib.Tactic.Ring

/-! Byte formats read in one forward pass.  A codec carries its two round trips, so
a format built from codecs is unambiguous without a proof of its own. -/

namespace Libid

structure Codec (α : Type) where
  enc : α → Bytes
  dec : Bytes → Option (α × Bytes)
  dec_enc : ∀ a t, dec (enc a ++ t) = some (a, t)
  enc_dec : ∀ bs a t, dec bs = some (a, t) → bs = enc a ++ t

namespace Codec

variable {α β : Type}

theorem eq_of_append_eq (c : Codec α) {a b : α} {t u : Bytes} (h : c.enc a ++ t = c.enc b ++ u) :
    a = b ∧ t = u := by
  have ha := c.dec_enc a t
  rw [h, c.dec_enc b u] at ha
  simpa [eq_comm] using ha

theorem enc_injective (c : Codec α) : Function.Injective c.enc := by
  intro a b h
  exact (c.eq_of_append_eq (t := []) (u := []) (by rw [h])).1

theorem eq_of_isPrefix (c : Codec α) {a b : α} (h : c.enc a <+: c.enc b) : a = b := by
  obtain ⟨t, ht⟩ := h
  exact (c.eq_of_append_eq (u := []) (by rw [ht, List.append_nil])).1

def pair (c : Codec α) (d : Codec β) : Codec (α × β) where
  enc p := c.enc p.1 ++ d.enc p.2
  dec bs := do
    let (a, bs) ← c.dec bs
    let (b, bs) ← d.dec bs
    return ((a, b), bs)
  dec_enc p t := by
    simp [c.dec_enc, d.dec_enc]
  enc_dec bs p t h := by
    simp only [Option.bind_eq_bind, Option.bind_eq_some_iff, Prod.exists, Option.pure_def,
      Option.some.injEq, Prod.mk.injEq] at h
    obtain ⟨a, bs', ha, b, bs'', hb, rfl, rfl⟩ := h
    rw [c.enc_dec _ _ _ ha, d.enc_dec _ _ _ hb, List.append_assoc]

def map (c : Codec α) (e : α ≃ β) : Codec β where
  enc b := c.enc (e.symm b)
  dec bs := (c.dec bs).map fun p => (e p.1, p.2)
  dec_enc b t := by simp [c.dec_enc]
  enc_dec bs b t h := by
    simp only [Option.map_eq_some_iff, Prod.exists, Prod.mk.injEq] at h
    obtain ⟨a, t', ha, rfl, rfl⟩ := h
    rw [c.enc_dec _ _ _ ha, e.symm_apply_apply]

def byte : Codec UInt8 where
  enc b := [b]
  dec
    | [] => none
    | b :: bs => some (b, bs)
  dec_enc b t := rfl
  enc_dec bs b t h := by
    cases bs with
    | nil => simp at h
    | cons x bs =>
      obtain ⟨rfl, rfl⟩ : x = b ∧ bs = t := by simpa using h
      rfl

end Codec

/-- `[u8; n]`. -/
abbrev ByteArrayOf (n : Nat) := { bs : Bytes // bs.length = n }

/-- `n` in `w` bytes, most significant first. -/
def toBeBytes : Nat → Nat → Bytes
  | 0, _ => []
  | w + 1, n => UInt8.ofNat (n / 256 ^ w) :: toBeBytes w (n % 256 ^ w)

def ofBeBytes : Bytes → Nat
  | [] => 0
  | b :: bs => b.toNat * 256 ^ bs.length + ofBeBytes bs

@[simp] theorem length_toBeBytes (w n : Nat) : (toBeBytes w n).length = w := by
  induction w generalizing n with
  | zero => rfl
  | succ w ih => simp [toBeBytes, ih]

theorem ofBeBytes_lt (bs : Bytes) : ofBeBytes bs < 256 ^ bs.length := by
  induction bs with
  | nil => simp [ofBeBytes]
  | cons b bs ih =>
    have hb : b.toNat + 1 ≤ 256 := b.toNat_lt
    calc ofBeBytes (b :: bs)
        < b.toNat * 256 ^ bs.length + 256 ^ bs.length := by simpa [ofBeBytes] using ih
      _ = (b.toNat + 1) * 256 ^ bs.length := by ring
      _ ≤ 256 * 256 ^ bs.length := Nat.mul_le_mul_right _ hb
      _ = 256 ^ (b :: bs).length := by rw [List.length_cons, Nat.pow_succ']

theorem ofBeBytes_toBeBytes {w n : Nat} (h : n < 256 ^ w) : ofBeBytes (toBeBytes w n) = n := by
  induction w generalizing n with
  | zero =>
    have : n = 0 := by simpa using h
    simp [toBeBytes, ofBeBytes, this]
  | succ w ih =>
    have hpos : 0 < 256 ^ w := Nat.pow_pos (by decide)
    have hdiv : n / 256 ^ w < 256 := by
      rw [Nat.div_lt_iff_lt_mul hpos, ← Nat.pow_succ']
      exact h
    rw [toBeBytes, ofBeBytes, length_toBeBytes, ih (Nat.mod_lt _ hpos), UInt8.toNat_ofNat',
      Nat.mod_eq_of_lt hdiv, Nat.mul_comm]
    exact Nat.div_add_mod n _

theorem toBeBytes_ofBeBytes (bs : Bytes) : toBeBytes bs.length (ofBeBytes bs) = bs := by
  induction bs with
  | nil => rfl
  | cons b bs ih =>
    have hlt := ofBeBytes_lt bs
    have hpos : 0 < 256 ^ bs.length := Nat.pow_pos (by decide)
    have hdiv : (b.toNat * 256 ^ bs.length + ofBeBytes bs) / 256 ^ bs.length = b.toNat := by
      rw [Nat.add_comm, Nat.add_mul_div_right _ _ hpos, Nat.div_eq_of_lt hlt, Nat.zero_add]
    have hmod : (b.toNat * 256 ^ bs.length + ofBeBytes bs) % 256 ^ bs.length = ofBeBytes bs := by
      rw [Nat.add_comm, Nat.add_mul_mod_self_right, Nat.mod_eq_of_lt hlt]
    rw [List.length_cons, toBeBytes, ofBeBytes, hdiv, hmod, ih, UInt8.ofNat_toNat]

namespace Codec

def bytes (n : Nat) : Codec (ByteArrayOf n) where
  enc a := a.val
  dec bs :=
    if h : n ≤ bs.length then some (⟨bs.take n, List.length_take_of_le h⟩, bs.drop n) else none
  dec_enc a t := by
    obtain ⟨bs, rfl⟩ := a
    simp
  enc_dec bs a t h := by
    split at h
    · obtain ⟨rfl, rfl⟩ := Prod.mk.inj (Option.some.inj h)
      exact (List.take_append_drop n bs).symm
    · simp at h

def beEquiv (w : Nat) : ByteArrayOf w ≃ Fin (256 ^ w) where
  toFun bs := ⟨ofBeBytes bs.val, by
    have := ofBeBytes_lt bs.val
    rwa [bs.property] at this⟩
  invFun n := ⟨toBeBytes w n, length_toBeBytes w n⟩
  left_inv bs := by
    obtain ⟨bs, rfl⟩ := bs
    exact Subtype.ext (toBeBytes_ofBeBytes bs)
  right_inv n := Fin.ext (ofBeBytes_toBeBytes n.isLt)

def be (w : Nat) : Codec (Fin (256 ^ w)) := (bytes w).map (beEquiv w)

def u32 : Codec UInt32 := (be 4).map
  { toFun := fun n => UInt32.ofNat n
    invFun := fun n => ⟨n.toNat, n.toNat_lt⟩
    left_inv := fun n => Fin.ext (by simp)
    right_inv := fun n => by simp }

def u64 : Codec UInt64 := (be 8).map
  { toFun := fun n => UInt64.ofNat n
    invFun := fun n => ⟨n.toNat, n.toNat_lt⟩
    left_inv := fun n => Fin.ext (by simp)
    right_inv := fun n => by simp }

end Codec

/-- `Vec<α>`: a list whose length a 64-bit count can say. -/
abbrev Vec (α : Type) := { as : List α // as.length < 256 ^ 8 }

namespace Codec

variable {α : Type}

def decTimes (c : Codec α) : Nat → Bytes → Option (List α × Bytes)
  | 0, bs => some ([], bs)
  | n + 1, bs => do
    let (a, bs) ← c.dec bs
    let (as, bs) ← decTimes c n bs
    return (a :: as, bs)

theorem decTimes_enc (c : Codec α) (as : List α) (t : Bytes) :
    decTimes c as.length (as.flatMap c.enc ++ t) = some (as, t) := by
  induction as with
  | nil => rfl
  | cons a as ih => simp [decTimes, c.dec_enc, ih]

theorem enc_decTimes (c : Codec α) {n : Nat} {bs t : Bytes} {as : List α}
    (h : decTimes c n bs = some (as, t)) : as.length = n ∧ bs = as.flatMap c.enc ++ t := by
  induction n generalizing bs as with
  | zero =>
    obtain ⟨rfl, rfl⟩ : [] = as ∧ bs = t := by simpa [decTimes] using h
    exact ⟨rfl, rfl⟩
  | succ n ih =>
    simp only [decTimes, Option.bind_eq_bind, Option.bind_eq_some_iff, Prod.exists,
      Option.pure_def, Option.some.injEq, Prod.mk.injEq] at h
    obtain ⟨a, bs', ha, as', t', has, rfl, rfl⟩ := h
    obtain ⟨rfl, rfl⟩ := ih has
    exact ⟨rfl, by rw [c.enc_dec _ _ _ ha, List.flatMap_cons, List.append_assoc]⟩

def vec (c : Codec α) : Codec (Vec α) where
  enc as := toBeBytes 8 as.val.length ++ as.val.flatMap c.enc
  dec bs := do
    let (n, bs) ← (be 8).dec bs
    let (as, bs) ← decTimes c n bs
    if h : as.length < 256 ^ 8 then some (⟨as, h⟩, bs) else none
  dec_enc as t := by
    have hbe := (be 8).dec_enc ⟨_, as.property⟩ (as.val.flatMap c.enc ++ t)
    rw [List.append_assoc]
    change (be 8).dec (toBeBytes 8 as.val.length ++ _) = _ at hbe
    simp only [hbe, Option.bind_eq_bind, Option.bind_some, decTimes_enc]
    exact dif_pos as.property
  enc_dec bs as t h := by
    simp only [Option.bind_eq_bind, Option.bind_eq_some_iff, Prod.exists] at h
    obtain ⟨n, bs', hn, as', t', has, h⟩ := h
    split at h
    · obtain ⟨rfl, rfl⟩ := Prod.mk.inj (Option.some.inj h)
      obtain ⟨hlen, rfl⟩ := enc_decTimes c has
      rw [(be 8).enc_dec _ _ _ hn, ← List.append_assoc]
      simp only [hlen]
      rfl
    · simp at h

end Codec

end Libid
