import Libid.Base.Codec
import Libid.Base.Hex
import Mathlib.Data.List.DropRight
import Mathlib.Data.List.Nodup
import Mathlib.Data.List.Pairwise
import Mathlib.Tactic.IntervalCases

/-! Signing keys as a configuration names them: an entry is told apart by its shape, and a
pool is a comma-separated list of entries. -/

namespace Libid.Signer

/-- `&str`, as its characters. -/
abbrev Str := List Char

/-- The characters with the property White_Space. -/
def isWhitespace (c : Char) : Bool :=
  (0x09 ≤ c.toNat && c.toNat ≤ 0x0d) || (0x2000 ≤ c.toNat && c.toNat ≤ 0x200a) ||
    [0x20, 0x85, 0xa0, 0x1680, 0x2028, 0x2029, 0x202f, 0x205f, 0x3000].contains c.toNat

def trim (s : Str) : Str := (s.dropWhile isWhitespace).rdropWhile isWhitespace

def isAsciiHexdigit (c : Char) : Bool :=
  (0x30 ≤ c.toNat && c.toNat ≤ 0x39) || (0x41 ≤ c.toNat && c.toNat ≤ 0x46) ||
    (0x61 ≤ c.toNat && c.toNat ≤ 0x66)

/-- `s.strip_prefix("0x").unwrap_or(s)`. -/
def strip0x : Str → Str
  | '0' :: 'x' :: s => s
  | s => s

/-- `s.as_bytes()`. -/
def asBytes (s : Str) : Bytes := s.flatMap String.utf8EncodeChar

inductive SignerError
  | signerConfig (detail : String)
  deriving DecidableEq

inductive SignerSource
  | privateKey (hexKey : Str)
  | kms (keyId : Str)
  deriving DecidableEq

namespace SignerSource

def fromSpec (spec : Str) : Except SignerError SignerSource :=
  let entry := trim spec
  if entry = [] then .error (.signerConfig "empty signing key spec")
  else
    let hexish := strip0x entry
    if hexish.all isAsciiHexdigit then
      let len := (asBytes hexish).length
      if len = 64 then .ok (.privateKey entry)
      else
        let shown := String.ofList (entry.take 8)
        .error (.signerConfig (s!"'{shown}…' looks like a hex private key but has {len} hex chars, "
          ++ "expected 64 — refusing to treat it as a KMS key id"))
    else .ok (.kms entry)

/-- The loop of `parse_list`. -/
def parseEntries : List Str → List SignerSource → List Str → Except SignerError (List SignerSource)
  | [], out, _ => .ok out
  | raw :: raws, out, seen =>
    let entry := trim raw
    if entry = [] then parseEntries raws out seen
    else if entry ∈ seen then
      let shown := String.ofList entry
      .error (.signerConfig s!"duplicate pool signer '{shown}' — each slot needs its own key")
    else
      match fromSpec entry with
      | .error e => .error e
      | .ok source => parseEntries raws (out ++ [source]) (entry :: seen)

def parseList (spec : Str) : Except SignerError (List SignerSource) :=
  match parseEntries (spec.splitOn ',') [] [] with
  | .error e => .error e
  | .ok [] => .error (.signerConfig "signer list is set but names no signers")
  | .ok out => .ok out

/-- The key `build_managed` hands to the local signer. -/
def decodeKey (hexKey : Str) : Option (ByteArrayOf 32) := do
  let bytes ← hexDecode (asBytes (strip0x hexKey))
  if h : bytes.length = 32 then some ⟨bytes, h⟩ else none

structure IsKey (entry : Str) : Prop where
  hex : ∀ c ∈ strip0x entry, isAsciiHexdigit c = true
  length : (strip0x entry).length = 64

inductive Classified (entry : Str) : SignerSource → Prop
  | privateKey (h : IsKey entry) : Classified entry (.privateKey entry)
  | kms (h : ¬ ∀ c ∈ strip0x entry, isAsciiHexdigit c = true) : Classified entry (.kms entry)

def text : SignerSource → Str
  | .privateKey hexKey => hexKey
  | .kms keyId => keyId

theorem Classified.text_eq {entry : Str} {source : SignerSource} (h : Classified entry source) :
    source.text = entry := by
  cases h <;> rfl

theorem utf8EncodeChar_of_hexdigit {c : Char} (h : isAsciiHexdigit c = true) :
    ∃ a, String.utf8EncodeChar c = [a] ∧ (hexDigit a).isSome := by
  simp only [isAsciiHexdigit, Bool.or_eq_true, Bool.and_eq_true, decide_eq_true_eq] at h
  rw [← Char.ofNat_toNat c]
  rcases h with (⟨hge, hle⟩ | ⟨hge, hle⟩) | ⟨hge, hle⟩ <;>
    interval_cases c.toNat <;> exact ⟨_, rfl, rfl⟩

theorem asBytes_of_hex {s : Str} (h : ∀ c ∈ s, isAsciiHexdigit c = true) :
    (asBytes s).length = s.length ∧ ∀ a ∈ asBytes s, (hexDigit a).isSome := by
  induction s with
  | nil => exact ⟨rfl, by simp [asBytes]⟩
  | cons c s ih =>
    obtain ⟨a, ha, hdigit⟩ := utf8EncodeChar_of_hexdigit (h c (by simp))
    obtain ⟨hlen, hall⟩ := ih fun c hc => h c (by simp [hc])
    rw [asBytes] at hlen hall ⊢
    rw [List.flatMap_cons, ha, List.singleton_append]
    exact ⟨by rw [List.length_cons, hlen, List.length_cons],
      List.forall_mem_cons.mpr ⟨hdigit, hall⟩⟩

theorem fromSpec_eq_ok {spec : Str} {source : SignerSource} (h : fromSpec spec = .ok source) :
    trim spec ≠ [] ∧ Classified (trim spec) source := by
  rw [fromSpec] at h
  split at h
  case isTrue => exact nomatch h
  case isFalse hne =>
    refine ⟨hne, ?_⟩
    simp only [List.all_eq_true] at h
    split at h
    case isTrue hhex =>
      split at h
      case isTrue hlen =>
        obtain rfl := Except.ok.inj h
        exact .privateKey ⟨hhex, (asBytes_of_hex hhex).1 ▸ hlen⟩
      case isFalse => exact nomatch h
    case isFalse hhex =>
      obtain rfl := Except.ok.inj h
      exact .kms hhex

theorem trim_trim (s : Str) : trim (trim s) = trim s := by
  have hinit : trim s <+: s.dropWhile isWhitespace := List.rdropWhile_prefix ..
  have hhead : (trim s).dropWhile isWhitespace = trim s := by
    rw [List.dropWhile_eq_self_iff]
    intro hl
    rw [hinit.getElem]
    exact List.dropWhile_get_zero_not isWhitespace s (hl.trans_le hinit.length_le)
  rw [trim, hhead]
  exact List.rdropWhile_idempotent ..

/-- What a list names: its entries, trimmed, without the empty ones. -/
def named (raws : List Str) : List Str := (raws.map trim).filter (· ≠ [])

def entries (spec : Str) : List Str := named (spec.splitOn ',')

theorem parseEntries_eq_ok {raws : List Str} {out slots : List SignerSource} {seen : List Str}
    (h : parseEntries raws out seen = .ok slots) :
    ∃ new, slots = out ++ new ∧ List.Forall₂ Classified (named raws) new ∧
      (named raws).Nodup ∧ ∀ e ∈ named raws, e ∉ seen := by
  fun_induction parseEntries raws out seen with
  | case1 out seen =>
    obtain rfl := Except.ok.inj h
    exact ⟨[], by simp, .nil, .nil, by simp [named]⟩
  | case2 raw raws out seen entry hempty ih =>
    have hnamed : named (raw :: raws) = named raws := by
      rw [named, List.map_cons, List.filter_cons_of_neg (by simpa using hempty), named]
    rw [hnamed]
    exact ih h
  | case3 => exact nomatch h
  | case4 => exact nomatch h
  | case5 raw raws out seen entry hne hseen source hsource ih =>
    have hnamed : named (raw :: raws) = entry :: named raws := by
      rw [named, List.map_cons, List.filter_cons_of_pos (by simpa using hne), named]
    obtain ⟨-, hclass⟩ := fromSpec_eq_ok hsource
    rw [trim_trim] at hclass
    obtain ⟨new, rfl, hall, hnodup, hfresh⟩ := ih h
    rw [hnamed]
    refine ⟨source :: new, by simp, .cons hclass hall, ?_, ?_⟩
    · exact List.nodup_cons.mpr ⟨fun he => hfresh entry he (by simp), hnodup⟩
    · refine List.forall_mem_cons.mpr ⟨hseen, fun e he hmem => hfresh e he (by simp [hmem])⟩

theorem forall₂_classified {es : List Str} {slots : List SignerSource}
    (h : List.Forall₂ Classified es slots) :
    slots.map text = es ∧ ∀ s ∈ slots, Classified s.text s := by
  induction h with
  | nil => simp
  | cons hclass _ ih =>
    obtain ⟨hmap, hall⟩ := ih
    refine ⟨by rw [List.map_cons, hclass.text_eq, hmap], List.forall_mem_cons.mpr ⟨?_, hall⟩⟩
    rwa [hclass.text_eq]

theorem parseList_eq_ok {spec : Str} {slots : List SignerSource} (h : parseList spec = .ok slots) :
    slots.map text = entries spec ∧ (∀ s ∈ slots, Classified s.text s) ∧
      (slots.map text).Nodup := by
  rw [parseList] at h
  split at h
  case h_1 => exact nomatch h
  case h_2 => exact nomatch h
  case h_3 out _ hloop =>
    obtain rfl := Except.ok.inj h
    obtain ⟨new, rfl, hall, hnodup, -⟩ := parseEntries_eq_ok hloop
    obtain ⟨hmap, hclass⟩ := forall₂_classified hall
    exact ⟨hmap, hclass, hmap ▸ hnodup⟩

def digits (entry : Str) : Bytes := (asBytes (strip0x entry)).map toAsciiLowercase

theorem IsKey.exists_decodeKey {entry : Str} (h : IsKey entry) :
    ∃ bytes, hexDecode (asBytes (strip0x entry)) = some bytes.1 ∧
      decodeKey entry = some bytes := by
  obtain ⟨hlen, hdigits⟩ := asBytes_of_hex h.hex
  rw [h.length] at hlen
  obtain ⟨bytes, hdecode, h32⟩ := exists_hexDecode (n := 32) hlen hdigits
  refine ⟨⟨bytes, h32⟩, hdecode, ?_⟩
  simp [decodeKey, hdecode, h32]

theorem IsKey.decodeKey_eq_iff {a b : Str} (ha : IsKey a) (hb : IsKey b) :
    decodeKey a = decodeKey b ↔ digits a = digits b := by
  obtain ⟨x, hx, hkx⟩ := ha.exists_decodeKey
  obtain ⟨y, hy, hky⟩ := hb.exists_decodeKey
  rw [hkx, hky, Option.some.injEq, Subtype.ext_iff, hexDecode_eq_iff hx hy, digits, digits]

def key? : SignerSource → Option (ByteArrayOf 32)
  | .privateKey hexKey => decodeKey hexKey
  | .kms _ => none

def kmsId? : SignerSource → Option Str
  | .privateKey _ => none
  | .kms keyId => some keyId

structure DistinctKeys (slots : List SignerSource) : Prop where
  decodes : ∀ hexKey, .privateKey hexKey ∈ slots → (decodeKey hexKey).isSome
  keys : (slots.filterMap key?).Nodup
  ids : (slots.filterMap kmsId?).Nodup

/-- Two entries that differ, but only in a `0x` or in the case of a key's digits. -/
def Respelled (spec : Str) : Prop :=
  ∃ a ∈ entries spec, ∃ b ∈ entries spec, a ≠ b ∧ IsKey a ∧ IsKey b ∧ digits a = digits b

theorem key?_eq_some {s : SignerSource} (hs : Classified s.text s) {k : ByteArrayOf 32} :
    s.key? = some k ↔ IsKey s.text ∧ decodeKey s.text = some k := by
  cases s with
  | privateKey hexKey =>
    cases hs with
    | privateKey h => exact (and_iff_right h).symm
  | kms keyId =>
    cases hs with
    | kms h =>
      apply iff_of_false (by simp [key?])
      rintro ⟨hkey, -⟩
      exact h hkey.hex

theorem nodup_filterMap_iff {α β : Type} {f : α → Option β} {l : List α} (hl : l.Nodup) :
    (l.filterMap f).Nodup ↔ ∀ a ∈ l, ∀ b ∈ l, ∀ x, f a = some x → f b = some x → a = b := by
  rw [List.Nodup, List.pairwise_filterMap]
  constructor
  · intro h a ha b hb x hax hbx
    let Apart (a b : α) : Prop := ∀ x, f a = some x → ∀ y, f b = some y → x ≠ y
    have : Std.Symm Apart := ⟨fun _ _ hab y hy x hx => (hab x hx y hy).symm⟩
    by_contra hne
    exact List.Pairwise.forall (R := Apart) h ha hb hne x hax x hbx rfl
  · intro h
    apply hl.pairwise_of_forall_ne
    rintro a ha b hb hne x hx y hy rfl
    exact hne (h a ha b hb x hx hy)

theorem nodup_slots {spec : Str} {slots : List SignerSource} (h : parseList spec = .ok slots) :
    slots.Nodup :=
  .of_map text (parseList_eq_ok h).2.2

theorem decodes_of_parseList {spec hexKey : Str} {slots : List SignerSource}
    (h : parseList spec = .ok slots) (hmem : .privateKey hexKey ∈ slots) :
    (decodeKey hexKey).isSome := by
  cases (parseList_eq_ok h).2.1 _ hmem with
  | privateKey hkey =>
    obtain ⟨bytes, -, hbytes⟩ := hkey.exists_decodeKey
    exact Option.isSome_iff_exists.mpr ⟨bytes, hbytes⟩

theorem nodup_ids {spec : Str} {slots : List SignerSource} (h : parseList spec = .ok slots) :
    (slots.filterMap kmsId?).Nodup := by
  rw [nodup_filterMap_iff (nodup_slots h)]
  intro s _ t _ id hs ht
  cases s with
  | privateKey => simp [kmsId?] at hs
  | kms =>
    cases t with
    | privateKey => simp [kmsId?] at ht
    | kms => exact congrArg kms (Option.some.inj (hs.trans ht.symm))

theorem nodup_keys_iff {spec : Str} {slots : List SignerSource} (h : parseList spec = .ok slots) :
    (slots.filterMap key?).Nodup ↔ ¬ Respelled spec := by
  obtain ⟨hmap, hclass, hnodup⟩ := parseList_eq_ok h
  rw [nodup_filterMap_iff (nodup_slots h)]
  constructor
  · rintro hinj ⟨a, ha, b, hb, hne, hka, hkb, hdigits⟩
    rw [← hmap] at ha hb
    obtain ⟨s, hs, rfl⟩ := List.mem_map.mp ha
    obtain ⟨t, ht, rfl⟩ := List.mem_map.mp hb
    obtain ⟨k, -, hk⟩ := hka.exists_decodeKey
    have hk' := ((hka.decodeKey_eq_iff hkb).mpr hdigits).symm.trans hk
    have hst := hinj s hs t ht k ((key?_eq_some (hclass s hs)).mpr ⟨hka, hk⟩)
      ((key?_eq_some (hclass t ht)).mpr ⟨hkb, hk'⟩)
    exact hne (congrArg text hst)
  · intro hno s hs t ht k hsk htk
    obtain ⟨hka, hk⟩ := (key?_eq_some (hclass s hs)).mp hsk
    obtain ⟨hkb, hk'⟩ := (key?_eq_some (hclass t ht)).mp htk
    have hdigits := (hka.decodeKey_eq_iff hkb).mp (hk.trans hk'.symm)
    by_contra hne
    apply hno
    refine ⟨s.text, hmap ▸ List.mem_map_of_mem hs, t.text, hmap ▸ List.mem_map_of_mem ht, ?_,
      hka, hkb, hdigits⟩
    intro htext
    exact hne (List.inj_on_of_nodup_map hnodup hs ht htext)

/-- A list of distinct entries names distinct keys unless one key is spelled twice. -/
theorem parseList_distinct_iff {spec : Str} {slots : List SignerSource}
    (h : parseList spec = .ok slots) : DistinctKeys slots ↔ ¬ Respelled spec := by
  constructor
  · intro hdistinct
    exact (nodup_keys_iff h).mp hdistinct.keys
  · intro hno
    exact ⟨fun _ => decodes_of_parseList h, (nodup_keys_iff h).mpr hno, nodup_ids h⟩

theorem parseList_distinct_iff_run :
    ∃ slots, parseList (List.replicate 64 'a' ++ [',', ' ', 'k', 'm', 's']) = .ok slots ∧
      (DistinctKeys slots ↔
        ¬ Respelled (List.replicate 64 'a' ++ [',', ' ', 'k', 'm', 's'])) := by
  have h : parseList (List.replicate 64 'a' ++ [',', ' ', 'k', 'm', 's']) =
      .ok [.privateKey (List.replicate 64 'a'), .kms ['k', 'm', 's']] := by decide +kernel
  exact ⟨_, h, parseList_distinct_iff h⟩

/-- One key, bare and with a `0x` and other letters, takes two slots. -/
theorem parseList_shares_key :
    ∃ slots, parseList (List.replicate 64 'a' ++ ',' :: '0' :: 'x' :: List.replicate 64 'A') =
        .ok slots ∧ slots.length = 2 ∧ ¬ DistinctKeys slots := by
  have h : parseList (List.replicate 64 'a' ++ ',' :: '0' :: 'x' :: List.replicate 64 'A') =
      .ok [.privateKey (List.replicate 64 'a'),
        .privateKey ('0' :: 'x' :: List.replicate 64 'A')] := by decide +kernel
  refine ⟨_, h, rfl, ?_⟩
  rintro ⟨-, hkeys, -⟩
  revert hkeys
  decide +kernel

end SignerSource

end Libid.Signer
