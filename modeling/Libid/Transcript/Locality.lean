import Libid.Transcript.Template

/-! A match of a template depends on the bytes it spans and on nothing else, so it
survives wherever those bytes go. -/

namespace Libid.Transcript

theorem WsAt.congr {x y : Bytes} {i : Nat} (h : x[i]? = y[i]?) : WsAt x i ↔ WsAt y i := by
  rw [WsAt, WsAt, h]

theorem DigitAt.congr {x y : Bytes} {i : Nat} (h : x[i]? = y[i]?) :
    DigitAt x i ↔ DigitAt y i := by
  rw [DigitAt, DigitAt, h]

theorem KeyAt.congr {x y field : Bytes} {s c : Nat} (h : KeyAt x field s c)
    (hxy : ∀ i, s ≤ i → i ≤ c → x[i]? = y[i]?) : KeyAt y field s c := by
  have hlt := h.lt
  refine ⟨h.key.congr fun j hj hjlt => hxy j hj ?_, h.ws.congr fun i hi hic => ?_, ?_⟩
  · rw [length_quotedKey] at hjlt
    omega
  · exact hxy i (by omega) (by omega)
  · rw [← hxy c (by omega) le_rfl]
    exact h.colon

theorem ValueAt.congr {x y field : Bytes} {quoted : Bool} {s v : Nat}
    (h : ValueAt x field quoted s v) (hxy : ∀ i, s ≤ i → i ≤ v → x[i]? = y[i]?) :
    ValueAt y field quoted s v := by
  obtain ⟨c, hc, hskip, hq⟩ := h
  obtain ⟨hrun, hend⟩ := skipJsonWhitespace_eq_iff.mp hskip
  have hlt := hc.lt
  have hle := hrun.le
  have hv := hxy v (by omega) le_rfl
  refine ⟨c, hc.congr fun i hi hic => hxy i hi (by omega), ?_, by rwa [← hv]⟩
  refine skipJsonWhitespace_eq_iff.mpr ⟨?_, by rwa [← WsAt.congr hv]⟩
  exact hrun.congr fun i hi hiv => hxy i (by omega) (by omega)

theorem StringAt.congr {x y : Bytes} {q e : Nat} (h : StringAt x q e)
    (hxy : ∀ i, q ≤ i → i ≤ e → x[i]? = y[i]?) : StringAt y q e where
  opening := by
    rw [← hxy q le_rfl (by have := h.lt; omega)]
    exact h.opening
  lt := h.lt
  quoteFree i hi hie := by
    rw [← hxy i (by omega) (by omega)]
    exact h.quoteFree i hi hie
  closing := by
    rw [← hxy e (by have := h.lt; omega) le_rfl]
    exact h.closing

theorem NumberAt.congr {x y : Bytes} {d n t : Nat} (h : NumberAt x d n t)
    (hxy : ∀ i, d ≤ i → i ≤ t → x[i]? = y[i]?) : NumberAt y d n t := by
  have hlt := h.lt
  have hle := h.ws.le
  exact {
    lt := hlt
    digits := fun i hi hin => (DigitAt.congr (hxy i hi (by omega))).mp (h.digits i hi hin)
    whole := fun hn => h.whole ((DigitAt.congr (hxy n (by omega) hle)).mpr hn)
    canonical := by
      rw [← hxy d le_rfl (by omega)]
      exact h.canonical
    ws := h.ws.congr fun i hi hit => hxy i (by omega) (by omega)
    term := by
      rw [← hxy t (by omega) le_rfl]
      exact h.term }

theorem TailAt.congr {x y : Bytes} {quoted : Bool} {v stop : Nat} (h : TailAt x quoted v stop)
    (hxy : ∀ i, v ≤ i → i < stop → x[i]? = y[i]?) : TailAt y quoted v stop := by
  cases quoted with
  | true =>
    obtain ⟨e, hstr, rfl⟩ := tailAt_true.mp h
    exact tailAt_true.mpr ⟨e, hstr.congr fun i hi hie => hxy i hi (by omega), rfl⟩
  | false =>
    obtain ⟨n, t, hnum, rfl⟩ := tailAt_false.mp h
    exact tailAt_false.mpr ⟨n, t, hnum.congr fun i hi hit => hxy i hi (by omega), rfl⟩

theorem SnippetAt.congr {x y field : Bytes} {quoted : Bool} {s v stop : Nat}
    (h : SnippetAt x field quoted s v stop) (hxy : ∀ i, s ≤ i → i < stop → x[i]? = y[i]?) :
    SnippetAt y field quoted s v stop := by
  have hlt := h.1.lt
  have hbound := h.2.bounds
  exact ⟨h.1.congr fun i hi hiv => hxy i hi (by omega),
    h.2.congr fun i hi hit => hxy i (by omega) hit⟩

theorem wsAt_drop {body : Bytes} {n i : Nat} : WsAt (body.drop n) i ↔ WsAt body (n + i) := by
  rw [WsAt, WsAt, List.getElem?_drop]

theorem digitAt_drop {body : Bytes} {n i : Nat} :
    DigitAt (body.drop n) i ↔ DigitAt body (n + i) := by
  rw [DigitAt, DigitAt, List.getElem?_drop]

theorem valueAt_drop {body field : Bytes} {quoted : Bool} {n s v : Nat} :
    ValueAt (body.drop n) field quoted s v ↔ ValueAt body field quoted (n + s) (n + v) := by
  have hskip : ∀ c, skipJsonWhitespace (body.drop n) (c + 1) = v ↔
      skipJsonWhitespace body (n + c + 1) = n + v := by
    intro c
    rw [skipJsonWhitespace_eq_iff, skipJsonWhitespace_eq_iff, wsRun_drop, wsAt_drop,
      Nat.add_assoc]
  constructor
  · rintro ⟨c, hc, hv, hq⟩
    exact ⟨n + c, keyAt_drop.mp hc, (hskip c).mp hv, by rwa [List.getElem?_drop] at hq⟩
  · rintro ⟨c, hc, hv, hq⟩
    obtain ⟨c, rfl⟩ := Nat.exists_eq_add_of_le (show n ≤ c by have := hc.lt; omega)
    exact ⟨c, keyAt_drop.mpr hc, (hskip c).mpr hv, by rwa [List.getElem?_drop]⟩

theorem numberAt_drop {body : Bytes} {k d n t : Nat} :
    NumberAt (body.drop k) d n t ↔ NumberAt body (k + d) (k + n) (k + t) := by
  constructor
  · rintro ⟨hlt, hdig, hwhole, hcan, hws, hterm⟩
    simp only [List.getElem?_drop] at hcan hterm
    refine ⟨by omega, fun i hi hin => ?_, by rwa [← digitAt_drop], ?_, wsRun_drop.mp hws, hterm⟩
    · have := hdig (i - k) (by omega) (by omega)
      rwa [digitAt_drop, Nat.add_sub_cancel' (by omega)] at this
    · exact hcan.imp_left fun h => by omega
  · rintro ⟨hlt, hdig, hwhole, hcan, hws, hterm⟩
    refine ⟨by omega, fun i hi hin => ?_, by rwa [digitAt_drop], ?_, wsRun_drop.mpr hws, ?_⟩
    · rw [digitAt_drop]
      exact hdig _ (by omega) (by omega)
    · rw [List.getElem?_drop]
      exact hcan.imp_left fun h => by omega
    · rwa [List.getElem?_drop]

theorem tailAt_drop {body : Bytes} {quoted : Bool} {n v stop : Nat} :
    TailAt (body.drop n) quoted v stop ↔ TailAt body quoted (n + v) (n + stop) := by
  cases quoted with
  | true =>
    rw [tailAt_true, tailAt_true]
    constructor
    · rintro ⟨e, hstr, rfl⟩
      exact ⟨n + e, stringAt_drop.mp hstr, rfl⟩
    · rintro ⟨e, hstr, hstop⟩
      obtain ⟨e, rfl⟩ := Nat.exists_eq_add_of_le (show n ≤ e by have := hstr.lt; omega)
      exact ⟨e, stringAt_drop.mpr hstr, by omega⟩
  | false =>
    rw [tailAt_false, tailAt_false]
    constructor
    · rintro ⟨m, t, hnum, rfl⟩
      exact ⟨n + m, n + t, numberAt_drop.mp hnum, rfl⟩
    · rintro ⟨m, t, hnum, hstop⟩
      have hlt := hnum.lt
      have hle := hnum.ws.le
      obtain ⟨m, rfl⟩ := Nat.exists_eq_add_of_le (show n ≤ m by omega)
      obtain ⟨t, rfl⟩ := Nat.exists_eq_add_of_le (show n ≤ t by omega)
      exact ⟨m, t, numberAt_drop.mpr hnum, by omega⟩

theorem snippetAt_drop {body field : Bytes} {quoted : Bool} {n s v stop : Nat} :
    SnippetAt (body.drop n) field quoted s v stop ↔
      SnippetAt body field quoted (n + s) (n + v) (n + stop) :=
  and_congr valueAt_drop tailAt_drop

theorem KeyAt.transport {x y field : Bytes} {s c : Nat} (h : KeyAt x field s c) (n : Nat)
    (hxy : ∀ i ≤ c - s, x[s + i]? = y[n + i]?) : KeyAt y field n (n + (c - s)) := by
  have hlt := h.lt
  have hx : KeyAt (x.drop s) field 0 (c - s) := by
    rw [keyAt_drop, Nat.add_sub_cancel' (by omega)]
    exact h
  refine keyAt_drop.mp (hx.congr fun i _ hi => ?_)
  rw [List.getElem?_drop, List.getElem?_drop]
  exact hxy i hi

theorem ValueAt.transport {x y field : Bytes} {quoted : Bool} {s v : Nat}
    (h : ValueAt x field quoted s v) (n : Nat) (hxy : ∀ i ≤ v - s, x[s + i]? = y[n + i]?) :
    ValueAt y field quoted n (n + (v - s)) := by
  have hlt := h.lt
  have hx : ValueAt (x.drop s) field quoted 0 (v - s) := by
    rw [valueAt_drop, Nat.add_sub_cancel' (by omega)]
    exact h
  refine valueAt_drop.mp (hx.congr fun i _ hi => ?_)
  rw [List.getElem?_drop, List.getElem?_drop]
  exact hxy i hi

theorem SnippetAt.transport {x y field : Bytes} {quoted : Bool} {s v stop : Nat}
    (h : SnippetAt x field quoted s v stop) (n : Nat)
    (hxy : ∀ i < stop - s, x[s + i]? = y[n + i]?) :
    SnippetAt y field quoted n (n + (v - s)) (n + (stop - s)) := by
  have hlt := h.1.lt
  have hbound := h.2.bounds
  have hx : SnippetAt (x.drop s) field quoted 0 (v - s) (stop - s) := by
    rw [snippetAt_drop, Nat.add_sub_cancel' (by omega), Nat.add_sub_cancel' (by omega)]
    exact h
  refine snippetAt_drop.mp (hx.congr fun i _ hi => ?_)
  rw [List.getElem?_drop, List.getElem?_drop]
  exact hxy i hi

end Libid.Transcript
