import Libid.Transcript.Wire

namespace Libid.Transcript

variable {α ε : Type} {toVec : α → Except ε Bytes} {fromSlice : Bytes → Except ε α}

@[simp] theorem length_frame (json : Bytes) : (frame json).length = 4 + json.length := by
  rw [frame, List.length_append, length_toBeBytes]

theorem readMsg_cut (fromSlice : Bytes → Except ε α) {json : Bytes} {n : Nat}
    (hlen : json.length ≤ maxMsgSize) (hn : n < (frame json).length) {r : ByteStream}
    (hr : r.bytes = (frame json).take n) : readMsg fromSlice r = .error .io := by
  rw [length_frame] at hn
  rcases Nat.lt_or_ge n 4 with hprefix | hpayload
  · have hshort : r.bytes.length < 4 := by
      rw [hr, List.length_take]
      omega
    rw [readMsg, ByteStream.readExact_eq_none hshort]
    rfl
  · obtain ⟨k, rfl⟩ := Nat.exists_eq_add_of_le hpayload
    have hsplit : r.bytes = toBeBytes 4 json.length ++ json.take k := by
      rw [hr, frame, List.take_append, length_toBeBytes, List.take_of_length_le,
        Nat.add_sub_cancel_left]
      rw [length_toBeBytes]
      omega
    obtain ⟨s, hs, hsb⟩ := ByteStream.readExact_append hsplit
    have hshort : s.bytes.length < json.length := by
      rw [hsb, List.length_take]
      omega
    have hof : ofBeBytes (toBeBytes 4 json.length) = json.length :=
      ofBeBytes_toBeBytes (by rw [maxMsgSize] at hlen; omega)
    rw [length_toBeBytes] at hs
    simp only [readMsg, hs, okOr, bind, Except.bind, hof, ByteStream.readExact_eq_none hshort]
    rw [if_neg (by omega)]

theorem readMsg_nil (fromSlice : Bytes → Except ε α) {r : ByteStream} (hr : r.bytes = []) :
    readMsg fromSlice r = .error .io := by
  rw [readMsg, ByteStream.readExact_eq_none (by simp [hr])]
  rfl

theorem readMsgs_succ {n : Nat} {r s t : ByteStream} {m : α} {ms : List α}
    (hm : readMsg fromSlice r = .ok (m, s)) (hms : readMsgs fromSlice n s = .ok (ms, t)) :
    readMsgs fromSlice (n + 1) r = .ok (m :: ms, t) := by
  rw [readMsgs, hm]
  simp only [bind, Except.bind, hms]
  rfl

def EndBy (jsons : List Bytes) (n k : Nat) : Prop :=
  k ≤ jsons.length ∧
    ∀ i < jsons.length, i < k ↔ ((jsons.take (i + 1)).flatMap frame).length ≤ n

theorem endBy_zero {json : Bytes} {jsons : List Bytes} {n : Nat}
    (hn : n < (frame json).length) : EndBy (json :: jsons) n 0 := by
  refine ⟨Nat.zero_le _, fun i _ => iff_of_false (Nat.not_lt_zero i) ?_⟩
  rw [List.take_succ_cons, List.flatMap_cons, List.length_append]
  omega

theorem endBy_succ {json : Bytes} {jsons : List Bytes} {n k : Nat}
    (h : EndBy jsons n k) : EndBy (json :: jsons) ((frame json).length + n) (k + 1) := by
  refine ⟨Nat.succ_le_succ h.1, fun i hi => ?_⟩
  rw [List.take_succ_cons, List.flatMap_cons, List.length_append, Nat.add_le_add_iff_left]
  cases i with
  | zero => simp
  | succ i =>
    rw [Nat.add_lt_add_iff_right]
    exact h.2 i (Nat.lt_of_succ_lt_succ hi)

theorem readMsgs_take (hjson : ∀ m json, toVec m = .ok json → fromSlice json = .ok m)
    {ms : List α} {jsons : List Bytes}
    (h : List.Forall₂ (fun m json => toVec m = .ok json ∧ json.length ≤ maxMsgSize) ms jsons)
    {n : Nat} {r : ByteStream} (hr : r.bytes = (jsons.flatMap frame).take n) :
    ∃ k t, EndBy jsons n k ∧ readMsgs fromSlice k r = .ok (ms.take k, t) ∧
      readMsg fromSlice t = .error .io := by
  induction h generalizing n r with
  | nil =>
    have hnil : r.bytes = [] := by simpa using hr
    exact ⟨0, r, ⟨le_rfl, by simp⟩, rfl, readMsg_nil fromSlice hnil⟩
  | @cons m json ms jsons hm _ ih =>
    rw [List.flatMap_cons] at hr
    rcases Nat.lt_or_ge n (frame json).length with hlt | hge
    · rw [List.take_append_of_le_length (Nat.le_of_lt hlt)] at hr
      exact ⟨0, r, endBy_zero hlt, rfl, readMsg_cut fromSlice hm.2 hlt hr⟩
    · obtain ⟨n, rfl⟩ := Nat.exists_eq_add_of_le hge
      rw [List.take_length_add_append] at hr
      have hle := hm.2
      have hread := readMsg_frame fromSlice (by rw [maxMsgSize] at hle; omega) hr
      rw [if_pos hle] at hread
      obtain ⟨s, hs, hread⟩ := hread
      rw [hjson m json hm.1] at hread
      obtain ⟨k, t, hend, hms, hlast⟩ := ih hs
      exact ⟨k + 1, t, endBy_succ hend, readMsgs_succ hread hms, hlast⟩

/-- Wherever the written stream is cut and however it is split, the reads return the
messages whose frames end at or before the cut, in order, and then an I/O error. -/
theorem readMsgs_cut (hjson : ∀ m json, toVec m = .ok json → fromSlice json = .ok m)
    {ms : List α} {jsons : List Bytes}
    (h : List.Forall₂ (fun m json => toVec m = .ok json ∧ json.length ≤ maxMsgSize) ms jsons) :
    writeMsgs toVec ms = .ok (jsons.flatMap frame) ∧
      ∀ n, ∀ r : ByteStream, r.bytes = (jsons.flatMap frame).take n →
        ∃ k t, EndBy jsons n k ∧ readMsgs fromSlice k r = .ok (ms.take k, t) ∧
          readMsg fromSlice t = .error .io := by
  constructor
  · refine writeMsgs_eq_ok.mpr ⟨jsons, h.imp ?_, rfl⟩
    rintro m json ⟨hm, hle⟩
    rw [maxMsgSize] at hle
    exact ⟨hm, by omega⟩
  · intro n r hr
    exact readMsgs_take hjson h hr

theorem readMsgs_cut_run :
    let ms : List AttestationWire := [⟨[0xde, 7], [9]⟩, ⟨[], []⟩]
    ∃ bs, writeMsgs AttestationWire.toVec ms = .ok bs ∧ bs.length = 98 ∧
      ∃ t, readMsgs AttestationWire.ofJson 1 (.ofBytes (bs.take 60)) =
          .ok ([⟨[0xde, 7], [9]⟩], t) ∧
        readMsg AttestationWire.ofJson t = .error .io := by
  intro ms
  have hsmall : List.Forall₂ (fun (m : AttestationWire) json => m.toVec = .ok json ∧
      json.length ≤ maxMsgSize) ms (ms.map AttestationWire.json) := by
    have hlens : (ms.map fun m => m.json.length) = [48, 42] := by decide
    simp only [ms, List.map_cons, List.map_nil, List.cons.injEq, and_true] at hlens
    refine .cons ⟨rfl, ?_⟩ (.cons ⟨rfl, ?_⟩ .nil) <;> rw [maxMsgSize] <;> omega
  obtain ⟨hw, hread⟩ := readMsgs_cut (fun _ _ => AttestationWire.ofJson_of_toVec) hsmall
  obtain ⟨k, t, hend, hms, hlast⟩ := hread 60 _ (ByteStream.bytes_ofBytes _)
  have hfirst := hend.2 0 (by decide)
  have hsecond := hend.2 1 (by decide)
  have hlens : (((ms.map AttestationWire.json).take 1).flatMap frame).length = 52 ∧
      (((ms.map AttestationWire.json).take 2).flatMap frame).length = 98 := by decide
  rw [hlens.1] at hfirst
  rw [hlens.2] at hsecond
  obtain rfl : k = 1 := by omega
  exact ⟨_, hw, hlens.2, t, hms, hlast⟩

end Libid.Transcript
