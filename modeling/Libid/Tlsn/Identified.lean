import Libid.Tlsn.Requested
import Libid.Transcript.Identity

namespace Libid.Transcript

variable {data f g k : Bytes} {quoted quoted' : Bool} {v w n i : Nat}

structure SnippetPair (recv f g : Bytes) (r t : Range) : Prop where
  first : ∃ quoted v, SnippetAt recv f quoted r.start v r.stop
  second : ∃ quoted w, SnippetAt recv g quoted t.start w t.stop
  before : r.stop ≤ t.start

variable {recv : Bytes} {r t : Range}

theorem SnippetAt.lt_of_names (h : SnippetAt data f quoted i v n) : i < n := by
  have := h.1.lt
  have := h.2.bounds
  omega

theorem SnippetPair.nonempty (h : SnippetPair recv f g r t) :
    r.start < r.stop ∧ t.start < t.stop ∧ t.stop ≤ recv.length := by
  obtain ⟨_, _, hr⟩ := h.first
  obtain ⟨_, _, ht⟩ := h.second
  exact ⟨hr.lt_of_names, ht.lt_of_names, ht.2.bounds.2⟩

theorem SnippetPair.joined (h : SnippetPair recv f g r t) :
    (∃ quoted v, SnippetAt (slice recv r ++ slice recv t) f quoted 0 v (slice recv r).length) ∧
    ∃ quoted w, SnippetAt (slice recv r ++ slice recv t) g quoted (slice recv r).length w
      (slice recv r ++ slice recv t).length := by
  obtain ⟨quoted, v, hr⟩ := h.first
  obtain ⟨quoted', w, ht⟩ := h.second
  have hlr := length_slice recv r hr.2.bounds.2
  have hlt := length_slice recv t ht.2.bounds.2
  have hr' := hr.transport (y := slice recv r ++ slice recv t) 0 fun i hi => by
    rw [Nat.zero_add, List.getElem?_append_left (by omega), getElem?_slice, if_pos hi]
  have ht' := ht.transport (y := slice recv r ++ slice recv t) (slice recv r).length
    fun i hi => by
      rw [List.getElem?_append_right (by omega), Nat.add_sub_cancel_left, getElem?_slice, if_pos hi]
  rw [Nat.zero_add, Nat.zero_add, ← hlr] at hr'
  rw [← hlt, ← List.length_append] at ht'
  exact ⟨⟨quoted, _, hr'⟩, quoted', _, ht'⟩

end Libid.Transcript

namespace Libid.Tlsn

open Ceremony Transcript

/-! ### `ceremony_end_to_end.rs` -/

variable {session : ObservedSession} {direction : Direction} {block : DirectionBlock}
  {bytes : Bytes} {layout : Layout}

end Libid.Tlsn
