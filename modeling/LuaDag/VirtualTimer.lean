import LuaDag.Types
import Mathlib.Data.Finset.Basic
import Mathlib.Data.List.Sort
import Mathlib.Order.Lattice.Nat

/-! The timer queue of the simulator (`sim::virtual_timer`): one heap by time and id, and a set of
cancelled ids that the heap gets rid of when their time has come. -/
namespace LuaDag

structure VirtualTimer where
  pending : List (Nat ×ₗ TimerId)
  cancelled : Finset TimerId
deriving DecidableEq

namespace VirtualTimer

def new : VirtualTimer := ⟨[], ∅⟩

def schedule (deliverAt : Nat) (id : TimerId) (timer : VirtualTimer) : VirtualTimer where
  cancelled := timer.cancelled.erase id
  pending := timer.pending.orderedInsert (· ≤ ·) (toLex (deliverAt, id))

def cancel (id : TimerId) (timer : VirtualTimer) : VirtualTimer :=
  { timer with cancelled := insert id timer.cancelled }

def popDue (now : Nat) :
    List (Nat ×ₗ TimerId) → Finset TimerId → List TimerId → List TimerId × VirtualTimer
  | [], cancelled, out => (out, ⟨[], cancelled⟩)
  | e :: rest, cancelled, out =>
    if now < (ofLex e).1 then (out, ⟨e :: rest, cancelled⟩)
    else if (ofLex e).2 ∈ cancelled then popDue now rest (cancelled.erase (ofLex e).2) out
    else popDue now rest cancelled (out ++ [(ofLex e).2])

def drainDue (now : Nat) (timer : VirtualTimer) : List TimerId × VirtualTimer :=
  popDue now timer.pending timer.cancelled []

/-- The heap is in order, and a cancelled id names at most one of its timers. -/
structure Tidy (heap : List (Nat ×ₗ TimerId)) (cancelled : Finset TimerId) : Prop where
  sorted : heap.Pairwise (· ≤ ·)
  alone : ∀ id ∈ cancelled, (heap.map fun e => (ofLex e).2).count id ≤ 1

/-- What is due comes out unless it is cancelled, and leaves the heap either way. -/
structure Popped (now : Nat) (heap : List (Nat ×ₗ TimerId)) (gone : Finset TimerId)
    (out : List TimerId) (after : List TimerId × VirtualTimer) : Prop where
  out : after.1 = out ++ (heap.filter fun e =>
    (ofLex e).1 ≤ now ∧ (ofLex e).2 ∉ gone).map fun e => (ofLex e).2
  pending : after.2.pending = heap.filter fun e => now < (ofLex e).1
  cancelled : ∀ id, id ∈ after.2.cancelled ↔
    id ∈ gone ∧ ∀ e ∈ heap, (ofLex e).1 ≤ now → (ofLex e).2 ≠ id

section Drain
variable {now : Nat} {heap : List (Nat ×ₗ TimerId)} {gone : Finset TimerId} {e : Nat ×ₗ TimerId}

theorem Tidy.later (h : Tidy (e :: heap) gone) : ∀ d ∈ heap, (ofLex e).1 ≤ (ofLex d).1 := by
  intro d hd
  exact Prod.Lex.monotone_fst _ _ ((List.pairwise_cons.mp h.sorted).1 d hd)

theorem Tidy.tail (h : Tidy (e :: heap) gone) : Tidy heap gone := by
  refine ⟨h.sorted.of_cons, ?_⟩
  intro id hid
  have hle := h.alone id hid
  rw [List.map_cons, List.count_cons] at hle
  omega

theorem Tidy.ne (h : Tidy (e :: heap) gone) (he : (ofLex e).2 ∈ gone) :
    ∀ d ∈ heap, (ofLex d).2 ≠ (ofLex e).2 := by
  intro d hd heq
  have hle := h.alone _ he
  have hpos : 0 < (heap.map fun d => (ofLex d).2).count (ofLex e).2 :=
    List.count_pos_iff.mpr (List.mem_map.mpr ⟨d, hd, heq⟩)
  rw [List.map_cons, List.count_cons_self] at hle
  omega

theorem Tidy.erase (h : Tidy heap gone) (id : TimerId) : Tidy heap (gone.erase id) :=
  ⟨h.sorted, fun i hi => h.alone i (Finset.mem_of_mem_erase hi)⟩

theorem Popped.late (h : ∀ d ∈ heap, now < (ofLex d).1) (out : List TimerId) :
    Popped now heap gone out (out, ⟨heap, gone⟩) := by
  refine ⟨?_, ?_, ?_⟩
  · have hnone : (heap.filter fun d => (ofLex d).1 ≤ now ∧ (ofLex d).2 ∉ gone) = [] := by
      refine List.filter_eq_nil_iff.mpr ?_
      intro d hd hdue
      have hle := (of_decide_eq_true hdue).1
      exact absurd (h d hd) (Nat.not_lt.mpr hle)
    rw [hnone, List.map_nil, List.append_nil]
  · exact (List.filter_eq_self.mpr fun d hd => decide_eq_true (h d hd)).symm
  · intro id
    refine ⟨fun hid => ⟨hid, ?_⟩, fun hid => hid.1⟩
    intro d hd hle
    exact absurd (h d hd) (Nat.not_lt.mpr hle)

theorem Popped.skip (hdue : (ofLex e).1 ≤ now) (he : (ofLex e).2 ∈ gone)
    (hne : ∀ d ∈ heap, (ofLex d).2 ≠ (ofLex e).2) {out : List TimerId}
    {after : List TimerId × VirtualTimer}
    (h : Popped now heap (gone.erase (ofLex e).2) out after) :
    Popped now (e :: heap) gone out after := by
  refine ⟨?_, ?_, ?_⟩
  · have hsame : (heap.filter fun d => (ofLex d).1 ≤ now ∧ (ofLex d).2 ∉ gone.erase (ofLex e).2) =
        heap.filter fun d => (ofLex d).1 ≤ now ∧ (ofLex d).2 ∉ gone := by
      refine List.filter_congr ?_
      intro d hd
      simp [hne d hd]
    rw [h.out, hsame, List.filter_cons_of_neg (by simp [he])]
  · rw [h.pending, List.filter_cons_of_neg (by simpa using hdue)]
  · intro id
    rw [h.cancelled, Finset.mem_erase, List.forall_mem_cons]
    constructor
    · intro ⟨⟨hid, hgone⟩, hall⟩
      exact ⟨hgone, fun _ => Ne.symm hid, hall⟩
    · intro ⟨hgone, hid, hall⟩
      exact ⟨⟨Ne.symm (hid hdue), hgone⟩, hall⟩

theorem Popped.fire (hdue : (ofLex e).1 ≤ now) (he : (ofLex e).2 ∉ gone) {out : List TimerId}
    {after : List TimerId × VirtualTimer}
    (h : Popped now heap gone (out ++ [(ofLex e).2]) after) :
    Popped now (e :: heap) gone out after := by
  refine ⟨?_, ?_, ?_⟩
  · rw [h.out, List.filter_cons_of_pos (by simp [hdue, he])]
    simp
  · rw [h.pending, List.filter_cons_of_neg (by simpa using hdue)]
  · intro id
    rw [h.cancelled, List.forall_mem_cons]
    constructor
    · intro ⟨hgone, hall⟩
      refine ⟨hgone, ?_, hall⟩
      intro _ heq
      exact he (heq ▸ hgone)
    · intro ⟨hgone, _, hall⟩
      exact ⟨hgone, hall⟩

theorem popDue_popped (h : Tidy heap gone) (out : List TimerId) :
    Popped now heap gone out (popDue now heap gone out) := by
  induction heap generalizing gone out with
  | nil => exact ⟨by simp [popDue], rfl, by simp [popDue]⟩
  | cons e heap ih =>
    unfold popDue
    by_cases hlate : now < (ofLex e).1
    · rw [if_pos hlate]
      refine Popped.late ?_ out
      intro d hd
      cases List.mem_cons.mp hd with
      | inl heq => rwa [heq]
      | inr hrest => exact hlate.trans_le (h.later d hrest)
    · rw [if_neg hlate]
      have hdue := Nat.not_lt.mp hlate
      by_cases he : (ofLex e).2 ∈ gone
      · rw [if_pos he]
        exact Popped.skip hdue he (h.ne he) (ih (h.tail.erase _) out)
      · rw [if_neg he]
        exact Popped.fire hdue he (ih h.tail _)

theorem drainDue_popped {timer : VirtualTimer} (h : Tidy timer.pending timer.cancelled) :
    Popped now timer.pending timer.cancelled [] (timer.drainDue now) :=
  popDue_popped h []

end Drain
end VirtualTimer
end LuaDag
