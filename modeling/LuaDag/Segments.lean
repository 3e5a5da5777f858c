import Mathlib.Data.List.Sort
import Mathlib.Order.Defs.LinearOrder

/-! Initial segments of a set in a linear order, as increasing lists: two of them are
prefixes of one another, and so is what is computed from them by appending. General
library. -/
namespace Segments
variable {α β : Type}

section Initial
variable [LinearOrder α] {P : α → Prop} {ws ws' ns : List α}

/-- An increasing list of elements of `P` that skips none. -/
structure Initial (P : α → Prop) (ws : List α) : Prop where
  sorted : ws.Pairwise (· < ·)
  mem : ∀ w ∈ ws, P w
  down : ∀ w ∈ ws, ∀ x < w, P x → x ∈ ws

theorem Initial.nil : Initial P [] := ⟨List.Pairwise.nil, by simp, by simp⟩

/-- Elements that are missing come after all others. -/
theorem Initial.lt (h : Initial P ws) {n : α} (hn : P n) (hnew : n ∉ ws) : ∀ w ∈ ws, w < n := by
  intro w hw
  by_contra hle
  obtain heq | hlt := eq_or_lt_of_le (not_lt.mp hle)
  · exact hnew (heq ▸ hw)
  · exact hnew (h.down w hw n hlt hn)

theorem Initial.append (h : Initial P ws) (hsorted : ns.Pairwise (· < ·))
    (hmem : ∀ n ∈ ns, P n) (hnew : ∀ n ∈ ns, n ∉ ws)
    (hdown : ∀ n ∈ ns, ∀ x < n, P x → x ∈ ws ∨ x ∈ ns) : Initial P (ws ++ ns) := by
  refine ⟨?_, ?_, ?_⟩
  · rw [List.pairwise_append]
    exact ⟨h.sorted, hsorted, fun w hw n hn => h.lt (hmem n hn) (hnew n hn) w hw⟩
  · intro w hw
    exact (List.mem_append.mp hw).elim (h.mem w) (hmem w)
  · intro w hw x hx hP
    rw [List.mem_append]
    cases List.mem_append.mp hw with
    | inl hold => exact Or.inl (h.down w hold x hx hP)
    | inr hin => exact hdown w hin x hx hP

theorem Initial.tail {w : α} (h : Initial P (w :: ws)) : Initial (fun x => P x ∧ w < x) ws := by
  refine ⟨h.sorted.of_cons, ?_, ?_⟩
  · intro x hx
    exact ⟨h.mem x (List.mem_cons_of_mem _ hx), List.rel_of_pairwise_cons h.sorted hx⟩
  intro x hx y hy hP
  have hin := h.down x (List.mem_cons_of_mem _ hx) y hy hP.1
  exact (List.mem_cons.mp hin).resolve_left (ne_of_gt hP.2)

theorem Initial.head_le {w : α} (h : Initial P (w :: ws)) {x : α} (hx : x ∈ w :: ws) : w ≤ x := by
  cases List.mem_cons.mp hx with
  | inl heq => exact le_of_eq heq.symm
  | inr hin => exact le_of_lt (List.rel_of_pairwise_cons h.sorted hin)

theorem Initial.comparable (h : Initial P ws) (h' : Initial P ws') :
    ws <+: ws' ∨ ws' <+: ws := by
  induction ws generalizing ws' P with
  | nil => exact Or.inl (List.nil_prefix)
  | cons w ws ih =>
    cases ws' with
    | nil => exact Or.inr (List.nil_prefix)
    | cons w' ws' =>
      -- the smaller head would be missing from the other segment
      have heq : w = w' := by
        by_contra hne
        obtain hlt | hlt := lt_or_gt_of_ne hne
        · have hin := h'.down w' (by simp) w hlt (h.mem w (by simp))
          exact absurd (h'.head_le hin) (not_le_of_gt hlt)
        · have hin := h.down w (by simp) w' hlt (h'.mem w' (by simp))
          exact absurd (h.head_le hin) (not_le_of_gt hlt)
      subst heq
      cases ih h.tail h'.tail with
      | inl hpre => exact Or.inl ((List.prefix_cons_inj w).mpr hpre)
      | inr hpre => exact Or.inr ((List.prefix_cons_inj w).mpr hpre)

end Initial

theorem prefix_foldl {f : List β → α → List β} (hf : ∀ acc a, acc <+: f acc a) {ws ws' : List α}
    (h : ws <+: ws') (acc : List β) : ws.foldl f acc <+: ws'.foldl f acc := by
  have hgrow : ∀ (as : List α) (acc : List β), acc <+: as.foldl f acc := by
    intro as
    induction as with
    | nil => exact fun acc => List.prefix_rfl
    | cons a as ih => exact fun acc => (hf acc a).trans (ih _)
  obtain ⟨rest, rfl⟩ := h
  rw [List.foldl_append]
  exact hgrow rest _

end Segments
