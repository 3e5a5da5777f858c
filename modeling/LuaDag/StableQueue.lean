import Mathlib.Data.List.Perm.Basic
import Mathlib.Data.List.TakeWhile
import Mathlib.Data.List.InsertIdx
import Mathlib.Algebra.Order.Group.Nat

/-! A queue in the order of its keys, first come first served among equal ones: insertion at the
point that bisection finds keeps it so, and what is due is at the front. General library. -/
namespace StableQueue
variable {α : Type*}

def narrow (p : α → Bool) (xs : List α) : ℕ → ℕ → ℕ → ℕ
  | 0, lo, _ => lo
  | fuel + 1, lo, hi =>
    if lo < hi then
      let mid := lo + (hi - lo) / 2
      if xs[mid]?.any p then narrow p xs fuel (mid + 1) hi else narrow p xs fuel lo mid
    else lo

def partitionPoint (p : α → Bool) (xs : List α) : ℕ := narrow p xs xs.length 0 xs.length

def Parted (p : α → Bool) (xs : List α) : Prop := ∀ x ∈ xs.dropWhile p, p x = false

section Bisection
variable {p : α → Bool} {xs : List α}

theorem any_before {i : ℕ} (hi : i < (xs.takeWhile p).length) : xs[i]?.any p = true := by
  have hget : xs[i]? = (xs.takeWhile p)[i]? := by
    conv_lhs => rw [← @List.takeWhile_append_dropWhile _ p xs]
    exact List.getElem?_append_left hi
  rw [hget, List.getElem?_eq_getElem hi, Option.any_some]
  exact List.mem_takeWhile_imp (List.getElem_mem hi)

theorem not_any_after (h : Parted p xs) {i : ℕ} (hi : (xs.takeWhile p).length ≤ i) :
    xs[i]?.any p = false := by
  have hget : xs[i]? = (xs.dropWhile p)[i - (xs.takeWhile p).length]? := by
    conv_lhs => rw [← @List.takeWhile_append_dropWhile _ p xs]
    exact List.getElem?_append_right hi
  rw [hget]
  cases hx : (xs.dropWhile p)[i - (xs.takeWhile p).length]? with
  | none => rfl
  | some x => exact h x (List.mem_of_getElem? hx)

theorem narrow_eq (h : Parted p xs) {fuel lo hi : ℕ} (hfuel : hi - lo ≤ fuel)
    (hlo : lo ≤ (xs.takeWhile p).length) (hhi : (xs.takeWhile p).length ≤ hi) :
    narrow p xs fuel lo hi = (xs.takeWhile p).length := by
  induction fuel generalizing lo hi with
  | zero =>
    change lo = _
    omega
  | succ fuel ih =>
    unfold narrow
    split
    · dsimp only
      split
      · rename_i hmid
        have hlow : lo + (hi - lo) / 2 < (xs.takeWhile p).length := by
          by_contra hge
          rw [not_any_after h (by omega)] at hmid
          cases hmid
        exact ih (by omega) hlow hhi
      · rename_i hmid
        have hhigh : (xs.takeWhile p).length ≤ lo + (hi - lo) / 2 := by
          by_contra hlt
          exact hmid (any_before (by omega))
        exact ih (by omega) hlo hhigh
    · omega

theorem partitionPoint_eq (h : Parted p xs) :
    partitionPoint p xs = (xs.takeWhile p).length := by
  refine narrow_eq h (by omega) (Nat.zero_le _) ?_
  exact List.Sublist.length_le (List.takeWhile_sublist p)

end Bisection

variable {key : α → ℕ} {xs ys : List α}

/-- `ys` is `xs` by increasing keys, in the old order where keys are equal. -/
structure Sorts (key : α → ℕ) (xs ys : List α) : Prop where
  ordered : ys.Pairwise fun x y => key x ≤ key y
  stable : ∀ t, (ys.filter fun x => key x = t) = xs.filter fun x => key x = t

theorem Sorts.nil : Sorts key [] [] := ⟨List.Pairwise.nil, fun _ => rfl⟩

/-- In an ordered queue what is due is at the front. -/
theorem takeWhile_due (h : ys.Pairwise fun x y => key x ≤ key y) (t : ℕ) :
    (ys.takeWhile fun x => key x ≤ t) = ys.filter fun x => key x ≤ t := by
  induction ys with
  | nil => rfl
  | cons y ys ih =>
    obtain ⟨hy, hys⟩ := List.pairwise_cons.mp h
    by_cases hle : key y ≤ t
    · simp [hle, ih hys]
    · have hnone : (ys.filter fun x => key x ≤ t) = [] := by
        refine List.filter_eq_nil_iff.mpr ?_
        intro x hx hxt
        exact hle ((hy x hx).trans (by simpa using hxt))
      simp [hle, hnone]

theorem dropWhile_due (h : ys.Pairwise fun x y => key x ≤ key y) (t : ℕ) :
    (ys.dropWhile fun x => key x ≤ t) = ys.filter fun x => t < key x := by
  induction ys with
  | nil => rfl
  | cons y ys ih =>
    obtain ⟨hy, hys⟩ := List.pairwise_cons.mp h
    by_cases hle : key y ≤ t
    · simp [hle, Nat.not_lt.mpr hle, ih hys]
    · have hall : (ys.filter fun x => t < key x) = ys := by
        refine List.filter_eq_self.mpr ?_
        intro x hx
        exact decide_eq_true ((Nat.lt_of_not_le hle).trans_le (hy x hx))
      simp [hle, Nat.lt_of_not_le hle, hall]

def insert (key : α → ℕ) (a : α) (ys : List α) : List α :=
  ys.insertIdx (partitionPoint (fun x => key x ≤ key a) ys) a

theorem insertIdx_length (as bs : List α) (a : α) :
    (as ++ bs).insertIdx as.length a = as ++ a :: bs := by
  induction as with
  | nil => rfl
  | cons x as ih => simpa using ih

theorem insert_eq (h : ys.Pairwise fun x y => key x ≤ key y) (a : α) :
    insert key a ys =
      (ys.filter fun x => key x ≤ key a) ++ a :: ys.filter fun x => key a < key x := by
  have hparted : Parted (fun x => decide (key x ≤ key a)) ys := by
    intro x hx
    rw [dropWhile_due h] at hx
    simpa using (List.mem_filter.mp hx).2
  rw [insert, partitionPoint_eq hparted, ← takeWhile_due h, ← dropWhile_due h]
  conv_lhs =>
    arg 1
    rw [← @List.takeWhile_append_dropWhile _ (fun x => decide (key x ≤ key a)) ys]
  exact insertIdx_length _ _ a

section Filter
variable {q : α → Bool} {t : ℕ}

theorem filter_key_of_imp (h : ∀ x, key x = t → q x = true) (ys : List α) :
    ((ys.filter q).filter fun x => key x = t) = ys.filter fun x => key x = t := by
  rw [List.filter_filter]
  refine List.filter_congr ?_
  intro x _
  by_cases hx : key x = t
  · simp [hx, h x hx]
  · simp [hx]

theorem filter_key_of_not (h : ∀ x, key x = t → q x = false) (ys : List α) :
    ((ys.filter q).filter fun x => key x = t) = [] := by
  rw [List.filter_filter]
  refine List.filter_eq_nil_iff.mpr ?_
  intro x _ hx
  obtain ⟨hkey, hq⟩ : key x = t ∧ q x = true := by simpa using hx
  rw [h x hkey] at hq
  cases hq

end Filter

/-- Arrivals go to the queue where bisection puts them. -/
theorem Sorts.insert (h : Sorts key xs ys) (a : α) :
    Sorts key (xs ++ [a]) (StableQueue.insert key a ys) := by
  rw [insert_eq h.ordered]
  constructor
  · refine List.pairwise_append.mpr ⟨h.ordered.filter _, ?_, ?_⟩
    · refine List.pairwise_cons.mpr ⟨?_, h.ordered.filter _⟩
      intro x hx
      have hlt : key a < key x := by simpa using (List.mem_filter.mp hx).2
      exact hlt.le
    · intro x hx y hy
      have hxa : key x ≤ key a := by simpa using (List.mem_filter.mp hx).2
      cases List.mem_cons.mp hy with
      | inl hya => rwa [hya]
      | inr hylate =>
        have hay : key a < key y := by simpa using (List.mem_filter.mp hylate).2
        exact hxa.trans hay.le
  · intro t
    rw [List.filter_append, List.filter_append, ← h.stable t, List.filter_cons]
    by_cases hle : t ≤ key a
    · have hfront : ∀ x, key x = t → decide (key x ≤ key a) = true := by
        intro x hx
        simpa [hx] using hle
      have hback : ∀ x, key x = t → decide (key a < key x) = false := by
        intro x hx
        simpa [hx] using hle
      rw [filter_key_of_imp hfront, filter_key_of_not hback, List.filter_singleton]
      simp
    · have hfront : ∀ x, key x = t → decide (key x ≤ key a) = false := by
        intro x hx
        simpa [hx] using hle
      have hback : ∀ x, key x = t → decide (key a < key x) = true := by
        intro x hx
        simpa [hx] using hle
      have hne : ¬ key a = t := by omega
      rw [filter_key_of_not hfront, filter_key_of_imp hback]
      simp [hne]

/-- What is left of a queue is the queue of what is left, for any choice by the keys. -/
theorem Sorts.filter (h : Sorts key xs ys) (q : α → Bool) :
    Sorts key (xs.filter q) (ys.filter q) := by
  refine ⟨h.ordered.filter q, ?_⟩
  intro t
  rw [List.filter_comm, List.filter_comm _ _ xs, h.stable]

theorem Sorts.perm (h : Sorts key xs ys) : ys.Perm xs := by
  classical
  refine List.perm_iff_count.mpr ?_
  intro a
  have hcount (zs : List α) : (zs.filter fun x => key x = key a).count a = zs.count a :=
    List.count_filter (decide_eq_true rfl)
  rw [← hcount ys, h.stable, hcount xs]

end StableQueue
