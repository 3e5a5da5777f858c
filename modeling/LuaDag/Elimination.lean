import Mathlib.LinearAlgebra.Matrix.NonsingularInverse
import Mathlib.LinearAlgebra.Matrix.ToLinearEquiv
import Mathlib.LinearAlgebra.Vandermonde

/-! Gauss–Jordan elimination over a field, column by column, on a matrix `L` and a second one
`R` that takes the same row operations; and the systematic code that evaluation at distinct
points gives. General library. -/
namespace Elimination
open Matrix
variable {F : Type} [Field F] {n : ℕ}

def Reduced (c : ℕ) (L : Matrix (Fin n) (Fin n) F) : Prop :=
  ∀ i j : Fin n, j.val < c → L i j = if i = j then 1 else 0

/-- Row `c` divided by its pivot and subtracted from the others, where `a` is the pivot's
column. -/
def clear {m : ℕ} (c : Fin n) (a : Fin n → F) (A : Matrix (Fin n) (Fin m) F) :
    Matrix (Fin n) (Fin m) F :=
  fun i j => if i = c then A c j * (a c)⁻¹ else A i j - a i * (A c j * (a c)⁻¹)

theorem clear_eq_mul {m : ℕ} (c : Fin n) (a : Fin n → F) (A : Matrix (Fin n) (Fin m) F) :
    clear c a A = clear c a (1 : Matrix (Fin n) (Fin n) F) * A := by
  ext i j
  rw [Matrix.mul_apply]
  by_cases h : i = c
  · simp [clear, h, Matrix.one_apply, mul_comm]
  · simp only [clear, h, if_false, Matrix.one_apply, sub_mul, Finset.sum_sub_distrib, ite_mul,
      mul_ite, one_mul, zero_mul, mul_zero, Finset.sum_ite_eq, Finset.mem_univ, if_true]
    ring

theorem Reduced.clear {L : Matrix (Fin n) (Fin n) F} {c : Fin n} (h : Reduced c.val L)
    (hpivot : L c c ≠ 0) : Reduced (c.val + 1) (Elimination.clear c (fun i => L i c) L) := by
  intro i j hj
  by_cases hc : j = c
  · subst hc
    by_cases hi : i = j
    · simp [Elimination.clear, hi, hpivot]
    · simp [Elimination.clear, hi, hpivot]
  · have hlt : j.val < c.val := by
      have hne : j.val ≠ c.val := fun heq => hc (Fin.ext heq)
      omega
    have hrow : L c j = 0 := by rw [h c j hlt, if_neg (Ne.symm hc)]
    by_cases hi : i = c
    · subst hi
      simp [Elimination.clear, hrow, Ne.symm hc]
    · simp [Elimination.clear, hi, hrow, h i j hlt]

theorem det_clear_ne_zero {L : Matrix (Fin n) (Fin n) F} {c : Fin n} (hdet : L.det ≠ 0)
    (hpivot : L c c ≠ 0) : (clear c (fun i => L i c) L).det ≠ 0 := by
  let scaled := L.updateRow c ((L c c)⁻¹ • L c)
  have hscaled : scaled.det = (L c c)⁻¹ * L.det := by
    rw [Matrix.det_updateRow_smul, Matrix.updateRow_eq_self]
  have hclear : (clear c (fun i => L i c) L).det = scaled.det := by
    refine Matrix.det_eq_of_forall_row_eq_smul_add_const
      (fun i => if i = c then 0 else -L i c) c (if_pos rfl) ?_
    intro i j
    by_cases hi : i = c
    · subst hi
      simp [clear, scaled, mul_comm]
    · simp [clear, scaled, hi, mul_comm, sub_eq_add_neg]
  rw [hclear, hscaled]
  exact mul_ne_zero (inv_ne_zero hpivot) hdet

theorem Reduced.det_eq_zero {L : Matrix (Fin n) (Fin n) F} {c : Fin n} (h : Reduced c.val L)
    (hzero : ∀ i, c ≤ i → L i c = 0) : L.det = 0 := by
  refine Matrix.exists_mulVec_eq_zero_iff.mp
    ⟨fun j => if j = c then 1 else if j < c then -L j c else 0, ?_, ?_⟩
  · intro heq
    have hc := congrFun heq c
    simp at hc
  · ext i
    have hsum : ∀ j, L i j * (if j = c then 1 else if j < c then -L j c else 0) =
        (if j = c then L i c else 0) - if j = i ∧ j < c then L i c else 0 := by
      intro j
      by_cases hj : j = c
      · subst hj
        simp
      · by_cases hlt : j < c
        · rw [h i j hlt]
          by_cases hij : i = j
          · subst hij
            simp [hj, hlt]
          · simp [hj, hlt, hij, Ne.symm hij]
        · simp [hj, hlt]
    have hrow : (if i < c then L i c else 0) = L i c := by
      split
      · rfl
      · rename_i hge
        exact (hzero i (Fin.not_lt.mp hge)).symm
    simp only [Matrix.mulVec, dotProduct, hsum, Finset.sum_sub_distrib, Finset.sum_ite_eq',
      Finset.mem_univ, if_true, ite_and, hrow, sub_self, Pi.zero_apply]

/-- Elimination in `M` has come to column `c`: `L` is reduced that far, `R` records the row
operations, and they have not made `L` singular. -/
structure Progress (M : Matrix (Fin n) (Fin n) F) (c : ℕ) (L R : Matrix (Fin n) (Fin n) F) :
    Prop where
  reduced : Reduced c L
  records : L = R * M
  regular : M.det ≠ 0 → L.det ≠ 0

section Progress
variable {M L R : Matrix (Fin n) (Fin n) F}

theorem Progress.start (M : Matrix (Fin n) (Fin n) F) : Progress M 0 M 1 :=
  ⟨fun _ j hj => absurd hj (Nat.not_lt_zero j.val), (Matrix.one_mul M).symm, id⟩

theorem Progress.swap {c : Fin n} (h : Progress M c.val L R) {p : Fin n} (hp : c ≤ p) :
    Progress M c.val (L.submatrix (Equiv.swap c p) id) (R.submatrix (Equiv.swap c p) id) := by
  refine ⟨?_, ?_, ?_⟩
  · intro i j hj
    have hjc : j ≠ c := by
      rintro rfl
      exact Nat.lt_irrefl _ hj
    have hjp : j ≠ p := by
      rintro rfl
      exact absurd hj (Nat.not_lt.mpr hp)
    rw [Matrix.submatrix_apply, id, h.reduced _ j hj]
    refine if_congr ?_ rfl rfl
    constructor
    · intro heq
      rw [← Equiv.swap_apply_self c p i, heq, Equiv.swap_apply_of_ne_of_ne hjc hjp]
    · rintro rfl
      exact Equiv.swap_apply_of_ne_of_ne hjc hjp
  · conv_lhs => rw [h.records]
    rfl
  · intro hdet
    have hsign : ((Equiv.Perm.sign (Equiv.swap c p) : ℤ) : F) ≠ 0 := by
      cases Int.units_eq_one_or (Equiv.Perm.sign (Equiv.swap c p)) with
      | inl hs => simp [hs]
      | inr hs => simp [hs]
    rw [Matrix.det_permute]
    exact mul_ne_zero hsign (h.regular hdet)

theorem Progress.clear {c : Fin n} (h : Progress M c.val L R) (hpivot : L c c ≠ 0) :
    Progress M (c.val + 1) (Elimination.clear c (fun i => L i c) L)
      (Elimination.clear c (fun i => L i c) R) := by
  refine ⟨h.reduced.clear hpivot, ?_, fun hdet => det_clear_ne_zero (h.regular hdet) hpivot⟩
  rw [clear_eq_mul c _ R, Matrix.mul_assoc, ← h.records, ← clear_eq_mul]

theorem Progress.stuck {c : Fin n} (h : Progress M c.val L R)
    (hzero : ∀ i, c ≤ i → L i c = 0) : M.det = 0 := by
  by_contra hdet
  exact h.regular hdet (h.reduced.det_eq_zero hzero)

theorem Progress.done (h : Progress M n L R) : R * M = 1 := by
  rw [← h.records]
  ext i j
  rw [h.reduced i j j.isLt, Matrix.one_apply]

end Progress
end Elimination

namespace SystematicCode
open Matrix
variable {F : Type} [Field F] {n k : ℕ}

def evaluation (x : Fin n → F) (k : ℕ) : Matrix (Fin n) (Fin k) F := fun r c => x r ^ c.val

/-- Any `k` rows are invertible, and stay so under a change of basis. -/
theorem rows_det_ne_zero {x : Fin n → F} (hx : Function.Injective x)
    {T : Matrix (Fin k) (Fin k) F} (hT : T.det ≠ 0) {rows : Fin k → Fin n}
    (hrows : Function.Injective rows) : ((evaluation x k * T).submatrix rows id).det ≠ 0 := by
  have hsub : (evaluation x k * T).submatrix rows id = vandermonde (x ∘ rows) * T := rfl
  rw [hsub, Matrix.det_mul]
  exact mul_ne_zero (Matrix.det_vandermonde_ne_zero_iff.mpr (hx.comp hrows)) hT

/-- Whoever can undo the chosen rows of the code gets the data back. -/
theorem decode_encode {m : ℕ} {E : Matrix (Fin n) (Fin k) F} {rows : Fin k → Fin n}
    {I : Matrix (Fin k) (Fin k) F} (hI : I * E.submatrix rows id = 1)
    (D : Matrix (Fin k) (Fin m) F) : I * (E * D).submatrix rows id = D := by
  have hsub : (E * D).submatrix rows id = E.submatrix rows id * D := rfl
  rw [hsub, ← Matrix.mul_assoc, hI, Matrix.one_mul]

end SystematicCode
