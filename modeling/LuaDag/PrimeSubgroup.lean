import Mathlib

/-! Scalars modulo `q` on the elements that `q` annihilates, and the proofs of knowledge of a
scalar whose response undoes the challenge. General library. -/
namespace PrimeSubgroup
variable {G : Type*} [AddCommGroup G] {q : ℕ} {P : G}

def mul (P : G) (s : ZMod q) : G := s.val • P

theorem mul_mul (P : G) (s t : ZMod q) : mul (mul P s) t = (s.val * t.val) • P := by
  rw [mul, mul, ← mul_nsmul]

theorem nsmul_mod (h : q • P = 0) (n : ℕ) : (n % q) • P = n • P := by
  conv_rhs => rw [← Nat.mod_add_div n q, add_nsmul, mul_nsmul, h, nsmul_zero, add_zero]

theorem mul_annihilated (h : q • P = 0) (s : ZMod q) : q • mul P s = 0 := by
  rw [mul, nsmul_left_comm, h, nsmul_zero]

section Scalars
variable [NeZero q]

/-- The response `k + c * x` to the challenge `c` shows the commitment again. -/
theorem response (h : q • P = 0) (k c x : ZMod q) :
    mul P (k + c * x) - mul (mul P x) c = mul P k := by
  have hval : (k + c * x).val = (k.val + x.val * c.val) % q := by
    rw [ZMod.val_add, ZMod.val_mul, mul_comm c.val, Nat.add_mod_mod]
  rw [mul_mul, mul, hval, nsmul_mod h, add_nsmul, add_sub_cancel_right]
  rfl

end Scalars

section Prime
variable [Fact q.Prime]

theorem nsmul_ne_zero (h : q • P = 0) (hP : P ≠ 0) {n : ℕ} (hn : ¬ q ∣ n) : n • P ≠ 0 := by
  intro hzero
  have horder : addOrderOf P = q := addOrderOf_eq_prime h hP
  exact hn (horder ▸ addOrderOf_dvd_of_nsmul_eq_zero hzero)

theorem mul_ne_zero (h : q • P = 0) (hP : P ≠ 0) {s : ZMod q} (hs : s ≠ 0) : mul P s ≠ 0 := by
  refine nsmul_ne_zero h hP ?_
  intro hdvd
  have hval := Nat.eq_zero_of_dvd_of_lt hdvd s.val_lt
  exact hs ((ZMod.val_eq_zero s).mp hval)

end Prime
end PrimeSubgroup
