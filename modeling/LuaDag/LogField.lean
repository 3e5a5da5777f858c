import Mathlib.Algebra.Group.Hom.End
import Mathlib.Algebra.GroupWithZero.Basic
import Mathlib.Tactic.Ring

/-! Multiplication by logarithms. In an additive group whose nonzero elements are the powers of
one endomorphism at one element, the product of two of them is the power at the sum of their
logarithms; this is the multiplication of a field. General library. -/
namespace LogField
variable {A : Type} [AddCommGroup A]

/-- The nonzero elements are `e`, `g e`, ..., up to `period` of them, and `log` numbers them. -/
structure Table (g : AddMonoid.End A) (e : A) (period : ℕ) (log : A → ℕ) : Prop where
  unit_ne : e ≠ 0
  cycle : (g ^ period) e = e
  log_lt : ∀ a, a ≠ 0 → log a < period
  exp_log : ∀ a, a ≠ 0 → (g ^ log a) e = a
  log_exp : ∀ i, i < period → log ((g ^ i) e) = i

variable {g : AddMonoid.End A} {e : A} {period : ℕ} {log : A → ℕ}

theorem pow_add_apply (i j : ℕ) (a : A) : (g ^ (i + j)) a = (g ^ i) ((g ^ j) a) := by
  rw [pow_add]
  rfl

/-- If `e` returns after `period` steps and not before, the powers up to there are distinct. -/
theorem pow_inj_of_first_return (hcycle : (g ^ period) e = e)
    (hfirst : ∀ d, 0 < d → d < period → (g ^ d) e ≠ e) {i j : ℕ} (hi : i < period)
    (hj : j < period) (heq : (g ^ i) e = (g ^ j) e) : i = j := by
  have hle : ∀ {i j : ℕ}, i < j → j < period → (g ^ i) e ≠ (g ^ j) e := by
    intro i j hlt hj heq
    refine hfirst (period - j + i) (by omega) (by omega) ?_
    rw [pow_add_apply, heq, ← pow_add_apply, Nat.sub_add_cancel (Nat.le_of_lt hj), hcycle]
  rcases Nat.lt_trichotomy i j with hlt | rfl | hgt
  · exact absurd heq (hle hlt hj)
  · rfl
  · exact absurd heq.symm (hle hgt hi)

/- The powers. -/
namespace Table

theorem period_pos (h : Table g e period log) : 0 < period :=
  Nat.zero_lt_of_lt (h.log_lt e h.unit_ne)

theorem log_unit (h : Table g e period log) : log e = 0 := by
  simpa using h.log_exp 0 h.period_pos

theorem cycle_all (h : Table g e period log) (a : A) : (g ^ period) a = a := by
  by_cases ha : a = 0
  · rw [ha, map_zero]
  · calc (g ^ period) a = (g ^ period) ((g ^ log a) e) := by rw [h.exp_log a ha]
      _ = (g ^ log a) ((g ^ period) e) := by
        rw [← pow_add_apply, ← pow_add_apply, Nat.add_comm]
      _ = a := by rw [h.cycle, h.exp_log a ha]

theorem cycle_mul (h : Table g e period log) (k : ℕ) (a : A) : (g ^ (period * k)) a = a := by
  induction k with
  | zero => simp
  | succ k ih => rw [Nat.mul_succ, pow_add_apply, h.cycle_all, ih]

theorem pow_mod (h : Table g e period log) (i : ℕ) (a : A) : (g ^ (i % period)) a = (g ^ i) a := by
  conv_rhs => rw [← Nat.mod_add_div i period, pow_add_apply, h.cycle_mul]

theorem exp_ne (h : Table g e period log) (i : ℕ) : (g ^ i) e ≠ 0 := by
  intro hzero
  have hle : i ≤ period * i := Nat.le_mul_of_pos_left i h.period_pos
  have hback := h.cycle_mul i e
  rw [← Nat.sub_add_cancel hle, pow_add_apply, hzero, map_zero] at hback
  exact h.unit_ne hback.symm

end Table

/- The product. -/
variable [DecidableEq A]

def mul (g : AddMonoid.End A) (e : A) (period : ℕ) (log : A → ℕ) (a b : A) : A :=
  if a = 0 ∨ b = 0 then 0 else (g ^ ((log a + log b) % period)) e

def inv (g : AddMonoid.End A) (e : A) (period : ℕ) (log : A → ℕ) (a : A) : A :=
  if a = 0 then 0 else (g ^ (period - log a)) e

namespace Table

/-- Multiplication by `a` is the power of the endomorphism at the logarithm of `a`. -/
theorem mul_apply (h : Table g e period log) {a : A} (ha : a ≠ 0) (b : A) :
    mul g e period log a b = (g ^ log a) b := by
  unfold mul
  by_cases hb : b = 0
  · rw [if_pos (Or.inr hb), hb, map_zero]
  · rw [if_neg (by simp [ha, hb]), h.pow_mod, pow_add_apply, h.exp_log b hb]

theorem mul_comm (a b : A) : mul g e period log a b = mul g e period log b a := by
  simp only [mul, or_comm, Nat.add_comm]

theorem zero_mul (b : A) : mul g e period log 0 b = 0 := if_pos (Or.inl rfl)

theorem mul_ne (h : Table g e period log) {a b : A} (ha : a ≠ 0) (hb : b ≠ 0) :
    mul g e period log a b ≠ 0 := by
  unfold mul
  rw [if_neg (by simp [ha, hb])]
  exact h.exp_ne _

theorem one_mul (h : Table g e period log) (b : A) : mul g e period log e b = b := by
  rw [h.mul_apply h.unit_ne, h.log_unit, pow_zero]
  rfl

theorem mul_assoc (h : Table g e period log) (a b c : A) :
    mul g e period log (mul g e period log a b) c =
      mul g e period log a (mul g e period log b c) := by
  by_cases ha : a = 0
  · rw [ha, zero_mul, zero_mul, zero_mul]
  by_cases hb : b = 0
  · rw [hb, zero_mul, mul_comm a 0, zero_mul, zero_mul]
  have hlog : log (mul g e period log a b) = (log a + log b) % period := by
    unfold mul
    rw [if_neg (by simp [ha, hb])]
    exact h.log_exp _ (Nat.mod_lt _ h.period_pos)
  rw [h.mul_apply (h.mul_ne ha hb), hlog, h.pow_mod, pow_add_apply, h.mul_apply ha,
    h.mul_apply hb]

theorem mul_add (h : Table g e period log) (a b c : A) :
    mul g e period log a (b + c) = mul g e period log a b + mul g e period log a c := by
  by_cases ha : a = 0
  · rw [ha, zero_mul, zero_mul, zero_mul, add_zero]
  · rw [h.mul_apply ha, h.mul_apply ha, h.mul_apply ha, map_add]

theorem mul_inv (h : Table g e period log) {a : A} (ha : a ≠ 0) :
    mul g e period log a (inv g e period log a) = e := by
  unfold inv
  rw [if_neg ha, h.mul_apply ha, ← pow_add_apply,
    Nat.add_sub_cancel' (Nat.le_of_lt (h.log_lt a ha)), h.cycle]

end Table
end LogField
