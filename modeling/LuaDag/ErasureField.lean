import LuaDag.ErasureMatrix
import Mathlib

/-! The table-driven bytes are the polynomials over two elements modulo
`x^8 + x^4 + x^3 + x^2 + 1`, and the linear algebra of the codec is that of this field: inversion
succeeds on the invertible matrices and on no others, and every encoding matrix is systematic with
invertible choices of rows. -/
namespace LuaDag
namespace Gf256
open Polynomial

noncomputable def modulus : (ZMod 2)[X] := X ^ 8 + X ^ 4 + X ^ 3 + X ^ 2 + 1

theorem modulus_natDegree : modulus.natDegree = 8 := by
  unfold modulus
  compute_degree!

theorem modulus_monic : modulus.Monic := by
  unfold modulus
  monicity!

theorem natCard_adjoinRoot {R : Type} [CommRing R] {g : R[X]} (hg : g.Monic) :
    Nat.card (AdjoinRoot g) = Nat.card R ^ g.natDegree := by
  rw [Nat.card_congr (AdjoinRoot.powerBasis' hg).basis.equivFun.toEquiv, Nat.card_fun]
  simp

instance : CharP Byte 2 := CharTwo.of_one_ne_zero_of_two_eq_zero (by decide) (by decide)

def x : Byte := ⟨2⟩

theorem x_mul (b : Byte) : x * b = generator b := by
  have hx : x = (generator ^ 1) 1 := by
    rw [generator_pow]
    decide
  have hlog : logOf x = 1 := by
    rw [hx]
    exact log_spec (by omega)
  rw [← mul_eq, mul_eq_table, table.mul_apply (by decide), hlog, pow_one]

theorem x_pow (i : ℕ) : x ^ i = (generator ^ i) 1 := by
  induction i with
  | zero => rfl
  | succ i ih =>
    rw [pow_succ', x_mul, ih, pow_succ']
    rfl

theorem eval_modulus : modulus.eval₂ (ZMod.castHom (dvd_refl 2) Byte) x = 0 := by
  simp only [modulus, eval₂_add, eval₂_pow, eval₂_X, eval₂_one, x_pow, generator_pow]
  decide

noncomputable def ofRoot : AdjoinRoot modulus →+* Byte :=
  AdjoinRoot.lift (ZMod.castHom (dvd_refl 2) Byte) x eval_modulus

theorem ofRoot_pow (i : ℕ) : ofRoot (AdjoinRoot.root modulus ^ i) = x ^ i := by
  rw [map_pow, ofRoot, AdjoinRoot.lift_root]

theorem ofRoot_surjective : Function.Surjective ofRoot := by
  intro b
  by_cases hb : b = 0
  · exact ⟨0, by rw [map_zero, hb]⟩
  · obtain ⟨i, -, hi⟩ := generator_covers hb
    exact ⟨AdjoinRoot.root modulus ^ i, by rw [ofRoot_pow, x_pow, hi]⟩

theorem natCard_byte : Nat.card Byte = 256 := by
  let code : Byte ≃ Fin 256 := ⟨fun b => b.bits.toFin, fun i => ⟨.ofFin i⟩, fun _ => rfl,
    fun _ => rfl⟩
  rw [Nat.card_congr code, Nat.card_eq_fintype_card, Fintype.card_fin]

theorem ofRoot_bijective : Function.Bijective ofRoot := by
  have hcard : Nat.card (AdjoinRoot modulus) = 256 := by
    rw [natCard_adjoinRoot modulus_monic, modulus_natDegree, Nat.card_zmod]
    rfl
  have : Finite (AdjoinRoot modulus) := Nat.finite_of_card_ne_zero (by omega)
  refine ofRoot_surjective.bijective_of_nat_card_le ?_
  rw [hcard, natCard_byte]

noncomputable def rootEquiv : AdjoinRoot modulus ≃+* Byte :=
  RingEquiv.ofBijective ofRoot ofRoot_bijective

theorem bits_eq_sum (b : Byte) : ∑ i : Fin 8, (if b.bits.getLsbD i then x ^ i.val else 0) = b := by
  have hpow : ∀ i : Fin 8, x ^ i.val = ⟨1#8 <<< i.val⟩ := by
    simp only [x_pow, generator_pow]
    decide
  have hall : ∀ c : BitVec 8,
      (∑ i : Fin 8, (if c.getLsbD i then (⟨1#8 <<< i.val⟩ : Byte) else 0)) = ⟨c⟩ := by
    decide +kernel
  simp only [hpow]
  exact hall b.bits

theorem rootEquiv_bits (b : Byte) :
    rootEquiv (∑ i : Fin 8, if b.bits.getLsbD i then AdjoinRoot.root modulus ^ i.val else 0) =
      b := by
  rw [map_sum]
  conv_rhs => rw [← bits_eq_sum b]
  refine Finset.sum_congr rfl ?_
  intro i _
  split
  · exact ofRoot_pow i
  · exact map_zero rootEquiv

end Gf256

namespace ReedSolomon
open Gf256 (modulus)

theorem isUnit_iff_det {m : ℕ} (M : Matrix (Fin m) (Fin m) Byte) : IsUnit M ↔ M.det ≠ 0 := by
  rw [Matrix.isUnit_iff_isUnit_det, isUnit_iff_ne_zero]

/-- Bytes are the field of polynomials modulo `0x11D`. Over it, inversion of a square matrix
returns its inverse from both sides if there is one and fails otherwise, and the encoding matrix
exists, starts with the identity, and is invertible in any `k` distinct rows. -/
theorem gf256_linear_algebra (m : ℕ) (mat : Rows) (hm : 0 < m) (hmat : Shaped m m mat) (n k : ℕ)
    (hk : 0 < k) (hkn : k < n) (hn : n ≤ 256) :
    (∃ e : AdjoinRoot modulus ≃+* Byte, ∀ b : Byte,
      e (∑ i : Fin 8, if b.bits.getLsbD i then AdjoinRoot.root modulus ^ i.val else 0) = b) ∧
    (IsUnit (toMatrix m m mat) ↔ ∃ inv, invertMatrix mat = .ok inv ∧ Shaped m m inv ∧
      toMatrix m m inv * toMatrix m m mat = 1 ∧ toMatrix m m mat * toMatrix m m inv = 1) ∧
    (¬ IsUnit (toMatrix m m mat) ↔ ∃ e, invertMatrix mat = .error e) ∧
    ∃ E, buildEncodingMatrix n k = .ok E ∧ Shaped n k E ∧
      (toMatrix n k E).submatrix (Fin.castLE hkn.le) id = 1 ∧
      ∀ rows : Fin k → Fin n, Function.Injective rows →
        IsUnit ((toMatrix n k E).submatrix rows id) := by
  refine ⟨⟨Gf256.rootEquiv, Gf256.rootEquiv_bits⟩, ?_⟩
  obtain ⟨E, hE, hshape, htop, hrows⟩ := buildEncodingMatrix_spec hk hkn.le hn
  have hencode : ∃ E, buildEncodingMatrix n k = .ok E ∧ Shaped n k E ∧
      (toMatrix n k E).submatrix (Fin.castLE hkn.le) id = 1 ∧
      ∀ rows : Fin k → Fin n, Function.Injective rows →
        IsUnit ((toMatrix n k E).submatrix rows id) :=
    ⟨E, hE, hshape, htop, fun rows hinj => (isUnit_iff_det _).mpr (hrows rows hinj)⟩
  cases invertMatrix_spec hmat hm with
  | inl hinv =>
    obtain ⟨inv, hok, hinvShape, hleft⟩ := hinv
    have hunit : IsUnit (toMatrix m m mat) :=
      (isUnit_iff_det _).mpr (Matrix.det_ne_zero_of_left_inverse hleft)
    refine ⟨⟨fun _ => ⟨inv, hok, hinvShape, hleft, mul_eq_one_comm.mp hleft⟩, fun _ => hunit⟩,
      ⟨fun hnot => absurd hunit hnot, ?_⟩, hencode⟩
    intro ⟨e, he⟩
    rw [hok] at he
    cases he
  | inr hsingular =>
    obtain ⟨herr, hdet⟩ := hsingular
    have hnot : ¬ IsUnit (toMatrix m m mat) := fun hunit => (isUnit_iff_det _).mp hunit hdet
    refine ⟨⟨fun hunit => absurd hunit hnot, ?_⟩, ⟨fun _ => ⟨_, herr⟩, fun _ => hnot⟩, hencode⟩
    intro ⟨inv, hok, _⟩
    rw [herr] at hok
    cases hok

theorem gf256_linear_algebra_two_of_three :
    (∃ inv, invertMatrix [[1, ⟨2⟩], [0, 1]] = .ok inv ∧ Shaped 2 2 inv) ∧
      ∃ E, buildEncodingMatrix 3 2 = .ok E ∧ Shaped 3 2 E := by
  obtain ⟨-, hinv, -, E, hE, hshape, -, -⟩ := gf256_linear_algebra 2 [[1, ⟨2⟩], [0, 1]]
    (by decide) ⟨rfl, by decide⟩ 3 2 (by decide) (by decide) (by decide)
  have hdet : (toMatrix 2 2 [[1, ⟨2⟩], [0, 1]]).det = 1 := by
    simp [Matrix.det_fin_two, toMatrix, cell]
  have hunit : IsUnit (toMatrix 2 2 [[1, ⟨2⟩], [0, 1]]) := by
    rw [isUnit_iff_det, hdet]
    exact one_ne_zero
  obtain ⟨inv, hok, hinvShape, -⟩ := hinv.mp hunit
  exact ⟨⟨inv, hok, hinvShape⟩, E, hE, hshape⟩

end ReedSolomon
end LuaDag
