import Mathlib.Algebra.BigOperators.Associated
import Mathlib.Data.Nat.ModEq
import Mathlib.FieldTheory.Finite.Basic
import Mathlib.Tactic.NormNum.Prime

/-! Large primes: a number is prime if its predecessor has enough known prime factors which the
order of one element cannot miss. General library, with the order of the prime subgroup of
Edwards25519 as its instance. -/
namespace PrimeOrder

def powMod (m : ℕ) : ℕ → ℕ → ℕ → ℕ → ℕ
  | 0, acc, _, _ => acc % m
  | fuel + 1, acc, base, n =>
    powMod m fuel (if n % 2 = 1 then acc * base % m else acc) (base * base % m) (n / 2)

theorem powMod_modEq {m fuel acc base n : ℕ} (h : n < 2 ^ fuel) :
    powMod m fuel acc base n ≡ acc * base ^ n [MOD m] := by
  induction fuel generalizing acc base n with
  | zero =>
    have hn : n = 0 := by simpa using h
    simpa [powMod, hn] using Nat.mod_modEq acc m
  | succ fuel ih =>
    have hrest := @ih (if n % 2 = 1 then acc * base % m else acc) (base * base % m) (n / 2)
      (by omega)
    have hsquares : (base * base % m) ^ (n / 2) ≡ base ^ (2 * (n / 2)) [MOD m] := by
      rw [pow_mul, sq]
      exact (Nat.mod_modEq _ _).pow _
    refine hrest.trans ?_
    by_cases hodd : n % 2 = 1
    · have hn : acc * base ^ n = acc * base * base ^ (2 * (n / 2)) := by
        rw [mul_assoc, ← pow_succ', show 2 * (n / 2) + 1 = n by omega]
      rw [if_pos hodd, hn]
      exact (Nat.mod_modEq _ _).mul hsquares
    · rw [if_neg hodd]
      have hn : n = 2 * (n / 2) := by omega
      conv_rhs => rw [hn]
      exact hsquares.mul_left acc

/-- The prime factors `qs` of `N - 1` divide the order of `a` modulo every prime factor of `N`. -/
structure Certified (N a : ℕ) (qs : Finset ℕ) : Prop where
  small : N < 2 ^ 256
  big : N ≤ (∏ q ∈ qs, q) ^ 2
  factor : ∀ q ∈ qs, q ∣ N - 1
  cycle : powMod N 256 1 a (N - 1) = 1
  first : ∀ q ∈ qs, Nat.gcd (powMod N 256 1 a ((N - 1) / q) + (N - 1)) N = 1

section Criterion
variable {N a : ℕ} {qs : Finset ℕ}

theorem cast_powMod {p n : ℕ} (hp : p ∣ N) (hn : n < 2 ^ 256) :
    (powMod N 256 1 a n : ZMod p) = (a : ZMod p) ^ n := by
  have hmod := (@powMod_modEq N 256 1 a n hn).of_dvd hp
  rw [one_mul] at hmod
  rw [← Nat.cast_pow]
  exact (ZMod.natCast_eq_natCast_iff _ _ _).mpr hmod

theorem Certified.dvd_pred (h : Certified N a qs) (hN : 1 < N) {p q : ℕ} [Fact p.Prime]
    (hp : p ∣ N) (hq : q.Prime) (hmem : q ∈ qs) : q ∣ p - 1 := by
  have hsmall := h.small
  have hcycle : (a : ZMod p) ^ (N - 1) = 1 := by
    rw [← cast_powMod hp (by omega), h.cycle, Nat.cast_one]
  have hfirst : (a : ZMod p) ^ ((N - 1) / q) ≠ 1 := by
    intro hone
    rw [← cast_powMod hp ((Nat.div_le_self _ _).trans_lt (by omega))] at hone
    have hpN : (N : ZMod p) = 0 := (ZMod.natCast_eq_zero_iff N p).mpr hp
    have hzero : ((powMod N 256 1 a ((N - 1) / q) + (N - 1) : ℕ) : ZMod p) = 0 := by
      rw [Nat.cast_add, hone, Nat.cast_sub hN.le, hpN]
      simp
    have hdvd := Nat.dvd_gcd ((ZMod.natCast_eq_zero_iff _ p).mp hzero) hp
    rw [h.first q hmem] at hdvd
    exact (Fact.out : p.Prime).one_lt.ne' (Nat.dvd_one.mp hdvd)
  have hne : (a : ZMod p) ≠ 0 := by
    intro hzero
    rw [hzero, zero_pow (by omega)] at hcycle
    exact zero_ne_one hcycle
  have horder : q ∣ orderOf (a : ZMod p) := by
    by_contra hnot
    have hco : (orderOf (a : ZMod p)).Coprime q := ((hq.coprime_iff_not_dvd).mpr hnot).symm
    refine hfirst (orderOf_dvd_iff_pow_eq_one.mp (hco.dvd_of_dvd_mul_left ?_))
    rw [Nat.mul_div_cancel' (h.factor q hmem)]
    exact orderOf_dvd_of_pow_eq_one hcycle
  exact horder.trans (ZMod.orderOf_dvd_card_sub_one hne)

theorem Certified.prime (h : Certified N a qs) (hN : 1 < N) (hqs : ∀ q ∈ qs, q.Prime) :
    N.Prime := by
  by_contra hcomposite
  have hp : N.minFac.Prime := Nat.minFac_prime (by omega)
  have : Fact N.minFac.Prime := ⟨hp⟩
  have hdvd : (∏ q ∈ qs, q) ∣ N.minFac - 1 := by
    refine Finset.prod_primes_dvd _ (fun q hq => (hqs q hq).prime) ?_
    intro q hq
    exact h.dvd_pred hN (Nat.minFac_dvd N) (hqs q hq) hq
  have hle := Nat.le_of_dvd (Nat.sub_pos_of_lt hp.one_lt) hdvd
  have hlt : (∏ q ∈ qs, q) < N.minFac := by
    have := hp.one_lt
    omega
  have hsq := Nat.minFac_sq_le_self (by omega) hcomposite
  have hroot : (∏ q ∈ qs, q) ^ 2 < N.minFac ^ 2 := Nat.pow_lt_pow_left hlt two_ne_zero
  exact absurd (h.big.trans_lt hroot) (Nat.not_lt.mpr hsq)

end Criterion

instance (N a : ℕ) (qs : Finset ℕ) : Decidable (Certified N a qs) :=
  decidable_of_iff (N < 2 ^ 256 ∧ N ≤ (∏ q ∈ qs, q) ^ 2 ∧ (∀ q ∈ qs, q ∣ N - 1) ∧
      powMod N 256 1 a (N - 1) = 1 ∧
      ∀ q ∈ qs, Nat.gcd (powMod N 256 1 a ((N - 1) / q) + (N - 1)) N = 1)
    ⟨fun ⟨small, big, factor, cycle, first⟩ => ⟨small, big, factor, cycle, first⟩,
      fun h => ⟨h.small, h.big, h.factor, h.cycle, h.first⟩⟩

def Chain (p : ℕ) : ℕ → List ℕ → Prop
  | N, [] => 1 < N ∧ Certified N 2 {p}
  | N, q :: rest => (1 < N ∧ Certified N 2 {q}) ∧ Chain p q rest

instance decidableChain (p : ℕ) : ∀ N qs, Decidable (Chain p N qs)
  | N, [] => inferInstanceAs (Decidable (1 < N ∧ Certified N 2 {p}))
  | N, q :: rest =>
    have := decidableChain p q rest
    inferInstanceAs (Decidable ((1 < N ∧ Certified N 2 {q}) ∧ Chain p q rest))

theorem certified_single {N a q : ℕ} (h : Certified N a {q}) (hN : 1 < N) (hq : q.Prime) :
    N.Prime := by
  refine h.prime hN ?_
  intro r hr
  rwa [Finset.mem_singleton.mp hr]

theorem Chain.prime {p N : ℕ} {qs : List ℕ} (h : Chain p N qs) (hp : p.Prime) : N.Prime := by
  induction qs generalizing N with
  | nil =>
    obtain ⟨hN, hlast⟩ := h
    exact certified_single hlast hN hp
  | cons q rest ih =>
    obtain ⟨⟨hN, hnext⟩, hrest⟩ := h
    exact certified_single hnext hN (ih hrest)

/- The chain down from the order of Edwards25519. -/

theorem prime_1257559732178653 : Nat.Prime 1257559732178653 := by
  have h : Certified 1257559732178653 2 {531581, 1224481} := by decide +kernel
  refine h.prime (by decide) ?_
  intro q hq
  cases Finset.mem_insert.mp hq with
  | inl hfirst =>
    rw [hfirst]
    norm_num
  | inr hsecond =>
    rw [Finset.mem_singleton.mp hsecond]
    norm_num

def ell : ℕ := 2 ^ 252 + 27742317777372353535851937790883648493

theorem ell_prime : ell.Prime := by
  have h : Chain 1257559732178653 ell [276602624281642239937218680557139826668747,
      19757330305831588566944191468367130476339, 172054593956031949258510691,
      4434155615661930479] := by
    decide +kernel
  exact h.prime prime_1257559732178653

end PrimeOrder
