import Mathlib.Data.List.Lex
import Mathlib.Data.Fin.Basic
import Mathlib.Order.Fin.Basic
import Mathlib.Data.Finset.Sort
import Mathlib.Data.Prod.Lex
import Mathlib.Tactic.Ring

/-! Numerals with a fixed number of digits, lowest first or highest first, and keys made of
digits: the lexicographic order of highest-first numerals is that of the numbers, also where
several of them are strung together. General library. -/
namespace Radix
variable {b : ℕ} [NeZero b]

def digits (b : ℕ) [NeZero b] : ℕ → ℕ → List (Fin b)
  | 0, _ => []
  | k + 1, n => Fin.ofNat b n :: digits b k (n / b)

def value : List (Fin b) → ℕ
  | [] => 0
  | d :: ds => d + b * value ds

def bigEndian (b : ℕ) [NeZero b] (k n : ℕ) : List (Fin b) := (digits b k n).reverse

@[simp] theorem length_digits (k n : ℕ) : (digits b k n).length = k := by
  induction k generalizing n with
  | zero => rfl
  | succ k ih => simp [digits, ih]

@[simp] theorem length_bigEndian (k n : ℕ) : (bigEndian b k n).length = k := by
  simp [bigEndian]

omit [NeZero b] in
theorem value_lt (ds : List (Fin b)) : value ds < b ^ ds.length := by
  induction ds with
  | nil => simp [value]
  | cons d ds ih =>
    have hd := d.isLt
    have hle : b * (value ds + 1) ≤ b * b ^ ds.length := Nat.mul_le_mul_left b ih
    rw [value, List.length_cons, Nat.pow_succ']
    rw [Nat.mul_add] at hle
    omega

theorem value_digits (k n : ℕ) : value (digits b k n) = n % b ^ k := by
  induction k generalizing n with
  | zero => simp [digits, value, Nat.mod_one]
  | succ k ih =>
    rw [digits, value, ih, Nat.pow_succ', Nat.mod_mul]
    rfl

theorem value_digits_of_lt {k n : ℕ} (h : n < b ^ k) : value (digits b k n) = n := by
  rw [value_digits, Nat.mod_eq_of_lt h]

theorem digits_value (ds : List (Fin b)) : digits b ds.length (value ds) = ds := by
  induction ds with
  | nil => rfl
  | cons d ds ih =>
    have hpos : 0 < b := Nat.pos_of_neZero b
    have hmod : (d + b * value ds) % b = d := by
      rw [Nat.add_mul_mod_self_left, Nat.mod_eq_of_lt d.isLt]
    have hdiv : (d + b * value ds) / b = value ds := by
      rw [Nat.add_mul_div_left _ _ hpos, Nat.div_eq_of_lt d.isLt, Nat.zero_add]
    rw [List.length_cons, digits, value, hdiv, ih]
    exact congrArg (· :: ds) (Fin.ext hmod)

/-- The first digits of a numeral are its lowest ones. -/
theorem take_digits {j k : ℕ} (h : j ≤ k) (n : ℕ) : (digits b k n).take j = digits b j n := by
  induction j generalizing k n with
  | zero => rfl
  | succ j ih =>
    cases k with
    | zero => omega
    | succ k =>
      rw [digits, digits, List.take_succ_cons, ih (by omega)]

omit [NeZero b] in
theorem value_append (ds es : List (Fin b)) :
    value (ds ++ es) = value ds + b ^ ds.length * value es := by
  induction ds with
  | nil => simp [value]
  | cons d ds ih =>
    rw [List.cons_append, value, ih, value, List.length_cons, Nat.pow_succ']
    ring

theorem value_zeros (k : ℕ) : value (List.replicate k (0 : Fin b)) = 0 := by
  induction k with
  | zero => rfl
  | succ k ih => simp [List.replicate_succ, value, ih]

theorem bigEndian_succ (k n : ℕ) :
    bigEndian b (k + 1) n = bigEndian b k (n / b) ++ [Fin.ofNat b n] := by
  simp [bigEndian, digits]

theorem bigEndian_inj {k m n : ℕ} (hm : m < b ^ k) (hn : n < b ^ k)
    (h : bigEndian b k m = bigEndian b k n) : m = n := by
  have hdigits : digits b k m = digits b k n := List.reverse_injective h
  rw [← value_digits_of_lt hm, hdigits, value_digits_of_lt hn]

section Order
variable {α : Type*} [LinearOrder α]

/-- Lists of one length are compared by their first parts, then by the rest. -/
theorem append_lt_append_iff {xs ys as bs : List α} (h : xs.length = ys.length) :
    xs ++ as < ys ++ bs ↔ xs < ys ∨ xs = ys ∧ as < bs := by
  induction xs generalizing ys with
  | nil =>
    cases ys with
    | nil => simp
    | cons y ys => cases h
  | cons x xs ih =>
    cases ys with
    | nil => cases h
    | cons y ys =>
      have hlen : xs.length = ys.length := by simpa using h
      simp only [List.cons_append, List.cons_lt_cons_iff, ih hlen, List.cons.injEq]
      tauto

variable {A B : Type*} [LinearOrder A] [LinearOrder B] {w v : ℕ} {enc : A → List α}
  {enc' : B → List α}

/-- The encoding has `w` digits, and the codes are ordered as what they encode. -/
structure Ordered (w : ℕ) (enc : A → List α) : Prop where
  width : ∀ a, (enc a).length = w
  lt_iff : ∀ a a', enc a < enc a' ↔ a < a'

theorem Ordered.strictMono (h : Ordered w enc) : StrictMono enc :=
  fun a a' hlt => (h.lt_iff a a').mpr hlt

theorem Ordered.injective (h : Ordered w enc) : Function.Injective enc := h.strictMono.injective

/-- One code after the other: pairs in lexicographic order. -/
theorem Ordered.pair (h : Ordered w enc) (h' : Ordered v enc') :
    Ordered (w + v) fun p : A ×ₗ B => enc (ofLex p).1 ++ enc' (ofLex p).2 := by
  refine ⟨?_, ?_⟩
  · intro p
    rw [List.length_append, h.width, h'.width]
  · intro p q
    rw [append_lt_append_iff ((h.width _).trans (h.width _).symm), h.lt_iff, h'.lt_iff,
      h.injective.eq_iff, Prod.Lex.lt_iff]

theorem Ordered.injective2 (h : Ordered w enc) (h' : Ordered v enc') :
    Function.Injective2 fun a b => enc a ++ enc' b := by
  intro a a' b b' heq
  have hpair : toLex (a, b) = toLex (a', b') := (h.pair h').injective heq
  exact Prod.ext_iff.mp (congrArg ofLex hpair)

/-- A key starts with the code of its own first part and with no other one. -/
theorem Ordered.prefix_iff (h : Ordered w enc) {a a' : A} {rest : List α} :
    enc a <+: enc a' ++ rest ↔ a' = a := by
  constructor
  · intro hpre
    have htake := List.prefix_iff_eq_take.mp hpre
    rw [h.width, List.take_append_of_le_length (h.width a').ge, ← h.width a', List.take_length]
      at htake
    exact (h.injective htake).symm
  · intro heq
    rw [heq]
    exact List.prefix_append _ _

def scan (start : List α) (keys : Finset (List α)) : List (List α) :=
  (keys.filter fun key => start <+: key).sort

/-- The scan for a first part finds the pairs with that first part, in the order of the second. -/
theorem Ordered.scan_pair (h : Ordered w enc) (h' : Ordered v enc') (a : A)
    (rows : Finset (A ×ₗ B)) :
    scan (enc a) (rows.image fun p => enc (ofLex p).1 ++ enc' (ofLex p).2) =
      (rows.filter fun p => (ofLex p).1 = a).sort.map fun p =>
        enc (ofLex p).1 ++ enc' (ofLex p).2 := by
  have hkeys := h.pair h'
  let key : A ×ₗ B ↪ List α :=
    ⟨fun p => enc (ofLex p).1 ++ enc' (ofLex p).2, hkeys.injective⟩
  have hmono : StrictMonoOn key (rows.filter fun p => (ofLex p).1 = a) :=
    hkeys.strictMono.strictMonoOn _
  have hfilter : (rows.image key).filter (fun k => enc a <+: k) =
      (rows.filter fun p => (ofLex p).1 = a).map key := by
    rw [Finset.filter_image, Finset.map_eq_image]
    exact congrArg _ (Finset.filter_congr fun p _ => h.prefix_iff)
  exact (congrArg Finset.sort hfilter).trans hmono.map_finsetSort.symm

end Order

/-- Highest digit first, the numerals are ordered as the numbers. -/
theorem bigEndian_lt_iff {k m n : ℕ} (hm : m < b ^ k) (hn : n < b ^ k) :
    bigEndian b k m < bigEndian b k n ↔ m < n := by
  induction k generalizing m n with
  | zero =>
    rw [Nat.pow_zero, Nat.lt_one_iff] at hm hn
    simp [hm, hn]
  | succ k ih =>
    have hm' : m / b < b ^ k := Nat.div_lt_of_lt_mul (by rwa [← Nat.pow_succ'])
    have hn' : n / b < b ^ k := Nat.div_lt_of_lt_mul (by rwa [← Nat.pow_succ'])
    have hlow : [Fin.ofNat b m] < [Fin.ofNat b n] ↔ m % b < n % b := by
      simp [List.cons_lt_cons_iff, Fin.lt_def]
    have heq : bigEndian b k (m / b) = bigEndian b k (n / b) ↔ m / b = n / b :=
      ⟨bigEndian_inj hm' hn', fun h => by rw [h]⟩
    rw [bigEndian_succ, bigEndian_succ, append_lt_append_iff (by simp), ih hm' hn', heq, hlow]
    have hsplit := Nat.div_add_mod m b
    have hsplit' := Nat.div_add_mod n b
    constructor
    · intro h
      cases h with
      | inl hhigh =>
        by_contra hge
        exact absurd (Nat.div_le_div_right (Nat.not_lt.mp hge)) (Nat.not_le.mpr hhigh)
      | inr hlow =>
        rw [← hsplit, ← hsplit', hlow.1]
        exact Nat.add_lt_add_left hlow.2 _
    · intro h
      cases Nat.lt_or_eq_of_le (Nat.div_le_div_right (c := b) (Nat.le_of_lt h)) with
      | inl hhigh => exact Or.inl hhigh
      | inr hsame =>
        refine Or.inr ⟨hsame, ?_⟩
        rw [hsame] at hsplit
        omega

end Radix
