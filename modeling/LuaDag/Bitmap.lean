import Mathlib.Algebra.Order.Ring.Nat
import Mathlib.Data.Finset.Card
import Mathlib.Data.Finset.Range

/-! Bit sets packed into byte lists: bit `i` lives in `bytes[i / 8] >> (i % 8)`.
General library; nothing here depends on what the bits stand for. -/
namespace Bitmap

def test (bytes : List (BitVec 8)) (i : Nat) : Bool :=
  (bytes.getD (i / 8) 0#8 &&& 1#8 <<< (i % 8)) != 0#8

def set (bytes : List (BitVec 8)) (i : Nat) : List (BitVec 8) :=
  bytes.modify (i / 8) (· ||| 1#8 <<< (i % 8))

def zeros (n : Nat) : List (BitVec 8) := List.replicate ((n + 7) / 8) 0#8

def setAll (bytes : List (BitVec 8)) (is : List Nat) : List (BitVec 8) :=
  is.foldl set bytes

def countOnes (bytes : List (BitVec 8)) : Nat :=
  (bytes.map fun b => (List.range 8).countP b.getLsbD).sum

def members (bytes : List (BitVec 8)) (n : Nat) : Finset Nat :=
  (Finset.range n).filter (test bytes ·)

theorem byte_test (b : BitVec 8) (k : Nat) (hk : k < 8) :
    ((b &&& 1#8 <<< k) != 0#8) = b.getLsbD k := by
  have hz : (b &&& 1#8 <<< k) = 0#8 ↔ b.getLsbD k = false := by
    constructor
    · intro h
      have hb := congrArg (fun v : BitVec 8 => v.getLsbD k) h
      simpa [hk] using hb
    · intro h
      apply BitVec.eq_of_getLsbD_eq
      intro i hi
      by_cases hik : i = k
      · subst i
        simp [h]
      · have hd : i - k ≠ 0 ∨ i < k := by omega
        cases hd with
        | inl hd => simp [hd]
        | inr hd => simp [hd]
  by_cases h : b.getLsbD k = true
  · have hne : (b &&& 1#8 <<< k) ≠ 0#8 := by
      intro h0
      simp [hz.mp h0] at h
    simp [h, hne]
  · simp only [Bool.not_eq_true] at h
    simp [h, hz.mpr h]

theorem test_eq (bytes : List (BitVec 8)) (i : Nat) :
    test bytes i = (bytes.getD (i / 8) 0#8).getLsbD (i % 8) :=
  byte_test _ _ (Nat.mod_lt _ (by decide))

@[simp] theorem set_length (bytes : List (BitVec 8)) (i : Nat) :
    (set bytes i).length = bytes.length := by
  simp [set]

@[simp] theorem setAll_length (is : List Nat) (bytes : List (BitVec 8)) :
    (setAll bytes is).length = bytes.length := by
  induction is generalizing bytes with
  | nil => rfl
  | cons i is ih => simpa [setAll] using ih (set bytes i)

theorem test_set (bytes : List (BitVec 8)) (i j : Nat) (hi : i / 8 < bytes.length) :
    test (set bytes i) j = (decide (i = j) || test bytes j) := by
  rw [test_eq, test_eq, set]
  by_cases hb : i / 8 = j / 8
  · have hj : j / 8 < bytes.length := by omega
    have hg : (bytes.modify (i / 8) (· ||| 1#8 <<< (i % 8))).getD (j / 8) 0#8 =
        bytes.getD (j / 8) 0#8 ||| 1#8 <<< (i % 8) := by
      rw [hb]
      simp [List.getD, hj]
    rw [hg, BitVec.getLsbD_or]
    have hm : (1#8 <<< (i % 8)).getLsbD (j % 8) = decide (i = j) := by
      have h8 : j % 8 < 8 := Nat.mod_lt _ (by decide)
      by_cases he : i = j
      · subst j
        simp [h8]
      · have hne : i % 8 ≠ j % 8 := by omega
        have hd : j % 8 < i % 8 ∨ j % 8 - i % 8 ≠ 0 := by omega
        cases hd with
        | inl hd => simp [he, hd]
        | inr hd => simp [he, hd]
    rw [hm, Bool.or_comm]
  · have hg : (bytes.modify (i / 8) (· ||| 1#8 <<< (i % 8))).getD (j / 8) 0#8 =
        bytes.getD (j / 8) 0#8 := by
      simp [List.getD, hb]
    have hij : i ≠ j := by
      intro he
      exact hb (by rw [he])
    rw [hg]
    simp [hij]

theorem test_setAll (is : List Nat) (bytes : List (BitVec 8)) (j : Nat)
    (hi : ∀ i ∈ is, i / 8 < bytes.length) :
    test (setAll bytes is) j = (decide (j ∈ is) || test bytes j) := by
  induction is generalizing bytes with
  | nil => simp [setAll]
  | cons i is ih =>
    have hs := ih (set bytes i) (fun k hk => by
      simpa using hi k (List.mem_cons_of_mem i hk))
    have hd := test_set bytes i j (hi i (by simp))
    simp only [setAll, List.foldl_cons] at hs ⊢
    rw [hs, hd]
    by_cases hij : i = j
    · simp [hij]
    · have hji : j ≠ i := fun h => hij h.symm
      simp [hij, hji]

@[simp] theorem test_zeros (n j : Nat) : test (zeros n) j = false := by
  rw [test_eq, zeros]
  by_cases h : j / 8 < (n + 7) / 8 <;> simp [List.getD, h]

@[simp] theorem zeros_length (n : Nat) : (zeros n).length = (n + 7) / 8 := by
  simp [zeros]

/-- Marking bits below `n` on an all-zero bitmap of `n` bits sets exactly those. -/
theorem test_setAll_zeros (n j : Nat) (is : List Nat) (hi : ∀ i ∈ is, i < n) :
    test (setAll (zeros n) is) j = decide (j ∈ is) := by
  rw [test_setAll]
  · simp
  · intro i h
    have := hi i h
    simp only [zeros_length]
    omega

theorem mem_members (bytes : List (BitVec 8)) (n i : Nat) :
    i ∈ members bytes n ↔ i < n ∧ test bytes i = true := by
  simp [members]

theorem card_members (bytes : List (BitVec 8)) (n : Nat) :
    (members bytes n).card = ((List.range n).filter (test bytes)).length := by
  have hf : (List.range n).filter (test bytes) =
      (List.range n).filter (fun i => decide (test bytes i = true)) := by
    simp
  rw [hf]
  rfl

theorem countOnes_cons (b : BitVec 8) (bytes : List (BitVec 8)) :
    countOnes (b :: bytes) = (List.range 8).countP b.getLsbD + countOnes bytes := by
  simp [countOnes]

theorem countOnes_eq (bytes : List (BitVec 8)) :
    countOnes bytes = (List.range (8 * bytes.length)).countP (test bytes) := by
  induction bytes with
  | nil => rfl
  | cons b bytes ih =>
    have hl : 8 * (b :: bytes).length = 8 + 8 * bytes.length := by
      simp only [List.length_cons]
      omega
    rw [countOnes_cons, ih, hl, List.range_add, List.countP_append, List.countP_map]
    congr 1
    · apply List.countP_congr
      intro i hi
      have h8 : i < 8 := List.mem_range.mp hi
      have hd : i / 8 = 0 := by omega
      have hm : i % 8 = i := by omega
      simp [test_eq, hd, hm]
    · apply List.countP_congr
      intro i _
      have hd : (8 + i) / 8 = i / 8 + 1 := by omega
      have hm : (8 + i) % 8 = i % 8 := by omega
      simp [test_eq, hd, hm]

/-- The number of ones is the number of members once no bit from `n` on is set. -/
theorem countOnes_eq_card (bytes : List (BitVec 8)) (n : Nat)
    (hn : n ≤ 8 * bytes.length) (hz : ∀ i, n ≤ i → test bytes i = false) :
    countOnes bytes = (members bytes n).card := by
  have hsplit : 8 * bytes.length = n + (8 * bytes.length - n) := by omega
  rw [countOnes_eq, hsplit, List.range_add, List.countP_append, List.countP_map]
  have htail : (List.range (8 * bytes.length - n)).countP (test bytes ∘ fun x => n + x) = 0 := by
    rw [List.countP_eq_zero]
    intro i _
    simp [hz (n + i) (by omega)]
  rw [htail, Nat.add_zero, List.countP_eq_length_filter, card_members]

theorem eq_of_test {bytes bytes' : List (BitVec 8)} (hlen : bytes.length = bytes'.length)
    (htest : ∀ i, test bytes i = test bytes' i) : bytes = bytes' := by
  refine List.ext_getElem hlen ?_
  intro k hk hk'
  apply BitVec.eq_of_getLsbD_eq
  intro j hj
  have hbit := htest (8 * k + j)
  have hd : (8 * k + j) / 8 = k := by omega
  have hm : (8 * k + j) % 8 = j := by omega
  simpa [test_eq, hd, hm, List.getD, hk, hk'] using hbit

/-- Which bits get marked matters, not their order. -/
theorem setAll_zeros_congr (n : Nat) {is js : List Nat} (hi : ∀ i ∈ is, i < n)
    (hmem : ∀ i, i ∈ is ↔ i ∈ js) : setAll (zeros n) is = setAll (zeros n) js := by
  refine eq_of_test (by simp) ?_
  intro i
  have hj : ∀ j ∈ js, j < n := fun j h => hi j ((hmem j).mpr h)
  rw [test_setAll_zeros n i is hi, test_setAll_zeros n i js hj]
  simp [hmem]

end Bitmap
