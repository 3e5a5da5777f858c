import LuaDag.LogField
import Mathlib.Algebra.Field.Defs
import Mathlib.Algebra.Group.End
import Mathlib.Data.Finset.Card
import Mathlib.Order.Interval.Finset.Nat

/-! GF(2^8) with the primitive polynomial `x^8 + x^4 + x^3 + x^2 + 1`, computed by a table of the
powers of the generator and one of logarithms. The operations are those of a field. -/
namespace LuaDag

structure Byte where
  bits : BitVec 8
deriving DecidableEq, Repr

/-- What the erasure codec fails with. A panic is no error value of the code. -/
inductive ErasureError where
  | config (msg : String)
  | codec (msg : String)
  | panic (msg : String)
deriving DecidableEq, Repr

theorem getD_set {α : Type} (l : List α) (i j : ℕ) (x d : α) :
    (l.set i x).getD j d = if i = j ∧ i < l.length then x else l.getD j d := by
  simp only [List.getD_eq_getElem?_getD, List.getElem?_set]
  by_cases heq : i = j
  · subst heq
    by_cases hlt : i < l.length
    · simp [hlt]
    · simp [hlt]
  · simp [heq]

namespace Byte

instance : Zero Byte := ⟨⟨0⟩⟩
instance : One Byte := ⟨⟨1⟩⟩

theorem ext {a b : Byte} (h : a.bits = b.bits) : a = b := by
  cases a
  cases b
  cases h
  rfl

end Byte

namespace Gf256

structure GfTables where
  exp : List Byte
  log : List ℕ

def mulByGenerator (x : Byte) : Byte :=
  if x.bits &&& 0x80 ≠ 0 then ⟨(x.bits <<< 1) ^^^ 0x1D⟩ else ⟨x.bits <<< 1⟩

def fill : ℕ → GfTables × Byte
  | 0 => (⟨List.replicate 512 0, List.replicate 256 0⟩, 1)
  | i + 1 =>
    let (t, x) := fill i
    (⟨t.exp.set i x, t.log.set x.bits.toNat i⟩, mulByGenerator x)

def wrap (exp : List Byte) : ℕ → List Byte
  | 0 => exp
  | i + 1 => (wrap exp i).set (255 + i) ((wrap exp i).getD i 0)

def tables : GfTables :=
  ⟨wrap (fill 255).1.exp 257, (fill 255).1.log⟩

def logOf (a : Byte) : ℕ := tables.log.getD a.bits.toNat 0

def add (a b : Byte) : Byte := ⟨a.bits ^^^ b.bits⟩

def mul (a b : Byte) : Byte :=
  if a = 0 ∨ b = 0 then 0 else tables.exp.getD ((logOf a + logOf b) % 255) 0

def inv (a : Byte) : Byte := if a = 0 then 0 else tables.exp.getD (255 - logOf a) 0

def powLoop (acc base : Byte) (n : ℕ) : Byte :=
  if n = 0 then acc
  else powLoop (if n % 2 ≠ 0 then mul acc base else acc) (mul base base) (n / 2)
termination_by n

def pow (a : Byte) (n : ℕ) : Byte := powLoop 1 a n

def mulSliceAdd (c : Byte) (input out : List Byte) : Except ErasureError (List Byte) :=
  if input.length ≠ out.length then
    .error (.panic "assertion left == right failed")
  else if c = 0 then .ok out
  else if c = 1 then .ok (List.zipWith add out input)
  else .ok (List.zipWith (fun dst src => add dst (mul c src)) out input)

/- Addition. -/

theorem add_self (a : Byte) : add a a = 0 := Byte.ext (BitVec.xor_self)

instance : Add Byte := ⟨add⟩
instance : Neg Byte := ⟨id⟩

instance : AddCommGroup Byte where
  add_assoc a b c := Byte.ext (BitVec.xor_assoc _ _ _)
  zero_add a := Byte.ext (BitVec.zero_xor)
  add_zero a := Byte.ext (BitVec.xor_zero)
  add_comm a b := Byte.ext (BitVec.xor_comm _ _)
  neg_add_cancel := add_self
  nsmul := nsmulRec
  zsmul := zsmulRec

theorem neg_eq (a : Byte) : -a = a := rfl

/- The generator. -/

theorem mulByGenerator_eq (x : Byte) : mulByGenerator x =
    ⟨x.bits <<< 1 ^^^ if x.bits.msb then 0x1D else 0⟩ := by
  have hmsb : ∀ b : BitVec 8, b &&& 0x80 ≠ 0 ↔ b.msb = true := by decide
  unfold mulByGenerator
  by_cases h : x.bits.msb = true
  · rw [if_pos ((hmsb _).mpr h), if_pos h]
  · rw [if_neg (fun hb => h ((hmsb _).mp hb)), if_neg h]
    simp

def generator : AddMonoid.End Byte where
  toFun := mulByGenerator
  map_zero' := by decide
  map_add' x y := by
    have hbits : ∀ a b : Byte, (a + b).bits = a.bits ^^^ b.bits := fun _ _ => rfl
    apply Byte.ext
    simp only [mulByGenerator_eq, hbits, BitVec.shiftLeft_xor_distrib, BitVec.msb_xor]
    have hcancel : ∀ b c : BitVec 8, b ^^^ (b ^^^ c) = c := by
      intro b c
      rw [← BitVec.xor_assoc, BitVec.xor_self, BitVec.zero_xor]
    cases x.bits.msb <;> cases y.bits.msb
    · simp
    · simp [BitVec.xor_assoc]
    · simp [BitVec.xor_assoc, BitVec.xor_comm (y.bits <<< 1)]
    · simp [BitVec.xor_assoc, BitVec.xor_comm (y.bits <<< 1) (29#8), hcancel]

theorem generator_pow (i : ℕ) (a : Byte) : (generator ^ i) a = mulByGenerator^[i] a := by
  rw [AddMonoid.End.coe_pow]
  rfl

theorem generator_cycle : (generator ^ 255) 1 = 1 := by
  rw [generator_pow]
  decide +kernel

theorem generator_first_return : ∀ d, 0 < d → d < 255 → (generator ^ d) 1 ≠ 1 := by
  simp only [generator_pow]
  have hall : ∀ d < 255, 0 < d → mulByGenerator^[d] 1 ≠ 1 := by decide +kernel
  exact fun d hpos hlt => hall d hlt hpos

theorem generator_inj {i j : ℕ} (hi : i < 255) (hj : j < 255)
    (heq : (generator ^ i) 1 = (generator ^ j) 1) : i = j :=
  LogField.pow_inj_of_first_return generator_cycle generator_first_return hi hj heq

theorem generator_ne (i : ℕ) (hi : i < 255) : (generator ^ i) (1 : Byte) ≠ 0 := by
  intro hzero
  have hback := LogField.pow_add_apply (g := generator) (255 - i) i 1
  rw [Nat.sub_add_cancel (Nat.le_of_lt hi), generator_cycle, hzero, map_zero] at hback
  exact absurd hback (by decide)

theorem generator_covers {a : Byte} (ha : a ≠ 0) : ∃ i < 255, (generator ^ i) 1 = a := by
  let code : Byte → ℕ := fun b => b.bits.toNat
  have hcode : Function.Injective code := fun b c h => Byte.ext (BitVec.eq_of_toNat_eq h)
  have hpos : ∀ b : Byte, b ≠ 0 → code b ∈ Finset.Ioo 0 256 := by
    intro b hb
    rw [Finset.mem_Ioo]
    refine ⟨Nat.pos_of_ne_zero fun hz => hb (hcode hz), b.bits.isLt⟩
  have himage : (Finset.range 255).image (fun i => code ((generator ^ i) 1)) =
      Finset.Ioo 0 256 := by
    refine Finset.eq_of_subset_of_card_le ?_ ?_
    · intro n hn
      obtain ⟨i, hi, rfl⟩ := Finset.mem_image.mp hn
      exact hpos _ (generator_ne i (Finset.mem_range.mp hi))
    · rw [Finset.card_image_of_injOn]
      · simp
      · intro i hi j hj heq
        exact generator_inj (Finset.mem_range.mp hi) (Finset.mem_range.mp hj) (hcode heq)
  have hin := hpos a ha
  rw [← himage] at hin
  obtain ⟨i, hi, heq⟩ := Finset.mem_image.mp hin
  exact ⟨i, Finset.mem_range.mp hi, hcode heq⟩

/- The tables. -/

theorem fill_succ (i : ℕ) : fill (i + 1) =
    (⟨(fill i).1.exp.set i (fill i).2, (fill i).1.log.set (fill i).2.bits.toNat i⟩,
      mulByGenerator (fill i).2) := rfl

theorem fill_spec (m : ℕ) (hm : m ≤ 255) :
    (fill m).2 = (generator ^ m) 1 ∧ (fill m).1.exp.length = 512 ∧
      (fill m).1.log.length = 256 ∧
      (∀ j < m, (fill m).1.exp.getD j 0 = (generator ^ j) 1) ∧
      ∀ j < m, (fill m).1.log.getD ((generator ^ j) 1).bits.toNat 0 = j := by
  induction m with
  | zero =>
    refine ⟨rfl, List.length_replicate, List.length_replicate, ?_, ?_⟩ <;>
      exact fun j hj => absurd hj (Nat.not_lt_zero j)
  | succ m ih =>
    obtain ⟨hx, hexp, hlog, hexps, hlogs⟩ := ih (by omega)
    rw [fill_succ, hx]
    refine ⟨?_, ?_, ?_, ?_, ?_⟩
    · rw [pow_succ']
      rfl
    · rw [List.length_set, hexp]
    · rw [List.length_set, hlog]
    · intro j hj
      dsimp only
      rw [getD_set]
      split
      · rename_i heq
        rw [heq.1]
      · exact hexps j (by omega)
    · intro j hj
      dsimp only
      rw [getD_set, hlog]
      split
      · rename_i heq
        exact generator_inj (by omega) (by omega) (Byte.ext (BitVec.eq_of_toNat_eq heq.1))
      · rename_i hne
        have hlt : ((generator ^ m) (1 : Byte)).bits.toNat < 256 := BitVec.isLt _
        have hold : j ≠ m := by
          rintro rfl
          exact hne ⟨rfl, hlt⟩
        exact hlogs j (by omega)

theorem wrap_spec (m : ℕ) (hm : m ≤ 257) :
    (wrap (fill 255).1.exp m).length = 512 ∧
      ∀ j < 255 + m, (wrap (fill 255).1.exp m).getD j 0 = (generator ^ j) 1 := by
  obtain ⟨-, hlen, -, hexps, -⟩ := fill_spec 255 (Nat.le_refl _)
  induction m with
  | zero => exact ⟨hlen, hexps⟩
  | succ m ih =>
    obtain ⟨hlen', hold⟩ := ih (by omega)
    refine ⟨by rw [wrap, List.length_set, hlen'], ?_⟩
    intro j hj
    rw [wrap, getD_set, hlen']
    split
    · rename_i heq
      rw [← heq.1, hold m (by omega), Nat.add_comm, LogField.pow_add_apply, generator_cycle]
    · exact hold j (by omega)

theorem exp_spec {i : ℕ} (hi : i < 512) : tables.exp.getD i 0 = (generator ^ i) 1 := by
  obtain ⟨-, hexps⟩ := wrap_spec 257 (Nat.le_refl _)
  rw [tables]
  dsimp only
  exact hexps i hi

theorem log_spec {i : ℕ} (hi : i < 255) : logOf ((generator ^ i) 1) = i := by
  obtain ⟨-, -, -, -, hlogs⟩ := fill_spec 255 (Nat.le_refl _)
  rw [logOf, tables]
  dsimp only
  exact hlogs i hi

theorem table : LogField.Table generator 1 255 logOf where
  unit_ne := by decide
  cycle := generator_cycle
  log_lt a ha := by
    obtain ⟨i, hi, rfl⟩ := generator_covers ha
    rwa [log_spec hi]
  exp_log a ha := by
    obtain ⟨i, hi, rfl⟩ := generator_covers ha
    rw [log_spec hi]
  log_exp _ hi := log_spec hi

theorem mul_eq_table (a b : Byte) : mul a b = LogField.mul generator 1 255 logOf a b := by
  have hmod : (logOf a + logOf b) % 255 < 512 := by omega
  rw [mul, LogField.mul, exp_spec hmod]

theorem inv_eq_table (a : Byte) : inv a = LogField.inv generator 1 255 logOf a := by
  have hlt : 255 - logOf a < 512 := by omega
  rw [inv, LogField.inv, exp_spec hlt]

/- The field. -/

theorem mul_comm' (a b : Byte) : mul a b = mul b a := by
  rw [mul_eq_table, mul_eq_table, LogField.Table.mul_comm]

theorem mul_add' (a b c : Byte) : mul a (b + c) = mul a b + mul a c := by
  rw [mul_eq_table, mul_eq_table, mul_eq_table, table.mul_add]

theorem one_mul' (a : Byte) : mul 1 a = a := by
  rw [mul_eq_table, table.one_mul]

theorem zero_mul' (a : Byte) : mul 0 a = 0 := if_pos (Or.inl rfl)

theorem inv_zero' : inv 0 = 0 := if_pos rfl

instance : Mul Byte := ⟨mul⟩
instance : Inv Byte := ⟨inv⟩

instance : Field Byte where
  neg_add_cancel := add_self
  zero_mul a := zero_mul' a
  mul_zero a := (mul_comm' a 0).trans (zero_mul' a)
  one_mul := one_mul'
  mul_one a := (mul_comm' a 1).trans (one_mul' a)
  mul_comm := mul_comm'
  mul_assoc a b c := by
    change mul (mul a b) c = mul a (mul b c)
    simp only [mul_eq_table, table.mul_assoc]
  left_distrib := mul_add'
  right_distrib a b c := by
    change mul (a + b) c = mul a c + mul b c
    rw [mul_comm', mul_add', mul_comm' c a, mul_comm' c b]
  exists_pair_ne := ⟨0, 1, by decide⟩
  mul_inv_cancel a ha := by
    change mul a (inv a) = 1
    rw [mul_eq_table, inv_eq_table, table.mul_inv ha]
  inv_zero := inv_zero'
  nsmul := nsmulRec
  zsmul := zsmulRec
  nnqsmul := _
  nnqsmul_def _ _ := rfl
  qsmul := _
  qsmul_def _ _ := rfl

theorem mul_eq (a b : Byte) : mul a b = a * b := rfl

theorem sub_eq (a b : Byte) : a - b = a + b := by
  rw [sub_eq_add_neg, neg_eq]

theorem powLoop_spec (acc base : Byte) (n : ℕ) : powLoop acc base n = acc * base ^ n := by
  fun_induction powLoop acc base n with
  | case1 acc base => rw [pow_zero, mul_one]
  | case2 acc base n hn ih =>
    simp only [dite_eq_ite] at ih
    rw [ih, mul_eq, mul_eq, ← pow_two, ← pow_mul]
    by_cases hodd : n % 2 = 0
    · rw [if_neg (by simpa using hodd), Nat.mul_div_cancel' (Nat.dvd_of_mod_eq_zero hodd)]
    · have hn' : n = 2 * (n / 2) + 1 := by omega
      rw [if_pos hodd, mul_assoc, ← pow_succ', ← hn']

theorem pow_eq (a : Byte) (n : ℕ) : pow a n = a ^ n := by
  rw [pow, powLoop_spec, one_mul]

/-- The slice operation adds a multiple of the input, if the lengths agree. -/
theorem mulSliceAdd_spec (c : Byte) {input out : List Byte} (h : input.length = out.length) :
    mulSliceAdd c input out = .ok (List.zipWith (fun dst src => dst + c * src) out input) := by
  unfold mulSliceAdd
  rw [if_neg (by simpa using h)]
  split
  · rename_i hc
    subst hc
    have hkeep : List.zipWith (fun dst _ => dst) out input = out := by
      refine List.ext_getElem (by simp [h]) ?_
      intro i _ _
      rw [List.getElem_zipWith]
    simp only [zero_mul, add_zero, hkeep]
  · split
    · rename_i hc
      subst hc
      simp only [one_mul]
      rfl
    · rfl

end Gf256
end LuaDag
