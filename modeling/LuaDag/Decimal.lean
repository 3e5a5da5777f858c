import Mathlib.Order.Basic

/-! Numbers in decimal: digits as they are printed, and the parsing of a number that must stay
below a bound. General library. -/
namespace Decimal

def accumulate (bound : ℕ) : ℕ → List Char → Option ℕ
  | acc, [] => some acc
  | acc, c :: cs =>
    if c.isDigit then
      let next := 10 * acc + (c.toNat - '0'.toNat)
      if next < bound then accumulate bound next cs else none
    else none

/-- A plus sign may stand before the digits, of which there is at least one. -/
def parse (bound : ℕ) : List Char → Option ℕ
  | [] => none
  | c :: cs =>
    if c = '+' then if cs = [] then none else accumulate bound 0 cs
    else accumulate bound 0 (c :: cs)

theorem le_ofDigitChars (cs : List Char) (acc : ℕ) : acc ≤ Nat.ofDigitChars 10 cs acc := by
  induction cs generalizing acc with
  | nil => exact Nat.le_of_eq Nat.ofDigitChars_nil.symm
  | cons c cs ih =>
    rw [Nat.ofDigitChars_cons]
    exact Nat.le_trans (by omega) (ih _)

theorem accumulate_digits {bound : ℕ} {cs : List Char} {acc : ℕ} (hdigits : ∀ c ∈ cs, c.isDigit)
    (hlt : Nat.ofDigitChars 10 cs acc < bound) :
    accumulate bound acc cs = some (Nat.ofDigitChars 10 cs acc) := by
  induction cs generalizing acc with
  | nil => rw [accumulate, Nat.ofDigitChars_nil]
  | cons c cs ih =>
    rw [Nat.ofDigitChars_cons] at hlt ⊢
    have hnext : 10 * acc + (c.toNat - '0'.toNat) < bound :=
      Nat.lt_of_le_of_lt (le_ofDigitChars cs _) hlt
    rw [accumulate, if_pos (hdigits c List.mem_cons_self)]
    dsimp only
    rw [if_pos hnext]
    exact ih (fun d hd => hdigits d (List.mem_cons_of_mem c hd)) hlt

theorem isDigit_toDigits {n : ℕ} : ∀ c ∈ Nat.toDigits 10 n, c.isDigit :=
  fun _ hc => Nat.isDigit_of_mem_toDigits (by decide) (by decide) hc

theorem parse_toDigits {bound n : ℕ} (hlt : n < bound) :
    parse bound (Nat.toDigits 10 n) = some n := by
  have hacc : accumulate bound 0 (Nat.toDigits 10 n) = some n := by
    rw [accumulate_digits isDigit_toDigits (by rwa [Nat.ofDigitChars_ten_toDigits]),
      Nat.ofDigitChars_ten_toDigits]
  cases hdigits : Nat.toDigits 10 n with
  | nil => exact absurd hdigits Nat.toDigits_ne_nil
  | cons c cs =>
    rw [hdigits] at hacc
    have hc : c.isDigit := isDigit_toDigits c (by rw [hdigits]; exact List.mem_cons_self)
    rw [parse, if_neg, hacc]
    rintro rfl
    exact absurd hc (by decide)

end Decimal
