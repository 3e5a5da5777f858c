import Mathlib.Data.List.TakeWhile
import Mathlib.Algebra.Order.Group.Nat

/-! A counter of consecutive turns, with a latch: it saturates, starts again at every break, and
reports once in a streak, when it comes to the trigger. General library. -/
namespace Streak

structure Counter where
  count : ℕ
  reported : Bool
deriving DecidableEq, Repr

def Counter.turn (trigger cap : ℕ) (breaks : Bool) (c : Counter) : Counter × Option ℕ :=
  if breaks then (⟨0, false⟩, none)
  else
    let count := min (c.count + 1) cap
    if decide (trigger ≤ count) && !c.reported then (⟨count, true⟩, some count)
    else (⟨count, c.reported⟩, none)

def trailing (turns : List Bool) : ℕ := (turns.reverse.takeWhile fun breaks => !breaks).length

@[simp] theorem trailing_nil : trailing [] = 0 := rfl

@[simp] theorem trailing_break (turns : List Bool) : trailing (turns ++ [true]) = 0 := by
  simp [trailing]

@[simp] theorem trailing_turn (turns : List Bool) :
    trailing (turns ++ [false]) = trailing turns + 1 := by
  simp [trailing]

/-- The counter after `turns`. -/
structure Counter.Tracks (trigger cap : ℕ) (turns : List Bool) (c : Counter) : Prop where
  count : c.count = min (trailing turns) cap
  reported : c.reported = decide (trigger ≤ trailing turns)

variable {trigger cap : ℕ}

theorem Counter.tracks_nil (htrigger : 1 ≤ trigger) :
    Counter.Tracks trigger cap [] ⟨0, false⟩ := by
  refine ⟨by simp, ?_⟩
  rw [eq_comm, decide_eq_false_iff_not, trailing_nil]
  omega

/-- A turn keeps track, and reports exactly when the streak comes to the trigger. -/
theorem Counter.Tracks.turn (htrigger : 1 ≤ trigger) (hcap : trigger ≤ cap) {turns : List Bool}
    {c : Counter} (h : c.Tracks trigger cap turns) (breaks : Bool) :
    (c.turn trigger cap breaks).1.Tracks trigger cap (turns ++ [breaks]) ∧
      (c.turn trigger cap breaks).2 =
        if breaks = false ∧ trailing (turns ++ [breaks]) = trigger then some trigger else none := by
  cases breaks with
  | true =>
    refine ⟨⟨by simp [Counter.turn], ?_⟩, by simp [Counter.turn]⟩
    have hzero : ¬ trigger ≤ 0 := by omega
    simp [Counter.turn, hzero]
  | false =>
    have hcount : min (c.count + 1) cap = min (trailing turns + 1) cap := by
      rw [h.count]
      omega
    rw [trailing_turn]
    by_cases hpast : trigger ≤ trailing turns
    · -- the report has been made
      have hrep : c.reported = true := by simpa [hpast] using h.reported
      have hnot : trailing turns + 1 ≠ trigger := by omega
      refine ⟨⟨by simp [Counter.turn, hrep, hcount], ?_⟩, by simp [Counter.turn, hrep, hnot]⟩
      have hle : trigger ≤ trailing turns + 1 := by omega
      simp [Counter.turn, hrep, hle]
    · have hrep : c.reported = false := by simpa [hpast] using h.reported
      by_cases hnow : trailing turns + 1 = trigger
      · have hmin : min (c.count + 1) cap = trigger := by omega
        have hturn : c.turn trigger cap false = (⟨trigger, true⟩, some trigger) := by
          simp [Counter.turn, hrep, hmin]
        rw [hturn]
        refine ⟨⟨?_, ?_⟩, ?_⟩
        · rw [trailing_turn, hnow, Nat.min_eq_left hcap]
        · simp [hnow]
        · simp [hnow]
      · have hlt : ¬ trigger ≤ trailing turns + 1 := by omega
        have hturn : c.turn trigger cap false =
            (⟨min (trailing turns + 1) cap, false⟩, none) := by
          simp [Counter.turn, hrep, hcount, hlt]
        rw [hturn]
        refine ⟨⟨?_, ?_⟩, ?_⟩
        · rw [trailing_turn]
        · simp [hlt]
        · simp [hnow]

/-- What a streak has reported after one turn more. -/
theorem report_succ {α : Type*} (trigger n : ℕ) (report : α) :
    ((if trigger ≤ n then [report] else []) ++ if n + 1 = trigger then [report] else []) =
      if trigger ≤ n + 1 then [report] else [] := by
  by_cases hpast : trigger ≤ n
  · rw [if_pos hpast, if_neg (by omega), if_pos (by omega)]
    rfl
  by_cases hnow : n + 1 = trigger
  · rw [if_neg hpast, if_pos hnow, if_pos (by omega)]
    rfl
  · rw [if_neg hpast, if_neg hnow, if_neg (by omega)]
    rfl

end Streak
