import Mathlib.Data.PEquiv
import LuaDag.Radix

/-! Layouts: how values lie in a string of symbols. What has been written is read back, whatever
follows it, and what can be read has been written, so that no value has two layouts. General
library. -/

structure Layout (σ α : Type) where
  write : α → Option (List σ)
  read : List σ → Option (α × List σ)
  read_write : ∀ a w, write a = some w → ∀ rest, read (w ++ rest) = some (a, rest)
  write_read : ∀ s a rest, read s = some (a, rest) → ∃ w, write a = some w ∧ s = w ++ rest

namespace Layout
variable {σ α β ι : Type}

theorem prefix_free {f : Layout σ α} {a b : α} {w v rest more : List σ} (ha : f.write a = some w)
    (hb : f.write b = some v) (h : w ++ rest = v ++ more) : a = b ∧ rest = more := by
  have hread := f.read_write a w ha rest
  rw [h, f.read_write b v hb more] at hread
  obtain ⟨hba, hmore⟩ := Prod.mk.inj (Option.some.inj hread)
  exact ⟨hba.symm, hmore.symm⟩

theorem write_inj {f : Layout σ α} {a b : α} {w : List σ} (ha : f.write a = some w)
    (hb : f.write b = some w) : a = b :=
  (prefix_free ha hb (rfl : w ++ [] = w ++ [])).1

def readAll (f : Layout σ α) (s : List σ) : Option α :=
  match f.read s with
  | some (a, []) => some a
  | _ => none

theorem readAll_iff {f : Layout σ α} {s : List σ} {a : α} :
    f.readAll s = some a ↔ f.write a = some s := by
  constructor
  · intro h
    unfold readAll at h
    split at h
    · rename_i hread
      cases h
      obtain ⟨w, hw, rfl⟩ := f.write_read s _ [] hread
      rwa [List.append_nil]
    · cases h
  · intro h
    have hread := f.read_write a s h []
    rw [List.append_nil] at hread
    rw [readAll, hread]

/- Layouts from layouts. -/

def never : Layout σ α where
  write _ := none
  read _ := none
  read_write := by simp
  write_read := by simp

def fixed (σ : Type) (n : ℕ) : Layout σ (List σ) where
  write l := if l.length = n then some l else none
  read s := if n ≤ s.length then some (s.take n, s.drop n) else none
  read_write := by
    intro l w h rest
    split at h
    · rename_i hlen
      cases h
      rw [if_pos (by simp [hlen]), List.take_left' hlen, List.drop_left' hlen]
    · cases h
  write_read := by
    intro s l rest h
    split at h
    · rename_i hlen
      cases h
      exact ⟨s.take n, if_pos (List.length_take_of_le hlen), (List.take_append_drop n s).symm⟩
    · cases h

def symbol (σ : Type) : Layout σ σ where
  write a := some [a]
  read
    | [] => none
    | a :: s => some (a, s)
  read_write := by
    intro a w h rest
    cases h
    rfl
  write_read := by
    intro s a rest h
    cases s with
    | nil => cases h
    | cons b s =>
      cases h
      exact ⟨[a], rfl, rfl⟩

def along (g : Layout σ β) (e : PEquiv α β) : Layout σ α where
  write a := (e a).bind g.write
  read s := (g.read s).bind fun p => (e.symm p.1).map fun a => (a, p.2)
  read_write := by
    intro a w h rest
    obtain ⟨b, hb, hw⟩ := Option.bind_eq_some_iff.mp h
    rw [g.read_write b w hw rest, Option.bind_some, e.eq_some_iff.mpr hb]
    rfl
  write_read := by
    intro s a rest h
    obtain ⟨⟨b, rest'⟩, hread, hmap⟩ := Option.bind_eq_some_iff.mp h
    obtain ⟨a', ha', heq⟩ := Option.map_eq_some_iff.mp hmap
    obtain ⟨rfl, rfl⟩ := Prod.mk.inj heq
    obtain ⟨w, hw, hs⟩ := g.write_read s b rest' hread
    exact ⟨w, by rw [e.eq_some_iff.mp ha', Option.bind_some, hw], hs⟩

def of (g : Layout σ β) (e : α ≃ β) : Layout σ α := g.along e.toPEquiv

def pair (f : Layout σ α) (g : Layout σ β) : Layout σ (α × β) where
  write p := (f.write p.1).bind fun w => (g.write p.2).map (w ++ ·)
  read s := (f.read s).bind fun p => (g.read p.2).map fun q => ((p.1, q.1), q.2)
  read_write := by
    rintro ⟨a, b⟩ w h rest
    obtain ⟨wa, ha, hmap⟩ := Option.bind_eq_some_iff.mp h
    obtain ⟨wb, hb, rfl⟩ := Option.map_eq_some_iff.mp hmap
    rw [List.append_assoc, f.read_write a wa ha, Option.bind_some, g.read_write b wb hb]
    rfl
  write_read := by
    rintro s ⟨a, b⟩ rest h
    obtain ⟨⟨a', s'⟩, ha, hmap⟩ := Option.bind_eq_some_iff.mp h
    obtain ⟨⟨b', rest'⟩, hb, heq⟩ := Option.map_eq_some_iff.mp hmap
    simp only [Prod.mk.injEq] at heq
    obtain ⟨⟨rfl, rfl⟩, rfl⟩ := heq
    obtain ⟨wa, hwa, rfl⟩ := f.write_read s a' s' ha
    obtain ⟨wb, hwb, rfl⟩ := g.write_read s' b' rest' hb
    refine ⟨wa ++ wb, ?_, (List.append_assoc wa wb rest').symm⟩
    rw [hwa, Option.bind_some, hwb]
    rfl

def tagged (tag : Layout σ ι) (tagOf : α → ι) (body : ι → Layout σ α)
    (h : ∀ i a w, (body i).write a = some w → tagOf a = i) : Layout σ α where
  write a := (tag.write (tagOf a)).bind fun w => ((body (tagOf a)).write a).map (w ++ ·)
  read s := (tag.read s).bind fun p => (body p.1).read p.2
  read_write := by
    intro a w hw rest
    obtain ⟨wt, ht, hmap⟩ := Option.bind_eq_some_iff.mp hw
    obtain ⟨wb, hb, rfl⟩ := Option.map_eq_some_iff.mp hmap
    rw [List.append_assoc, tag.read_write _ wt ht, Option.bind_some]
    exact (body (tagOf a)).read_write a wb hb rest
  write_read := by
    intro s a rest hs
    obtain ⟨⟨i, s'⟩, ht, hb⟩ := Option.bind_eq_some_iff.mp hs
    obtain ⟨wt, hwt, rfl⟩ := tag.write_read s i s' ht
    obtain ⟨wb, hwb, rfl⟩ := (body i).write_read s' a rest hb
    have hi := h i a wb hwb
    subst hi
    refine ⟨wt ++ wb, ?_, (List.append_assoc wt wb rest).symm⟩
    rw [hwt, Option.bind_some, hwb]
    rfl

/- Lists. -/

def writeAll (f : Layout σ α) : List α → Option (List σ)
  | [] => some []
  | a :: as => (f.write a).bind fun w => (f.writeAll as).map (w ++ ·)

def readMany (f : Layout σ α) : ℕ → List σ → Option (List α × List σ)
  | 0, s => some ([], s)
  | n + 1, s => (f.read s).bind fun p => (f.readMany n p.2).map fun q => (p.1 :: q.1, q.2)

section Lists
variable {f : Layout σ α} {w s rest : List σ}

theorem readMany_writeAll {as : List α} (h : f.writeAll as = some w) :
    f.readMany as.length (w ++ rest) = some (as, rest) := by
  induction as generalizing w with
  | nil =>
    cases h
    rfl
  | cons a as ih =>
    obtain ⟨wa, ha, hmap⟩ := Option.bind_eq_some_iff.mp h
    obtain ⟨was, has, rfl⟩ := Option.map_eq_some_iff.mp hmap
    rw [List.length_cons, readMany, List.append_assoc, f.read_write a wa ha, Option.bind_some,
      ih has]
    rfl

theorem writeAll_readMany {n : ℕ} {as : List α} (h : f.readMany n s = some (as, rest)) :
    as.length = n ∧ ∃ w, f.writeAll as = some w ∧ s = w ++ rest := by
  induction n generalizing s as with
  | zero =>
    cases h
    exact ⟨rfl, [], rfl, rfl⟩
  | succ n ih =>
    obtain ⟨⟨a, s'⟩, ha, hmap⟩ := Option.bind_eq_some_iff.mp h
    obtain ⟨⟨as', rest'⟩, has, heq⟩ := Option.map_eq_some_iff.mp hmap
    obtain ⟨rfl, rfl⟩ := Prod.mk.inj heq
    obtain ⟨wa, hwa, rfl⟩ := f.write_read s a s' ha
    obtain ⟨hlen, was, hwas, rfl⟩ := ih has
    refine ⟨by rw [List.length_cons, hlen], wa ++ was, ?_, (List.append_assoc wa was rest').symm⟩
    rw [writeAll, hwa, Option.bind_some, hwas]
    rfl

end Lists

def counted (len : Layout σ ℕ) (f : Layout σ α) : Layout σ (List α) where
  write as := (len.write as.length).bind fun w => (f.writeAll as).map (w ++ ·)
  read s := (len.read s).bind fun p => f.readMany p.1 p.2
  read_write := by
    intro as w h rest
    obtain ⟨wn, hn, hmap⟩ := Option.bind_eq_some_iff.mp h
    obtain ⟨was, has, rfl⟩ := Option.map_eq_some_iff.mp hmap
    rw [List.append_assoc, len.read_write _ wn hn, Option.bind_some]
    exact readMany_writeAll has
  write_read := by
    intro s as rest h
    obtain ⟨⟨n, s'⟩, hn, has⟩ := Option.bind_eq_some_iff.mp h
    obtain ⟨wn, hwn, rfl⟩ := len.write_read s n s' hn
    obtain ⟨rfl, was, hwas, rfl⟩ := writeAll_readMany has
    refine ⟨wn ++ was, ?_, (List.append_assoc wn was rest).symm⟩
    rw [hwn, Option.bind_some, hwas]
    rfl

def Width (f : Layout σ α) (n : ℕ) : Prop := ∀ a w, f.write a = some w → w.length = n

section Widths
variable {f : Layout σ α} {g : Layout σ β} {w : List σ}

theorem width_fixed (n : ℕ) : (fixed σ n).Width n := by
  intro l w h
  simp only [fixed] at h
  split at h
  · rename_i hlen
    cases h
    exact hlen
  · cases h

theorem Width.along {n : ℕ} (h : g.Width n) (e : PEquiv α β) : (g.along e).Width n := by
  intro a w hw
  obtain ⟨b, -, hb⟩ := Option.bind_eq_some_iff.mp hw
  exact h b w hb

theorem Width.of {n : ℕ} (h : g.Width n) (e : α ≃ β) : (g.of e).Width n := h.along e.toPEquiv

theorem Width.pair {n m : ℕ} (h : f.Width n) (h' : g.Width m) : (f.pair g).Width (n + m) := by
  rintro ⟨a, b⟩ w hw
  obtain ⟨wa, ha, hmap⟩ := Option.bind_eq_some_iff.mp hw
  obtain ⟨wb, hb, rfl⟩ := Option.map_eq_some_iff.mp hmap
  rw [List.length_append, h a wa ha, h' b wb hb]

theorem Width.writeAll {n : ℕ} (h : f.Width n) {as : List α} (hw : f.writeAll as = some w) :
    w.length = as.length * n := by
  induction as generalizing w with
  | nil =>
    cases hw
    simp
  | cons a as ih =>
    obtain ⟨wa, ha, hmap⟩ := Option.bind_eq_some_iff.mp hw
    obtain ⟨was, has, rfl⟩ := Option.map_eq_some_iff.mp hmap
    rw [List.length_append, h a wa ha, ih has, List.length_cons, Nat.succ_mul, Nat.add_comm]

/-- Items of one width that is not zero need no count. -/
theorem Width.writeAll_inj {n : ℕ} (h : f.Width n) (hn : 0 < n) {as bs : List α}
    (ha : f.writeAll as = some w) (hb : f.writeAll bs = some w) : as = bs := by
  have hlen : as.length = bs.length :=
    Nat.eq_of_mul_eq_mul_right hn ((h.writeAll ha).symm.trans (h.writeAll hb))
  have hread := @readMany_writeAll σ α f w [] as ha
  rw [hlen, readMany_writeAll hb] at hread
  exact (Prod.mk.inj (Option.some.inj hread)).1.symm

end Widths

/- Numbers. -/
section Numbers
variable {base : ℕ} [NeZero base]

def digitsOf (e : σ ≃ Fin base) (k : ℕ) : PEquiv ℕ (List σ) where
  toFun n := if n < base ^ k then some ((Radix.digits base k n).map e.symm) else none
  invFun l := if l.length = k then some (Radix.value (l.map e)) else none
  inv := by
    intro n l
    simp only [Option.ite_none_right_eq_some, Option.some.injEq]
    constructor
    · rintro ⟨hlen, rfl⟩
      subst hlen
      have hdigits := Radix.digits_value (l.map e)
      have hlt := Radix.value_lt (l.map e)
      rw [List.length_map] at hdigits hlt
      exact ⟨hlt, by simp [hdigits, Function.comp_def]⟩
    · rintro ⟨hlt, rfl⟩
      refine ⟨by simp, ?_⟩
      rw [List.map_map, Equiv.self_comp_symm, List.map_id, Radix.value_digits_of_lt hlt]

def little (e : σ ≃ Fin base) (k : ℕ) : Layout σ ℕ := (fixed σ k).along (digitsOf e k)

def big (e : σ ≃ Fin base) (k : ℕ) : Layout σ ℕ :=
  ((fixed σ k).of ⟨List.reverse, List.reverse, List.reverse_reverse, List.reverse_reverse⟩).along
    (digitsOf e k)

end Numbers
end Layout
