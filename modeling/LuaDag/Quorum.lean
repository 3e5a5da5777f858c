import Mathlib.Combinatorics.Enumerative.DoubleCounting

/-! Quorum intersection, over sets of any type and over the positions of a list whose
members are told apart by a key; collecting a contribution of every member. General
library. -/
namespace Quorum

/-- Two sets of `2f + 1` among `3f + 1` share a member outside any `f` of them. -/
theorem common_outside {α : Type} [DecidableEq α] {U A B bad : Finset α} {f : Nat}
    (hU : U.card ≤ 3 * f + 1) (hA : A ⊆ U) (hB : B ⊆ U) (hcA : 2 * f + 1 ≤ A.card)
    (hcB : 2 * f + 1 ≤ B.card) (hbad : bad.card ≤ f) : ∃ x ∈ A, x ∈ B ∧ x ∉ bad := by
  have hunion : (A ∪ B).card ≤ 3 * f + 1 :=
    (Finset.card_le_card (Finset.union_subset hA hB)).trans hU
  have hsum := Finset.card_union_add_card_inter A B
  have hlt : bad.card < (A ∩ B).card := by omega
  obtain ⟨x, hx, hnot⟩ := Finset.exists_mem_notMem_of_card_lt_card hlt
  rw [Finset.mem_inter] at hx
  exact ⟨x, hx.1, hx.2, hnot⟩

def SharesMore {α : Type} [DecidableEq α] (U : Finset α) (q f : Nat) : Prop :=
  ∀ A ⊆ U, ∀ B ⊆ U, A.card = q → B.card = q → f < (A ∩ B).card

theorem exists_least_overlap {α : Type} [DecidableEq α] {U : Finset α} {q : Nat}
    (hq : q ≤ U.card) :
    ∃ A ⊆ U, ∃ B ⊆ U, A.card = q ∧ B.card = q ∧ (A ∩ B).card = 2 * q - U.card := by
  obtain ⟨A, hA, hcA⟩ := Finset.exists_subset_card_eq hq
  have hrest : (U \ A).card = U.card - q := by rw [Finset.card_sdiff_of_subset hA, hcA]
  by_cases hroom : q ≤ U.card - q
  · -- two disjoint sets
    obtain ⟨B, hB, hcB⟩ := Finset.exists_subset_card_eq (hrest ▸ hroom)
    have hdisj : Disjoint A B := Finset.disjoint_sdiff.mono_right hB
    refine ⟨A, hA, B, hB.trans Finset.sdiff_subset, hcA, hcB, ?_⟩
    rw [Finset.disjoint_iff_inter_eq_empty.mp hdisj, Finset.card_empty]
    omega
  · -- the second set covers what the first leaves
    obtain ⟨B, hrestB, hB, hcB⟩ := Finset.exists_subsuperset_card_eq
      (Finset.sdiff_subset : U \ A ⊆ U) (hrest ▸ (not_le.mp hroom).le) hq
    have hcover : A ∪ B = U := by
      refine Finset.Subset.antisymm (Finset.union_subset hA hB) ?_
      rw [← Finset.union_sdiff_of_subset hA]
      exact Finset.union_subset_union_right hrestB
    have hsum := Finset.card_union_add_card_inter A B
    rw [hcover] at hsum
    exact ⟨A, hA, B, hB, hcA, hcB, by omega⟩

theorem sharesMore_iff {α : Type} [DecidableEq α] {U : Finset α} {q f : Nat} (hq : q ≤ U.card) :
    SharesMore U q f ↔ U.card + f < 2 * q := by
  constructor
  · intro h
    obtain ⟨A, hA, B, hB, hcA, hcB, hinter⟩ := exists_least_overlap hq
    have hlt := h A hA B hB hcA hcB
    omega
  · intro h A hA B hB hcA hcB
    have hunion := Finset.card_le_card (Finset.union_subset hA hB)
    have hsum := Finset.card_union_add_card_inter A B
    omega

section Positions
variable {α β : Type} [DecidableEq β] (l : List α) (key : α → β)

def positions (ks : Finset β) : Finset Nat :=
  (Finset.range l.length).filter fun i => (l[i]?.any fun a => decide (key a ∈ ks)) = true

variable {l key}

theorem mem_positions {ks : Finset β} {i : Nat} :
    i ∈ positions l key ks ↔ ∃ a, l[i]? = some a ∧ key a ∈ ks := by
  rw [positions, Finset.mem_filter, Finset.mem_range, Option.any_eq_true]
  constructor
  · intro h
    obtain ⟨-, a, ha, hk⟩ := h
    exact ⟨a, ha, of_decide_eq_true hk⟩
  · intro h
    obtain ⟨a, ha, hk⟩ := h
    exact ⟨(List.getElem?_eq_some_iff.mp ha).1, a, ha, decide_eq_true hk⟩

/-- Distinct keys occupy at most one position each. -/
theorem card_positions_le (hnodup : (l.map key).Nodup) (ks : Finset β) :
    (positions l key ks).card ≤ ks.card := by
  refine Finset.card_le_card_of_forall_subsingleton (fun i b => (l.map key)[i]? = some b) ?_ ?_
  · intro i hi
    obtain ⟨a, ha, hk⟩ := mem_positions.mp hi
    exact ⟨key a, hk, by simp [ha]⟩
  · intro b _ i hi j hj
    have hi' := List.getElem?_eq_some_iff.mp hi.2
    exact (List.getElem?_inj hi'.1 hnodup).mp (hi.2.trans hj.2.symm)

/-- Members at the positions where `p` holds are the members with `p`. -/
theorem zipIdx_filter_map (l : List α) (p : α → Bool) :
    ((l.zipIdx.filter fun e => l[e.2]?.any p).map (·.1)) = l.filter p := by
  have hcongr : l.zipIdx.filter (fun e => l[e.2]?.any p) = l.zipIdx.filter (p ∘ Prod.fst) := by
    apply List.filter_congr
    intro e he
    simp [List.mem_zipIdx_iff_getElem?.mp he]
  rw [hcongr, ← List.filter_map, List.zipIdx_map_fst]

end Positions

section Collect
variable {α β γ : Type}

theorem forall₂_of_mapM {f : α → Option β} {l : List α} {bs : List β}
    (h : l.mapM f = some bs) : List.Forall₂ (fun a b => f a = some b) l bs := by
  induction l generalizing bs with
  | nil =>
    cases h
    exact List.Forall₂.nil
  | cons a l ih =>
    rw [List.mapM_cons] at h
    cases ha : f a with
    | none => simp [ha] at h
    | some b =>
      cases hl : l.mapM f with
      | none => simp [ha, hl] at h
      | some rest =>
        simp only [ha, hl, Option.bind_eq_bind, Option.bind_some, Option.pure_def,
          Option.some.injEq] at h
        subst h
        exact List.Forall₂.cons ha (ih hl)

/-- A collection in which every member contributes. -/
theorem mapM_some {f : α → Option β} {g : α → β} {l : List α} (h : ∀ a ∈ l, f a = some (g a)) :
    l.mapM f = some (l.map g) := by
  induction l with
  | nil => rfl
  | cons a l ih =>
    have hrest := ih fun b hb => h b (List.mem_cons_of_mem a hb)
    simp [List.mapM_cons, h a List.mem_cons_self, hrest]

theorem mapM_of_forall₂ {f : α → Option β} {R : β → γ → Prop} {l : List α} {cs : List γ}
    (h : List.Forall₂ (fun a c => ∃ b, f a = some b ∧ R b c) l cs) :
    ∃ bs, l.mapM f = some bs ∧ List.Forall₂ R bs cs := by
  induction h with
  | nil => exact ⟨[], rfl, List.Forall₂.nil⟩
  | cons hac _ ih =>
    obtain ⟨b, hb, hr⟩ := hac
    obtain ⟨bs, hbs, hrs⟩ := ih
    exact ⟨b :: bs, by simp [List.mapM_cons, hb, hbs], List.Forall₂.cons hr hrs⟩

theorem exists_of_forall₂ {R : α → β → Prop} {l : List α} {bs : List β}
    (h : List.Forall₂ R l bs) {a : α} (ha : a ∈ l) : ∃ b ∈ bs, R a b := by
  induction h with
  | nil => cases ha
  | cons hab _ ih =>
    cases List.mem_cons.mp ha with
    | inl heq => exact ⟨_, List.mem_cons_self, heq ▸ hab⟩
    | inr hrest =>
      obtain ⟨b, hb, hr⟩ := ih hrest
      exact ⟨b, List.mem_cons_of_mem _ hb, hr⟩

end Collect
end Quorum
