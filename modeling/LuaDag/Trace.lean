import LuaDag.Outcome

/-! Runs of a handler over a list of inputs: the record of every call, the state
reached, and the invariant rule with history. General library. -/

structure Call (ι σ : Type) where
  pre : σ
  input : ι

namespace Trace
variable {ε ρ α σ ι : Type} (step : ι → σ → Outcome ε ρ α σ)

def calls : σ → List ι → List (Call ι σ)
  | _, [] => []
  | s, i :: is => ⟨s, i⟩ :: calls (step i s).state is

def final : σ → List ι → σ
  | s, [] => s
  | s, i :: is => final (step i s).state is

def outcome (c : Call ι σ) : Outcome ε ρ α σ := step c.input c.pre

def emitted (cs : List (Call ι σ)) : List α := cs.flatMap fun c => (outcome step c).actions

def signed (cs : List (Call ι σ)) : List ρ := cs.flatMap fun c => (outcome step c).signed

@[simp] theorem emitted_nil : emitted step [] = [] := rfl
@[simp] theorem signed_nil : signed step [] = [] := rfl

@[simp] theorem emitted_append (cs ds : List (Call ι σ)) :
    emitted step (cs ++ ds) = emitted step cs ++ emitted step ds := by
  simp [emitted]

@[simp] theorem signed_append (cs ds : List (Call ι σ)) :
    signed step (cs ++ ds) = signed step cs ++ signed step ds := by
  simp [signed]

@[simp] theorem emitted_singleton (c : Call ι σ) :
    emitted step [c] = (outcome step c).actions := by
  simp [emitted]

@[simp] theorem signed_singleton (c : Call ι σ) :
    signed step [c] = (outcome step c).signed := by
  simp [signed]

theorem calls_append (s : σ) (is js : List ι) :
    calls step s (is ++ js) = calls step s is ++ calls step (final step s is) js := by
  induction is generalizing s with
  | nil => rfl
  | cons i is ih => simp [calls, final, ih]

theorem map_input (s : σ) (is : List ι) : (calls step s is).map (·.input) = is := by
  induction is generalizing s with
  | nil => rfl
  | cons i is ih => simp [calls, ih]

theorem getElem_calls (s : σ) (is : List ι) (n : Nat) :
    (calls step s is)[n]? = is[n]?.map fun i => ⟨final step s (is.take n), i⟩ := by
  induction is generalizing s n with
  | nil => rfl
  | cons i is ih =>
    cases n with
    | zero => rfl
    | succ n =>
      rw [calls, List.getElem?_cons_succ, List.getElem?_cons_succ, ih]
      rfl

theorem final_append (s : σ) (is js : List ι) :
    final step s (is ++ js) = final step (final step s is) js := by
  induction is generalizing s with
  | nil => rfl
  | cons i is ih => exact ih _

/-- A call of a run is made in the state its prefix reaches. -/
theorem mem_calls {s : σ} {is : List ι} {c : Call ι σ} (h : c ∈ calls step s is) :
    ∃ js ks, is = js ++ c.input :: ks ∧ c.pre = final step s js := by
  induction is generalizing s with
  | nil => cases h
  | cons i is ih =>
    cases List.mem_cons.mp h with
    | inl heq => exact ⟨[], is, by simp [heq], by simp [heq, final]⟩
    | inr hrest =>
      obtain ⟨js, ks, hjs, hpre⟩ := ih hrest
      exact ⟨i :: js, ks, by simp [hjs], hpre⟩

/-- What comes before a call of a run is a run to the state it is made in. -/
theorem calls_split {s : σ} {is : List ι} {past rest : List (Call ι σ)} {c : Call ι σ}
    (h : calls step s is = past ++ c :: rest) :
    ∃ js, calls step s js = past ∧ final step s js = c.pre := by
  induction past generalizing s is with
  | nil =>
    cases is with
    | nil => cases h
    | cons i is =>
      obtain ⟨rfl, -⟩ := List.cons_eq_cons.mp h
      exact ⟨[], rfl, rfl⟩
  | cons d past ih =>
    cases is with
    | nil => cases h
    | cons i is =>
      obtain ⟨rfl, htail⟩ := List.cons_eq_cons.mp h
      obtain ⟨js, hcalls, hfinal⟩ := ih htail
      exact ⟨i :: js, by rw [calls, hcalls], hfinal⟩

/-- An invariant over history and state, kept by every admissible call, holds at the
end of every run of admissible calls. -/
theorem invariant (Good : Call ι σ → Prop) (Inv : List (Call ι σ) → σ → Prop) (s : σ)
    (hinit : Inv [] s)
    (hstep : ∀ hist s i, Inv hist s → Good ⟨s, i⟩ → Inv (hist ++ [⟨s, i⟩]) (step i s).state)
    (is : List ι) (hgood : ∀ c ∈ calls step s is, Good c) :
    Inv (calls step s is) (final step s is) := by
  have hrun : ∀ (is : List ι) (hist : List (Call ι σ)) (s : σ), Inv hist s →
      (∀ c ∈ calls step s is, Good c) → Inv (hist ++ calls step s is) (final step s is) := by
    intro is
    induction is with
    | nil =>
      intro hist s hinv _
      simpa [calls, final] using hinv
    | cons i is ih =>
      intro hist s hinv hgood
      have hnext := hstep hist s i hinv (hgood _ (by simp [calls]))
      have hrest := ih (hist ++ [⟨s, i⟩]) (step i s).state hnext
        (fun c hc => hgood c (by simp [calls, hc]))
      simpa [calls, final] using hrest
  simpa using hrun is [] s hinit hgood

end Trace
