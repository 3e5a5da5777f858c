import LuaDag.Outcome

/-! Simulation of fallible handlers by an abstract move relation. A move maps a view
of the state to another one and carries the requests and actions it makes. General
library over an arbitrary move relation and view. -/
namespace Simulation
variable {ε ρ α σ κ : Type} (Move : κ → List ρ → List α → κ → Prop) (view : σ → κ)

inductive Moves : κ → List ρ → List α → κ → Prop
  | refl (c : κ) : Moves c [] [] c
  | step {c d e : κ} {sg sg' : List ρ} {acts acts' : List α}
      (hpath : Moves c sg acts d) (hmove : Move d sg' acts' e) :
      Moves c (sg ++ sg') (acts ++ acts') e

def Steady (c : κ) (o : Outcome ε ρ α σ) : Prop :=
  ∃ acts, Moves Move c o.signed acts (view o.state) ∧ ∀ as, o.result = .ok as → as = acts

variable {Move view}

theorem Moves.single {c d : κ} {sg : List ρ} {acts : List α} (h : Move c sg acts d) :
    Moves Move c sg acts d := by
  simpa using Moves.step (Moves.refl c) h

theorem Moves.trans {c d e : κ} {sg sg' : List ρ} {acts acts' : List α}
    (h : Moves Move c sg acts d) (h' : Moves Move d sg' acts' e) :
    Moves Move c (sg ++ sg') (acts ++ acts') e := by
  induction h' with
  | refl => simpa using h
  | step _ hmove ih =>
    rw [← List.append_assoc, ← List.append_assoc]
    exact Moves.step ih hmove

/-- A property of the view, the requests and the actions so far that every move
keeps is kept by a sequence, if all its requests satisfy what the moves rely on. -/
theorem Moves.invariant {P : List ρ → List α → κ → Prop} {R : ρ → Prop}
    (hmove : ∀ sg acts c sg' acts' d, (∀ r ∈ sg', R r) → Move c sg' acts' d → P sg acts c →
      P (sg ++ sg') (acts ++ acts') d)
    {c d : κ} {sg' : List ρ} {acts' : List α} (h : Moves Move c sg' acts' d)
    (hreq : ∀ r ∈ sg', R r) (sg : List ρ) (acts : List α) (hc : P sg acts c) :
    P (sg ++ sg') (acts ++ acts') d := by
  induction h with
  | refl => simpa using hc
  | step _ hm ih =>
    have hnext := hmove _ _ _ _ _ _ (fun r hr => hreq r (List.mem_append_right _ hr)) hm
      (ih fun r hr => hreq r (List.mem_append_left _ hr))
    simpa using hnext

/-- A property of the view that every move keeps is kept by a sequence of them. -/
theorem Moves.keeps {P : κ → Prop} (hmove : ∀ c sg acts d, Move c sg acts d → P c → P d)
    {c d : κ} {sg : List ρ} {acts : List α} (h : Moves Move c sg acts d) (hc : P c) : P d := by
  induction h with
  | refl => exact hc
  | step _ hm ih => exact hmove _ _ _ _ hm ih

/-- A sequence of moves that returns their actions. -/
theorem Steady.path {c : κ} {s : σ} {sg : List ρ} {acts : List α}
    (h : Moves Move c sg acts (view s)) :
    Steady Move view c (⟨s, sg, .ok acts⟩ : Outcome ε ρ α σ) := by
  refine ⟨acts, h, ?_⟩
  intro as has
  cases has
  rfl

theorem Steady.move {c : κ} {s : σ} {sg : List ρ} {acts : List α}
    (h : Move c sg acts (view s)) :
    Steady Move view c (⟨s, sg, .ok acts⟩ : Outcome ε ρ α σ) :=
  Steady.path (Moves.single h)

theorem Steady.single {c : κ} {o : Outcome ε ρ α σ} (h : Move c o.signed o.actions (view o.state)) :
    Steady Move view c o := by
  refine ⟨o.actions, Moves.single h, ?_⟩
  intro as has
  simp [Outcome.actions, has]

theorem Steady.quiet (s : σ) : Steady Move view (view s) (.quiet s : Outcome ε ρ α σ) := by
  refine ⟨[], Moves.refl _, ?_⟩
  intro as has
  cases has
  rfl

theorem Steady.fail (s : σ) (e : ε) :
    Steady Move view (view s) (.fail s e : Outcome ε ρ α σ) := by
  refine ⟨[], Moves.refl _, ?_⟩
  intro as has
  cases has

theorem Steady.prepend {c d : κ} {o : Outcome ε ρ α σ} (h : Moves Move c [] [] d)
    (ho : Steady Move view d o) : Steady Move view c o := by
  obtain ⟨acts, hpath, hres⟩ := ho
  exact ⟨acts, by simpa using h.trans hpath, hres⟩

theorem Steady.bind {c : κ} {o : Outcome ε ρ α σ} {k : List α → σ → Outcome ε ρ α σ}
    (h : Steady Move view c o)
    (hk : ∀ acts, o.result = .ok acts → Steady Move view (view o.state) (k acts o.state)) :
    Steady Move view c (o.bind k) := by
  cases hr : o.result with
  | error e => rwa [Outcome.bind_of_error hr]
  | ok acts =>
    rw [Outcome.bind_of_ok hr]
    obtain ⟨as, hpath, hres⟩ := h
    obtain ⟨bs, hpath', hres'⟩ := hk acts hr
    refine ⟨as ++ bs, hpath.trans hpath', ?_⟩
    intro cs hcs
    cases hkr : (k acts o.state).result with
    | error e => simp [hkr, Except.map] at hcs
    | ok ds =>
      simp only [hkr, Except.map, Except.ok.injEq] at hcs
      rw [← hcs, hres acts hr, hres' ds hkr]

theorem Steady.andThen {c : κ} {o : Outcome ε ρ α σ} {k : σ → Outcome ε ρ α σ}
    (h : Steady Move view c o)
    (hk : ∀ acts, o.result = .ok acts → Steady Move view (view o.state) (k o.state)) :
    Steady Move view c (o.andThen k) :=
  h.bind hk

theorem Steady.actions {c : κ} {o : Outcome ε ρ α σ} (h : Steady Move view c o) :
    ∃ acts, Moves Move c o.signed acts (view o.state) ∧ ∀ a ∈ o.actions, a ∈ acts := by
  obtain ⟨acts, hpath, hres⟩ := h
  refine ⟨acts, hpath, ?_⟩
  cases hr : o.result with
  | error e => simp [Outcome.actions, hr]
  | ok as =>
    simp only [Outcome.actions, hr]
    exact fun a ha => hres as hr ▸ ha

/-- What every move guarantees of its requests and actions, a sequence guarantees. -/
theorem Moves.forall_of_move {R : ρ → Prop} {A : α → Prop}
    (hmove : ∀ c sg acts d, Move c sg acts d → (∀ r ∈ sg, R r) ∧ ∀ a ∈ acts, A a)
    {c d : κ} {sg : List ρ} {acts : List α} (h : Moves Move c sg acts d) :
    (∀ r ∈ sg, R r) ∧ ∀ a ∈ acts, A a := by
  induction h with
  | refl => simp
  | step _ hm ih =>
    have hlast := hmove _ _ _ _ hm
    refine ⟨?_, ?_⟩
    · intro r hr
      exact (List.mem_append.mp hr).elim (ih.1 r) (hlast.1 r)
    · intro a ha
      exact (List.mem_append.mp ha).elim (ih.2 a) (hlast.2 a)

/-- A component's moves seen from the whole: the other components may make
requests and actions of their own kinds meanwhile. -/
inductive Within (Move : κ → List ρ → List α → κ → Prop) (R : ρ → Prop) (A : α → Prop) :
    κ → List ρ → List α → κ → Prop
  | own {c d : κ} {sg : List ρ} {acts : List α} (h : Move c sg acts d) :
      Within Move R A c sg acts d
  | other (c : κ) {sg : List ρ} {acts : List α} (hsg : ∀ r ∈ sg, R r) (hacts : ∀ a ∈ acts, A a) :
      Within Move R A c sg acts c

theorem Moves.within {R : ρ → Prop} {A : α → Prop} {c d : κ} {sg : List ρ} {acts : List α}
    (h : Moves Move c sg acts d) : Moves (Within Move R A) c sg acts d := by
  induction h with
  | refl => exact Moves.refl _
  | step _ hm ih => exact Moves.step ih (Within.own hm)

section Components
variable {τ : Type} {R : ρ → Prop} {A : α → Prop} {whole : τ → κ}

/-- The component's own handler, lifted to the whole. -/
theorem Steady.lift {c : κ} {o : Outcome ε ρ α σ} {f : σ → τ} (h : Steady Move view c o)
    (hf : ∀ s, whole (f s) = view s) : Steady (Within Move R A) whole c (o.lift f) := by
  obtain ⟨acts, hpath, hres⟩ := h
  refine ⟨acts, ?_, hres⟩
  rw [Outcome.lift_state, hf]
  exact hpath.within

/-- A handler that leaves the component alone and keeps to its own kinds. -/
theorem Steady.other {c : κ} {o : Outcome ε ρ α τ} (hc : whole o.state = c)
    (hsg : ∀ r ∈ o.signed, R r) (hacts : ∀ a ∈ o.actions, A a) :
    Steady (Within Move R A) whole c o := by
  apply Steady.single
  rw [hc]
  exact Within.other c hsg hacts

end Components
end Simulation
