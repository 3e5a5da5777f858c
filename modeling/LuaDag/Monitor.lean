import LuaDag.Outcome

/-! A monitor that follows the requests of fallible handlers: what it is to accept them all as long
as each is admissible in the state the monitor has come to, and the rules for handlers in
sequence. General library over an arbitrary monitor. -/
namespace Monitor
variable {ε ρ α σ κ : Type} (serve : κ → ρ → Option κ) (Fair : κ → ρ → Prop)

def serveAll : κ → List ρ → Option κ
  | k, [] => some k
  | k, r :: rs =>
    match serve k r with
    | none => none
    | some k => serveAll k rs

def FairAll : κ → List ρ → Prop
  | _, [] => True
  | k, r :: rs => Fair k r ∧ ∀ k', serve k r = some k' → FairAll k' rs

instance decidableFairAll [∀ k r, Decidable (Fair k r)] :
    ∀ (k : κ) (rs : List ρ), Decidable (FairAll serve Fair k rs)
  | _, [] => .isTrue trivial
  | k, r :: rs =>
    match hk : serve k r with
    | none => decidable_of_iff (Fair k r) (by simp [FairAll, hk])
    | some k' =>
      have := decidableFairAll k' rs
      decidable_of_iff (Fair k r ∧ FairAll serve Fair k' rs) (by simp [FairAll, hk])

theorem serveAll_append (k : κ) (rs ss : List ρ) :
    serveAll serve k (rs ++ ss) = (serveAll serve k rs).bind fun k' => serveAll serve k' ss := by
  induction rs generalizing k with
  | nil => rfl
  | cons r rs ih =>
    rw [List.cons_append, serveAll, serveAll]
    cases serve k r with
    | none => rfl
    | some k' => exact ih k'

theorem fairAll_append {k : κ} {rs ss : List ρ} (h : FairAll serve Fair k (rs ++ ss)) :
    FairAll serve Fair k rs ∧
      ∀ k', serveAll serve k rs = some k' → FairAll serve Fair k' ss := by
  induction rs generalizing k with
  | nil =>
    refine ⟨trivial, ?_⟩
    intro k' hk
    cases hk
    exact h
  | cons r rs ih =>
    obtain ⟨hr, hrest⟩ := h
    refine ⟨⟨hr, fun k' hk => (ih (hrest k' hk)).1⟩, ?_⟩
    intro k' hk
    rw [serveAll] at hk
    cases hs : serve k r with
    | none => simp [hs] at hk
    | some k₁ =>
      rw [hs] at hk
      exact (ih (hrest k₁ hs)).2 k' hk

/-- From monitor state `k`, the requests are accepted as long as they are admissible, and `Post`
holds where the handler returns. -/
def Accepted (k : κ) (o : Outcome ε ρ α σ) (Post : σ → κ → Prop) : Prop :=
  FairAll serve Fair k o.signed → ∃ k', serveAll serve k o.signed = some k' ∧
    ∀ as, o.result = .ok as → Post o.state k'

variable {serve Fair} {k : κ} {o : Outcome ε ρ α σ} {Post Post' : σ → κ → Prop}

theorem Accepted.quiet {s : σ} (h : Post s k) :
    Accepted serve Fair k (.quiet s : Outcome ε ρ α σ) Post :=
  fun _ => ⟨k, rfl, fun _ _ => h⟩

theorem Accepted.fail (s : σ) (e : ε) :
    Accepted serve Fair k (.fail s e : Outcome ε ρ α σ) Post :=
  fun _ => ⟨k, rfl, fun _ has => by cases has⟩

theorem Accepted.request {s : σ} {r : ρ} {as : List α}
    (h : Fair k r → ∃ k', serve k r = some k' ∧ Post s k') :
    Accepted serve Fair k (⟨s, [r], .ok as⟩ : Outcome ε ρ α σ) Post := by
  intro hfair
  obtain ⟨k', hserve, hpost⟩ := h hfair.1
  refine ⟨k', ?_, fun _ _ => hpost⟩
  simp [serveAll, hserve]

theorem Accepted.andThen (h : Accepted serve Fair k o Post) {f : σ → Outcome ε ρ α σ}
    (hf : ∀ k', Post o.state k' → Accepted serve Fair k' (f o.state) Post') :
    Accepted serve Fair k (o.andThen f) Post' := by
  cases hr : o.result with
  | error e =>
    rw [Outcome.andThen_of_error hr]
    intro hfair
    obtain ⟨k', hserve, -⟩ := h hfair
    refine ⟨k', hserve, ?_⟩
    intro as has
    rw [hr] at has
    cases has
  | ok as =>
    rw [Outcome.andThen_of_ok hr]
    intro hfair
    obtain ⟨hfirst, hrest⟩ := fairAll_append serve Fair hfair
    obtain ⟨k', hserve, hpost⟩ := h hfirst
    obtain ⟨k'', hserve', hpost'⟩ := hf k' (hpost as hr) (hrest k' hserve)
    refine ⟨k'', ?_, ?_⟩
    · rw [serveAll_append, hserve]
      exact hserve'
    · intro bs hbs
      cases hres : (f o.state).result with
      | error e => simp [hres, Except.map] at hbs
      | ok cs => exact hpost' cs hres

end Monitor
