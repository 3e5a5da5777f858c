import LuaDag.Outcome

/-! Handlers shadowed by the run of another machine: what they do is accounted for by the inputs
that machine has been given so far, and each step only adds inputs to them. General library over
arbitrary handlers, inputs and relations. -/
namespace Shadow
variable {ε ρ α σ ι : Type} {R : List ι → σ → Prop} {G H : List ι → σ → Prop} {is : List ι}

/-- More inputs account for the state that is left, in any case by `R`, and by `G` as well if the
handler has not failed. -/
def Leads (R G : List ι → σ → Prop) (is : List ι) (o : Outcome ε ρ α σ) : Prop :=
  ∃ js, R (is ++ js) o.state ∧ ((∃ as, o.result = .ok as) → G (is ++ js) o.state)

theorem Leads.stay {o : Outcome ε ρ α σ} (hR : R is o.state) (hG : G is o.state) :
    Leads R G is o :=
  ⟨[], by simpa using hR, fun _ => by simpa using hG⟩

theorem Leads.fail {s : σ} (hR : R is s) (e : ε) :
    Leads R G is (.fail s e : Outcome ε ρ α σ) :=
  ⟨[], by simpa using hR, by simp⟩

theorem Leads.after (js : List ι) {o : Outcome ε ρ α σ} (h : Leads R G (is ++ js) o) :
    Leads R G is o := by
  obtain ⟨ks, hR, hG⟩ := h
  exact ⟨js ++ ks, by simpa using hR, by simpa using hG⟩

theorem Leads.mono {o : Outcome ε ρ α σ} (h : Leads R G is o)
    (himp : ∀ js, R (is ++ js) o.state → G (is ++ js) o.state → H (is ++ js) o.state) :
    Leads R H is o := by
  obtain ⟨js, hR, hG⟩ := h
  exact ⟨js, hR, fun hok => himp js hR (hG hok)⟩

/-- The second handler starts where the first has led; a failure stops both. -/
theorem Leads.andThen {o : Outcome ε ρ α σ} {k : σ → Outcome ε ρ α σ} (h : Leads R G is o)
    (hk : ∀ js, R (is ++ js) o.state → G (is ++ js) o.state → Leads R H (is ++ js) (k o.state)) :
    Leads R H is (o.andThen k) := by
  obtain ⟨js, hR, hG⟩ := h
  cases hr : o.result with
  | error e =>
    rw [Outcome.andThen_of_error hr]
    exact ⟨js, hR, by simp [hr]⟩
  | ok as =>
    obtain ⟨ks, hR', hG'⟩ := hk js hR (hG ⟨as, hr⟩)
    rw [Outcome.andThen_of_ok hr]
    refine ⟨js ++ ks, by simpa using hR', ?_⟩
    rintro ⟨bs, hbs⟩
    have hok : ∃ cs, (k o.state).result = .ok cs := by
      cases hcs : (k o.state).result with
      | error e => simp [hcs, Except.map] at hbs
      | ok cs => exact ⟨cs, rfl⟩
    simpa using hG' hok

end Shadow
