import Mathlib.Data.List.Basic

/-! Handlers over a mutable state that may fail half way: what they wrote before
the failure stays written, what they wanted to emit is lost. General library over
an arbitrary error, request, action and state type. -/

/-- Result of one handler call: the state it left, the requests it made to the
signer on the way, and either its actions or the error it stopped with. -/
structure Outcome (ε ρ α σ : Type) where
  state : σ
  signed : List ρ
  result : Except ε (List α)

namespace Outcome
variable {ε ρ α σ τ : Type}

def ok (s : σ) (acts : List α) : Outcome ε ρ α σ := ⟨s, [], .ok acts⟩
def quiet (s : σ) : Outcome ε ρ α σ := ok s []
def fail (s : σ) (e : ε) : Outcome ε ρ α σ := ⟨s, [], .error e⟩

def actions (o : Outcome ε ρ α σ) : List α :=
  match o.result with
  | .ok acts => acts
  | .error _ => []

def bind (o : Outcome ε ρ α σ) (k : List α → σ → Outcome ε ρ α σ) : Outcome ε ρ α σ :=
  match o.result with
  | .error _ => o
  | .ok acts =>
    let o' := k acts o.state
    ⟨o'.state, o.signed ++ o'.signed, o'.result.map (acts ++ ·)⟩

def andThen (o : Outcome ε ρ α σ) (k : σ → Outcome ε ρ α σ) : Outcome ε ρ α σ :=
  o.bind fun _ => k

def lift (f : σ → τ) (o : Outcome ε ρ α σ) : Outcome ε ρ α τ :=
  ⟨f o.state, o.signed, o.result⟩

theorem exists_of_isOk {r : Except ε α} (h : r.isOk = true) : ∃ a, r = .ok a := by
  cases r with
  | error e => cases h
  | ok a => exact ⟨a, rfl⟩

@[simp] theorem ok_state (s : σ) (acts : List α) : (ok s acts : Outcome ε ρ α σ).state = s := rfl
@[simp] theorem ok_signed (s : σ) (acts : List α) : (ok s acts : Outcome ε ρ α σ).signed = [] := rfl
@[simp] theorem ok_result (s : σ) (acts : List α) :
    (ok s acts : Outcome ε ρ α σ).result = .ok acts := rfl
@[simp] theorem ok_actions (s : σ) (acts : List α) :
    (ok s acts : Outcome ε ρ α σ).actions = acts := rfl
@[simp] theorem quiet_state (s : σ) : (quiet s : Outcome ε ρ α σ).state = s := rfl
@[simp] theorem quiet_signed (s : σ) : (quiet s : Outcome ε ρ α σ).signed = [] := rfl
@[simp] theorem quiet_result (s : σ) : (quiet s : Outcome ε ρ α σ).result = .ok [] := rfl
@[simp] theorem quiet_actions (s : σ) : (quiet s : Outcome ε ρ α σ).actions = [] := rfl
@[simp] theorem fail_state (s : σ) (e : ε) : (fail s e : Outcome ε ρ α σ).state = s := rfl
@[simp] theorem fail_signed (s : σ) (e : ε) : (fail s e : Outcome ε ρ α σ).signed = [] := rfl
@[simp] theorem fail_result (s : σ) (e : ε) :
    (fail s e : Outcome ε ρ α σ).result = .error e := rfl
@[simp] theorem fail_actions (s : σ) (e : ε) : (fail s e : Outcome ε ρ α σ).actions = [] := rfl
@[simp] theorem lift_state (f : σ → τ) (o : Outcome ε ρ α σ) :
    (o.lift f).state = f o.state := rfl
@[simp] theorem lift_signed (f : σ → τ) (o : Outcome ε ρ α σ) :
    (o.lift f).signed = o.signed := rfl
@[simp] theorem lift_actions (f : σ → τ) (o : Outcome ε ρ α σ) :
    (o.lift f).actions = o.actions := rfl

theorem bind_of_error {o : Outcome ε ρ α σ} {e : ε} (h : o.result = .error e)
    (k : List α → σ → Outcome ε ρ α σ) : o.bind k = o := by
  simp [bind, h]

theorem bind_of_ok {o : Outcome ε ρ α σ} {acts : List α} (h : o.result = .ok acts)
    (k : List α → σ → Outcome ε ρ α σ) :
    o.bind k = ⟨(k acts o.state).state, o.signed ++ (k acts o.state).signed,
      (k acts o.state).result.map (acts ++ ·)⟩ := by
  simp [bind, h]

theorem andThen_of_error {o : Outcome ε ρ α σ} {e : ε} (h : o.result = .error e)
    (k : σ → Outcome ε ρ α σ) : o.andThen k = o :=
  bind_of_error h _

theorem andThen_of_ok {o : Outcome ε ρ α σ} {acts : List α} (h : o.result = .ok acts)
    (k : σ → Outcome ε ρ α σ) :
    o.andThen k = ⟨(k o.state).state, o.signed ++ (k o.state).signed,
      (k o.state).result.map (acts ++ ·)⟩ :=
  bind_of_ok h _

theorem andThen_of_quiet {o : Outcome ε ρ α σ} {k : σ → Outcome ε ρ α σ}
    (h : k o.state = .quiet o.state) : o.andThen k = o := by
  cases hr : o.result with
  | error e => exact andThen_of_error hr k
  | ok acts =>
    rw [andThen_of_ok hr, h, quiet_signed, quiet_result, List.append_nil]
    simp [Except.map, ← hr]

theorem quiet_andThen (s : σ) (k : σ → Outcome ε ρ α σ) : (quiet s).andThen k = k s := by
  rw [andThen_of_ok (quiet_result s), quiet_state]
  obtain ⟨d, sg, res⟩ := k s
  cases res <;> rfl

theorem andThen_assoc (o : Outcome ε ρ α σ) (k l : σ → Outcome ε ρ α σ) :
    (o.andThen k).andThen l = o.andThen fun s => (k s).andThen l := by
  cases hr : o.result with
  | error e => rw [andThen_of_error hr, andThen_of_error hr, andThen_of_error hr]
  | ok acts =>
    rw [andThen_of_ok hr, andThen_of_ok hr]
    cases hk : (k o.state).result with
    | error e =>
      rw [andThen_of_error hk, @andThen_of_error _ _ _ _ _ e rfl, hk]
    | ok acts' =>
      rw [andThen_of_ok hk, @andThen_of_ok _ _ _ _ _ (acts ++ acts') rfl]
      cases (l (k o.state).state).result <;> simp [Except.map]

theorem andThen_congr {o : Outcome ε ρ α σ} {k l : σ → Outcome ε ρ α σ}
    (h : k o.state = l o.state) : o.andThen k = o.andThen l := by
  cases hr : o.result with
  | error e => rw [andThen_of_error hr, andThen_of_error hr]
  | ok acts => rw [andThen_of_ok hr, andThen_of_ok hr, h]

theorem andThen_error_iff {o : Outcome ε ρ α σ} {k : σ → Outcome ε ρ α σ} {e : ε} :
    (o.andThen k).result = .error e ↔
      o.result = .error e ∨ ∃ acts, o.result = .ok acts ∧ (k o.state).result = .error e := by
  cases hr : o.result with
  | error e' => simp [andThen_of_error hr, hr]
  | ok acts =>
    rw [andThen_of_ok hr]
    cases hk : (k o.state).result <;> simp [Except.map]

theorem andThen_ok_iff {o : Outcome ε ρ α σ} {k : σ → Outcome ε ρ α σ} :
    (∃ as, (o.andThen k).result = .ok as) ↔
      (∃ as, o.result = .ok as) ∧ ∃ as, (k o.state).result = .ok as := by
  cases hr : o.result with
  | error e => simp [andThen_of_error hr, hr]
  | ok acts =>
    rw [andThen_of_ok hr]
    cases hk : (k o.state).result <;> simp [Except.map]

/-- The state and all actions that reach the host are as wanted. -/
structure Sound (P : σ → Prop) (A : α → Prop) (o : Outcome ε ρ α σ) : Prop where
  state : P o.state
  actions : ∀ a ∈ o.actions, A a

section Sound
variable {P : σ → Prop} {A : α → Prop}

theorem Sound.ok {s : σ} {acts : List α} (h : P s) (hacts : ∀ a ∈ acts, A a) :
    Sound P A (ok s acts : Outcome ε ρ α σ) :=
  ⟨h, hacts⟩

theorem Sound.quiet {s : σ} (h : P s) : Sound P A (quiet s : Outcome ε ρ α σ) :=
  ⟨h, by simp⟩

theorem Sound.fail {s : σ} (e : ε) (h : P s) : Sound P A (fail s e : Outcome ε ρ α σ) :=
  ⟨h, by simp⟩

theorem Sound.bind {o : Outcome ε ρ α σ} {k : List α → σ → Outcome ε ρ α σ} (h : Sound P A o)
    (hk : ∀ acts, o.result = .ok acts → P o.state → Sound P A (k acts o.state)) :
    Sound P A (o.bind k) := by
  cases hr : o.result with
  | error e => rwa [bind_of_error hr]
  | ok acts =>
    have hnext := hk acts hr h.state
    rw [bind_of_ok hr]
    refine ⟨hnext.state, ?_⟩
    intro a ha
    cases hr' : (k acts o.state).result with
    | error e => simp [Outcome.actions, hr', Except.map] at ha
    | ok acts' =>
      simp only [Outcome.actions, hr', Except.map] at ha
      cases List.mem_append.mp ha with
      | inl hl => exact h.actions a (by simpa [Outcome.actions, hr] using hl)
      | inr hnew => exact hnext.actions a (by simpa [Outcome.actions, hr'] using hnew)

theorem Sound.andThen {o : Outcome ε ρ α σ} {k : σ → Outcome ε ρ α σ} (h : Sound P A o)
    (hk : P o.state → Sound P A (k o.state)) : Sound P A (o.andThen k) :=
  h.bind fun _ _ hs => hk hs

end Sound

end Outcome
