import LuaDag.Layers

/-! Invariants over runs of one node. What L3 has signed and what it has adopted so
far are the history; a property of the two and of the core holds in every run once
the moves and adoptions keep it. -/
namespace LuaDag

def Action.isAdoption : Action → Bool
  | .persistMacroCheckpoint _ | .persistMacroQc _ | .broadcastMacroQc _ => true
  | .updateBlobStatus _ .finalized => true
  | _ => false

def adoptionsIn (acts : List Action) : List Action := acts.filter Action.isAdoption

@[simp] theorem adoptionsIn_append (as bs : List Action) :
    adoptionsIn (as ++ bs) = adoptionsIn as ++ adoptionsIn bs := by
  simp [adoptionsIn]

@[simp] theorem adoptionsIn_nil : adoptionsIn [] = [] := rfl

theorem adoptionsIn_eq_nil {acts : List Action} (h : ∀ a ∈ acts, a.isAdoption = false) :
    adoptionsIn acts = [] := by
  rw [adoptionsIn, List.filter_eq_nil_iff]
  intro a ha
  simp [h a ha]

theorem not_adoption_of_not_decision {a : Action} (h : a.isDecision = false) :
    a.isAdoption = false := by
  cases a with
  | updateBlobStatus b st => cases st <;> simp_all [Action.isDecision, Action.isAdoption]
  | _ => simp_all [Action.isDecision, Action.isAdoption]

theorem move_no_adoption {cr : Crypto} {call : NodeCall} {c d : MacroCore} {sg : List SignReq}
    {acts : List Action} (h : Move cr call c sg acts d) : ∀ a ∈ acts, a.isAdoption = false := by
  cases h with
  | plain acts hacts =>
    exact fun a ha => not_adoption_of_not_decision (macroTraffic_plain (hacts a ha)).1
  | arm id acts hacts =>
    exact fun a ha => not_adoption_of_not_decision (macroTraffic_plain (hacts a ha)).1
  | recordVote p old locks hev hacc hpre hparent hold hroot hhash hlock =>
    intro a ha
    cases List.mem_append.mp ha with
    | inl hl =>
      obtain ⟨ev, -, rfl⟩ := Option.map_eq_some_iff.mp (Option.mem_toList.mp hl)
      rfl
    | inr hr =>
      obtain ⟨ev, -, rfl⟩ := Option.map_eq_some_iff.mp (Option.mem_toList.mp hr)
      rfl
  | _ => simp [Action.isAdoption]

theorem path_no_adoption {cr : Crypto} {call : NodeCall} {c d : MacroCore} {sg : List SignReq}
    {acts : List Action} (h : Simulation.Moves (NodeMove cr call) c sg acts d) :
    adoptionsIn acts = [] := by
  apply adoptionsIn_eq_nil
  have hall := h.forall_of_move (R := fun _ => True) (A := fun a => a.isAdoption = false) ?_
  · exact hall.2
  intro c sg acts d hm
  cases hm with
  | own hmove => exact ⟨by simp, move_no_adoption hmove⟩
  | other hsg hacts => exact ⟨by simp, fun a ha => not_adoption_of_not_decision (hacts a ha)⟩

section Rule
variable (cr : Crypto) (P : List SignReq → List Action → MacroCore → Prop)

/-- The moves of this call, and the other layers' signatures, keep `P`. -/
structure KeptBy (call : NodeCall) : Prop where
  move : ∀ log as c sg acts d,
    (∀ r ∈ sg, r ∈ (StateMachine.exec cr call.input call.pre).signed) →
    Move cr call c sg acts d → P log as c → P (log ++ sg) as d
  other : ∀ log as c (sg : List SignReq), (∀ r ∈ sg, r.1.isMacro = false) → P log as c →
    P (log ++ sg) as c

variable {cr P}

theorem KeptBy.path {call : NodeCall} (hk : KeptBy cr P call) {c d : MacroCore}
    {sg : List SignReq} {acts : List Action}
    (h : Simulation.Moves (NodeMove cr call) c sg acts d)
    (hsg : ∀ r ∈ sg, r ∈ (StateMachine.exec cr call.input call.pre).signed) (log : List SignReq)
    (as : List Action) (hc : P log as c) : P (log ++ sg) as d := by
  refine h.invariant (P := fun sg _ e => P sg as e) ?_ hsg log [] hc
  intro sg acts c sg' acts' d hreq hm hp
  cases hm with
  | own hmove => exact hk.move _ _ _ _ _ _ hreq hmove hp
  | other hsg _ => exact hk.other _ _ _ _ hsg hp

/-- One call: either nothing is adopted, or `P` holds up to one adoption. -/
theorem KeptBy.call {call : NodeCall} (hk : KeptBy cr P call) (log : List SignReq)
    (as : List Action) (hc : P log as call.pre.macros.core) :
    (P (log ++ (StateMachine.exec cr call.input call.pre).signed) as
        (StateMachine.exec cr call.input call.pre).state.macros.core ∧
      adoptionsIn (StateMachine.exec cr call.input call.pre).actions = []) ∨
    ∃ d acts, P (log ++ (StateMachine.exec cr call.input call.pre).signed) as d ∧
      Adopt cr call d acts (StateMachine.exec cr call.input call.pre).state.macros.core ∧
      adoptionsIn (StateMachine.exec cr call.input call.pre).actions = adoptionsIn acts := by
  cases exec_handled cr call with
  | inl hs =>
    obtain ⟨acts, hpath, hacts⟩ := hs.actions
    have hno := path_no_adoption hpath
    refine Or.inl ⟨hk.path hpath (fun _ hr => hr) log as hc, ?_⟩
    apply adoptionsIn_eq_nil
    intro a ha
    rw [adoptionsIn, List.filter_eq_nil_iff] at hno
    simpa using hno a (hacts a ha)
  | inr ha =>
    obtain ⟨acts, d, acts', hpath, hadopt, hres⟩ := ha
    refine Or.inr ⟨d, acts', hk.path hpath (fun _ hr => hr) log as hc, hadopt, ?_⟩
    simp [Outcome.actions, hres, path_no_adoption hpath]

/-- The invariant rule for runs of one node whose calls are all `Good`. -/
theorem run_invariant (Good : NodeCall → Prop)
    (hkept : ∀ call, Good call → KeptBy cr P call)
    (hadopt : ∀ call, Good call → ∀ log as c acts d, P log as c → Adopt cr call c acts d →
      P log (as ++ adoptionsIn acts) d)
    (cfg : Config) (self : ValidatorId) (hinit : P [] [] (MacroBook.new self).core)
    (is : List StateMachine.Input) (hgood : ∀ call ∈ StateMachine.run cr cfg self is, Good call) :
    P (StateMachine.signLog cr cfg self is) (adoptionsIn (StateMachine.actions cr cfg self is))
      (StateMachine.reached cr cfg self is).macros.core := by
  refine Trace.invariant (StateMachine.exec cr) Good
    (fun hist sm => P (Trace.signed (StateMachine.exec cr) hist)
      (adoptionsIn (Trace.emitted (StateMachine.exec cr) hist)) sm.macros.core)
    (StateMachine.new cfg self) hinit ?_ is hgood
  intro hist sm i hp hg
  rw [Trace.signed_append, Trace.signed_singleton, Trace.emitted_append,
    Trace.emitted_singleton, adoptionsIn_append]
  cases (hkept ⟨sm, i⟩ hg).call _ _ hp with
  | inl h =>
    rw [Trace.outcome, h.2, List.append_nil]
    exact h.1
  | inr h =>
    obtain ⟨d, acts, hd, ha, has⟩ := h
    rw [Trace.outcome, has]
    exact hadopt ⟨sm, i⟩ hg _ _ _ _ _ hd ha

/-- The same invariant, in the state each call of the run is made in. -/
theorem run_invariant_at (Good : NodeCall → Prop)
    (hkept : ∀ call, Good call → KeptBy cr P call)
    (hadopt : ∀ call, Good call → ∀ log as c acts d, P log as c → Adopt cr call c acts d →
      P log (as ++ adoptionsIn acts) d)
    (cfg : Config) (self : ValidatorId) (hinit : P [] [] (MacroBook.new self).core)
    (is : List StateMachine.Input) (hgood : ∀ call ∈ StateMachine.run cr cfg self is, Good call)
    (call : NodeCall) (hcall : call ∈ StateMachine.run cr cfg self is) :
    ∃ log as, P log as call.pre.macros.core := by
  obtain ⟨js, ks, hjs, hpre⟩ := Trace.mem_calls _ hcall
  rw [hpre]
  refine ⟨_, _, run_invariant Good hkept hadopt cfg self hinit js ?_⟩
  intro c hc
  apply hgood
  rw [hjs, StateMachine.run, Trace.calls_append]
  exact List.mem_append_left _ hc

end Rule

/-- The invariant rule for L1: a property of what was signed and emitted so far, and
of the core, that survives forgetting emitted actions. -/
theorem vertex_invariant (cr : Crypto) (P : List SignReq → List Action → VertexCore → Prop)
    (hforget : ∀ log as as' c, (∀ a ∈ as', a ∈ as) → P log as c → P log as' c)
    (hmove : ∀ call log as c sg acts d, VertexMove call c sg acts d → P log as c →
      P (log ++ sg) (as ++ acts) d)
    (hother : ∀ log as c (sg : List SignReq) (acts : List Action), (∀ r ∈ sg, r.1.isMacro = true) →
      (∀ a ∈ acts, a.isVertexNews = false) → P log as c → P (log ++ sg) (as ++ acts) c)
    (cfg : Config) (self : ValidatorId) (hinit : P [] [] (VertexBook.new self).core)
    (is : List StateMachine.Input) :
    P (StateMachine.signLog cr cfg self is) (StateMachine.actions cr cfg self is)
      (StateMachine.reached cr cfg self is).vertices.core := by
  refine Trace.invariant (StateMachine.exec cr) (fun _ => True)
    (fun hist sm => P (Trace.signed (StateMachine.exec cr) hist)
      (Trace.emitted (StateMachine.exec cr) hist) sm.vertices.core)
    (StateMachine.new cfg self) hinit ?_ is (fun _ _ => trivial)
  intro hist sm i hp _
  obtain ⟨acts, hpath, hacts⟩ := (exec_vertices cr ⟨sm, i⟩).actions
  rw [Trace.signed_append, Trace.signed_singleton, Trace.emitted_append, Trace.emitted_singleton]
  refine hforget _ (Trace.emitted (StateMachine.exec cr) hist ++ acts) _ _ ?_ ?_
  · intro a ha
    cases List.mem_append.mp ha with
    | inl hl => exact List.mem_append_left _ hl
    | inr hr => exact List.mem_append_right _ (hacts a hr)
  · refine hpath.invariant (R := fun _ => True) ?_ (fun _ _ => trivial) _ _ hp
    intro log as c sg acts' d _ hm hc
    cases hm with
    | own hmv => exact hmove _ _ _ _ _ _ _ hmv hc
    | other hsg hnews => exact hother _ _ _ _ _ hsg hnews hc

end LuaDag
