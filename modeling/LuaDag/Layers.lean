import LuaDag.NodeRefine

/-! A call runs at most one handler of each layer, on that layer's own book. What these
handlers do to some view of the node, the call does. -/
namespace LuaDag
open Simulation (Steady.quiet Steady.andThen Steady.bind)

inductive VertexHandler (cr : Crypto) (call : NodeCall) :
    (VertexBook → Result VertexBook) → Prop
  | genesis (h : call.input.1 = .genesis) :
      VertexHandler cr call (VertexCert.genesisPropose cr call.pre.cfg call.ctx)
  | certified (cv : CertifiedVertex) (h : call.event = some (.certifiedVertexReceived cv)) :
      VertexHandler cr call (VertexCert.onCertifiedVertex cr call.pre.cfg call.ctx cv)
  | proposal (p : VertexProposal) (h : call.event = some (.vertexProposalReceived p)) :
      VertexHandler cr call (VertexCert.onVertexProposal cr p call.ctx)
  | vote (bp : VertexPartial) (h : call.event = some (.vertexPartialReceived bp)) :
      VertexHandler cr call (VertexCert.onVertexPartial cr call.pre.cfg call.ctx bp)
  | timer (id : TimerId) (h : call.event = some (.timerFired id)) :
      VertexHandler cr call (VertexCert.onTimerFired call.pre.cfg call.ctx id)

inductive WaveHandler (cr : Crypto) (call : NodeCall) :
    (Bullshark.WaveBook → Result Bullshark.WaveBook) → Prop
  | certified (cv : CertifiedVertex) (h : call.event = some (.certifiedVertexReceived cv)) :
      WaveHandler cr call (Bullshark.onCertifiedVertex cr call.pre.cfg cv call.ctx)
  | microQc (qc : MicroQc) (h : call.event = some (.microQcAssembled qc)) :
      WaveHandler cr call (Bullshark.onMicroQcAssembled qc)
  | timer (id : TimerId) (h : call.event = some (.timerFired id)) :
      WaveHandler cr call (Bullshark.onTimerFired cr call.pre.cfg id call.ctx)

inductive MacroHandler (cr : Crypto) (call : NodeCall) :
    (MacroBook → Result MacroBook) → Prop
  | micro (cv : CertifiedVertex) (acts : List Action)
      (h : call.event = some (.certifiedVertexReceived cv))
      (hacts : (lowerLayers cr call cv).result = .ok acts) :
      MacroHandler cr call (MacroFin.onLocalMicroQcs cr call.pre.cfg call.ctx acts)
  | proposal (p : MacroProposal) (h : call.event = some (.macroProposalReceived p)) :
      MacroHandler cr call (MacroFin.onMacroProposal cr call.pre.cfg call.ctx p)
  | vote (bp : BlsPartial) (h : call.event = some (.blsPartialReceived bp)) :
      MacroHandler cr call (MacroFin.onBlsPartial cr call.pre.cfg call.ctx bp)
  | aggregate (a : SubnetAggregate) (h : call.event = some (.subnetAggregateReceived a)) :
      MacroHandler cr call (MacroFin.onSubnetAggregate cr call.pre.cfg call.ctx a)
  | qc (qc : MacroQc) (h : call.event = some (.macroQcReceived qc)) :
      MacroHandler cr call (MacroFin.onMacroQcReceived cr call.pre.cfg call.ctx qc)
  | timer (id : TimerId) (h : call.event = some (.timerFired id)) :
      MacroHandler cr call (MacroFin.onTimerFired cr call.pre.cfg call.ctx id)

section Rule
variable {κ : Type} {M : κ → List SignReq → List Action → κ → Prop}
  {view : StateMachine → κ} (cr : Crypto) (call : NodeCall)

/-- What each layer's handler does when it is run in the middle of the call. -/
structure LayersSteady (M : κ → List SignReq → List Action → κ → Prop)
    (view : StateMachine → κ) : Prop where
  vertices : ∀ sm f, sm.vertices = call.pre.vertices → VertexHandler cr call f →
    Simulation.Steady M view (view sm) (sm.onVertices f)
  waves : ∀ sm f, sm.waves = call.pre.waves → WaveHandler cr call f →
    Simulation.Steady M view (view sm) (sm.onWaves f)
  macros : ∀ sm f, sm.macros = call.pre.macros → MacroHandler cr call f →
    Simulation.Steady M view (view sm) (sm.onMacros f)

variable {cr call}

theorem LayersSteady.lower (h : LayersSteady cr call M view) (cv : CertifiedVertex)
    (hev : call.event = some (.certifiedVertexReceived cv)) :
    Simulation.Steady M view (view call.pre) (lowerLayers cr call cv) :=
  Steady.andThen (h.vertices call.pre _ rfl (.certified cv hev))
    fun _ _ => h.waves _ _ rfl (.certified cv hev)

theorem LayersSteady.certified (h : LayersSteady cr call M view) (cv : CertifiedVertex)
    (hev : call.event = some (.certifiedVertexReceived cv)) :
    Simulation.Steady M view (view call.pre) (call.pre.onCertifiedVertex cr call.ctx cv) := by
  refine Steady.bind (h.lower cv hev) ?_
  intro acts hacts
  have hrest := @lowerLayers_rest cr call cv
  refine h.macros _ _ hrest.1 ?_
  have hcfg : (lowerLayers cr call cv).state.cfg = call.pre.cfg := hrest.2
  unfold lowerLayers at hcfg
  rw [hcfg]
  exact .micro cv acts hev hacts

theorem LayersSteady.timer (h : LayersSteady cr call M view) (id : TimerId)
    (hev : call.event = some (.timerFired id)) :
    Simulation.Steady M view (view call.pre) (call.pre.onTimerFired cr call.ctx id) := by
  unfold StateMachine.onTimerFired
  have hwaves := h.waves call.pre _ rfl (.timer id hev)
  have hmacros : Simulation.Steady M view (view call.pre)
      ((call.pre.onWaves (Bullshark.onTimerFired cr call.pre.cfg id call.ctx)).andThen fun sm =>
        sm.onMacros (MacroFin.onTimerFired cr sm.cfg call.ctx id)) :=
    hwaves.andThen fun _ _ => h.macros _ _ rfl (.timer id hev)
  refine hmacros.andThen ?_
  intro acts hacts
  cases hr : (call.pre.onWaves (Bullshark.onTimerFired cr call.pre.cfg id call.ctx)).result with
  | error e =>
    rw [Outcome.andThen_of_error hr] at hacts
    exact absurd (hacts.symm.trans hr) (by simp)
  | ok acts' =>
    rw [Outcome.andThen_of_ok hr]
    exact h.vertices _ _ rfl (.timer id hev)

theorem LayersSteady.exec (h : LayersSteady cr call M view) :
    Simulation.Steady M view (view call.pre) (StateMachine.exec cr call.input call.pre) := by
  obtain ⟨sm, req, ctx⟩ := call
  cases req with
  | genesis => exact h.vertices sm _ rfl (.genesis rfl)
  | event e =>
    cases e with
    | certifiedVertexReceived cv => exact h.certified cv rfl
    | microQcAssembled qc => exact h.waves sm _ rfl (.microQc qc rfl)
    | timerFired id => exact h.timer id rfl
    | macroProposalReceived p => exact h.macros sm _ rfl (.proposal p rfl)
    | blsPartialReceived bp => exact h.macros sm _ rfl (.vote bp rfl)
    | subnetAggregateReceived a => exact h.macros sm _ rfl (.aggregate a rfl)
    | macroQcReceived qc => exact h.macros sm _ rfl (.qc qc rfl)
    | validatorSetUpdated epoch set => exact Steady.quiet sm
    | slashEvidenceFound ev => exact Steady.quiet sm
    | vertexProposalReceived p => exact h.vertices sm _ rfl (.proposal p rfl)
    | vertexPartialReceived bp => exact h.vertices sm _ rfl (.vote bp rfl)

/-- A view that every handler keeps, the call keeps. -/
theorem LayersSteady.same (h : LayersSteady cr call (fun a _ _ b => b = a) view) :
    view (StateMachine.exec cr call.input call.pre).state = view call.pre := by
  obtain ⟨acts, hpath, -⟩ := h.exec
  exact hpath.keeps (P := fun a => a = view call.pre) (fun a _ _ b hb ha => hb.trans ha) rfl

theorem exec_cfg (cr : Crypto) (call : NodeCall) :
    (StateMachine.exec cr call.input call.pre).state.cfg = call.pre.cfg := by
  refine @LayersSteady.same _ (·.cfg) cr call ⟨?_, ?_, ?_⟩
  · exact fun sm f _ _ => Simulation.Steady.single rfl
  · exact fun sm f _ _ => Simulation.Steady.single rfl
  · exact fun sm f _ _ => Simulation.Steady.single rfl

end Rule

section Refine
variable {cr : Crypto} {call : NodeCall}

theorem VertexHandler.steady {f : VertexBook → Result VertexBook} (h : VertexHandler cr call f)
    (book : VertexBook) : VertexSteady call book.core (f book) := by
  cases h with
  | genesis h => exact VertexCert.genesisPropose_steady _ book
  | certified cv h => exact VertexCert.onCertifiedVertex_steady _ cv book
  | proposal p h => exact VertexCert.onVertexProposal_steady p book h
  | vote bp h => exact VertexCert.onVertexPartial_steady _ bp book
  | timer id h => exact VertexCert.onTimerFired_steady _ id book

theorem WaveHandler.steady {f : Bullshark.WaveBook → Result Bullshark.WaveBook}
    (h : WaveHandler cr call f) (book : Bullshark.WaveBook) : WaveSteady (f book) := by
  cases h with
  | certified cv h => exact Bullshark.onCertifiedVertex_steady cr _ cv call.ctx book
  | microQc qc h => exact Bullshark.steady_wave_quiet book
  | timer id h => exact Bullshark.onTimerFired_steady cr _ id call.ctx book

theorem MacroHandler.handled {f : MacroBook → Result MacroBook} (h : MacroHandler cr call f) :
    Handled cr call call.pre.macros.core (f call.pre.macros) := by
  cases h with
  | micro cv acts h hacts =>
    have hsteady := localMicroQcs_steady cv h acts hacts
    rw [(@lowerLayers_rest cr call cv).1, (@lowerLayers_rest cr call cv).2] at hsteady
    exact Or.inl hsteady
  | proposal p h => exact Or.inl (onMacroProposal_steady p h)
  | vote bp h => exact onBlsPartial_handled _ bp _ h rfl
  | aggregate a h => exact onSubnetAggregate_handled _ a _ h rfl
  | qc qc h => exact onMacroQcReceived_handled _ qc _ h rfl
  | timer id h => exact Or.inl (onTimerFired_steady _ id _)

/- The same call seen by L1. -/
abbrev NodeVertexSteady (call : NodeCall) (c : VertexCore) (o : Result StateMachine) : Prop :=
  Simulation.Steady (NodeVertexMove call) (·.vertices.core) c o

theorem onVertices_own (f : VertexBook → Result VertexBook) (sm : StateMachine)
    (hf : VertexSteady call sm.vertices.core (f sm.vertices)) :
    NodeVertexSteady call sm.vertices.core (sm.onVertices f) :=
  Simulation.Steady.lift hf fun _ => rfl

theorem onWaves_otherVertex (f : Bullshark.WaveBook → Result Bullshark.WaveBook)
    (sm : StateMachine) (hf : WaveSteady (f sm.waves)) :
    NodeVertexSteady call sm.vertices.core (sm.onWaves f) :=
  have hw := wave_spec hf
  Simulation.Steady.other rfl (fun r hr => (hw.1 r hr).elim)
    (fun a ha => (isWave_not_decision (hw.2 a ha)).2)

theorem onMacros_otherVertex {c : MacroCore} {f : MacroBook → Result MacroBook}
    (sm : StateMachine) (hf : Handled cr call c (f sm.macros)) :
    NodeVertexSteady call sm.vertices.core (sm.onMacros f) :=
  have hkind := handled_kind hf
  Simulation.Steady.other rfl hkind.1 fun a ha => isMacroKind_not_news (hkind.2 a ha)

theorem exec_vertices (cr : Crypto) (call : NodeCall) :
    NodeVertexSteady call call.pre.vertices.core (StateMachine.exec cr call.input call.pre) := by
  refine LayersSteady.exec ⟨?_, ?_, ?_⟩
  · intro sm f _ hf
    exact onVertices_own f sm (hf.steady sm.vertices)
  · intro sm f _ hf
    exact onWaves_otherVertex f sm (hf.steady sm.waves)
  · intro sm f hsm hf
    refine @onMacros_otherVertex cr call call.pre.macros.core f sm ?_
    rw [hsm]
    exact hf.handled

/- L3 in a call. -/

def SkipsMacros (call : NodeCall) (o : Result StateMachine) : Prop :=
  o.state.macros = call.pre.macros ∧ ∀ r ∈ o.signed, r.1.isMacro = false

def RunsMacros (cr : Crypto) (call : NodeCall) (o : Result StateMachine) : Prop :=
  SkipsMacros call o ∨
    ∃ f, MacroHandler cr call f ∧ o.state.macros = (f call.pre.macros).state ∧
      ∀ r ∈ o.signed, r.1.isMacro = true → r ∈ (f call.pre.macros).signed

theorem onMacros_runs {f : MacroBook → Result MacroBook} (hf : MacroHandler cr call f)
    {sm : StateMachine} (hsm : sm.macros = call.pre.macros) :
    RunsMacros cr call (sm.onMacros f) := by
  refine Or.inr ⟨f, hf, ?_, ?_⟩
  · simp only [StateMachine.onMacros, Outcome.lift_state, hsm]
  · intro r hr _
    simpa only [StateMachine.onMacros, Outcome.lift_signed, hsm] using hr

theorem onVertices_skips {f : VertexBook → Result VertexBook} (hf : VertexHandler cr call f)
    {sm : StateMachine} (hsm : sm.macros = call.pre.macros) :
    SkipsMacros call (sm.onVertices f) :=
  ⟨hsm, (vertex_kind (hf.steady _)).1⟩

theorem onWaves_skips {f : Bullshark.WaveBook → Result Bullshark.WaveBook} {sm : StateMachine}
    (hf : WaveSteady (f sm.waves)) (hsm : sm.macros = call.pre.macros) :
    SkipsMacros call (sm.onWaves f) :=
  ⟨hsm, fun r hr => ((wave_spec hf).1 r hr).elim⟩

theorem SkipsMacros.runs {o : Result StateMachine} (h : SkipsMacros call o) :
    RunsMacros cr call o := Or.inl h

theorem SkipsMacros.bind {o : Result StateMachine}
    {k : List Action → StateMachine → Result StateMachine} (h : SkipsMacros call o)
    (hk : ∀ acts, o.result = .ok acts → RunsMacros cr call (k acts o.state)) :
    RunsMacros cr call (o.bind k) := by
  cases hr : o.result with
  | error e =>
    rw [Outcome.bind_of_error hr]
    exact h.runs
  | ok acts =>
    rw [Outcome.bind_of_ok hr]
    cases hk acts hr with
    | inl hskip =>
      refine Or.inl ⟨hskip.1, ?_⟩
      intro r hmem
      exact (List.mem_append.mp hmem).elim (h.2 r) (hskip.2 r)
    | inr hrun =>
      obtain ⟨f, hf, hstate, hsigned⟩ := hrun
      refine Or.inr ⟨f, hf, hstate, ?_⟩
      intro r hmem hmacro
      cases List.mem_append.mp hmem with
      | inl hl => exact absurd hmacro (by simp [h.2 r hl])
      | inr hr => exact hsigned r hr hmacro

theorem RunsMacros.andThen {o : Result StateMachine} {k : StateMachine → Result StateMachine}
    (h : RunsMacros cr call o)
    (hk : (k o.state).state.macros = o.state.macros ∧
      ∀ r ∈ (k o.state).signed, r.1.isMacro = false) : RunsMacros cr call (o.andThen k) := by
  cases hr : o.result with
  | error e => rwa [Outcome.andThen_of_error hr]
  | ok acts =>
    rw [Outcome.andThen_of_ok hr]
    cases h with
    | inl hskip =>
      refine Or.inl ⟨hk.1.trans hskip.1, ?_⟩
      intro r hmem
      exact (List.mem_append.mp hmem).elim (hskip.2 r) (hk.2 r)
    | inr hrun =>
      obtain ⟨f, hf, hstate, hsigned⟩ := hrun
      refine Or.inr ⟨f, hf, hk.1.trans hstate, ?_⟩
      intro r hmem hmacro
      cases List.mem_append.mp hmem with
      | inl hl => exact hsigned r hl hmacro
      | inr hv => exact absurd hmacro (by simp [hk.2 r hv])

theorem lowerLayers_skips (cv : CertifiedVertex)
    (hev : call.event = some (.certifiedVertexReceived cv)) :
    SkipsMacros call (lowerLayers cr call cv) := by
  refine ⟨lowerLayers_rest cv |>.1, ?_⟩
  have hvertices := (vertex_kind (@VertexHandler.steady cr call _ (.certified cv hev)
    call.pre.vertices)).1
  unfold lowerLayers
  cases hr : (call.pre.onVertices
      (VertexCert.onCertifiedVertex cr call.pre.cfg call.ctx cv)).result with
  | error e => rwa [Outcome.andThen_of_error hr]
  | ok acts =>
    rw [Outcome.andThen_of_ok hr]
    intro r hmem
    cases List.mem_append.mp hmem with
    | inl hl => exact hvertices r hl
    | inr hw =>
      exact ((wave_spec (Bullshark.onCertifiedVertex_steady cr _ cv call.ctx _)).1 r hw).elim

theorem onCertifiedVertex_runs (cv : CertifiedVertex)
    (hev : call.event = some (.certifiedVertexReceived cv)) :
    RunsMacros cr call (call.pre.onCertifiedVertex cr call.ctx cv) := by
  refine SkipsMacros.bind (lowerLayers_skips cv hev) ?_
  intro acts hacts
  have hrest := @lowerLayers_rest cr call cv
  have hcfg : (lowerLayers cr call cv).state.cfg = call.pre.cfg := hrest.2
  unfold lowerLayers at hcfg
  rw [hcfg]
  exact onMacros_runs (.micro cv acts hev hacts) hrest.1

theorem onTimerFired_runs (id : TimerId) (hev : call.event = some (.timerFired id)) :
    RunsMacros cr call (call.pre.onTimerFired cr call.ctx id) := by
  have hwaves : SkipsMacros call
      (call.pre.onWaves (Bullshark.onTimerFired cr call.pre.cfg id call.ctx)) :=
    onWaves_skips (Bullshark.onTimerFired_steady cr _ id call.ctx _) rfl
  have hmacros : RunsMacros cr call
      ((call.pre.onWaves (Bullshark.onTimerFired cr call.pre.cfg id call.ctx)).andThen fun sm =>
        sm.onMacros (MacroFin.onTimerFired cr sm.cfg call.ctx id)) :=
    hwaves.bind fun _ _ => onMacros_runs (.timer id hev) rfl
  exact hmacros.andThen ⟨rfl, (vertex_kind (VertexCert.onTimerFired_steady _ id _)).1⟩

/-- A call runs at most one handler of L3, on the book the call found. -/
theorem exec_runs (cr : Crypto) (call : NodeCall) :
    RunsMacros cr call (StateMachine.exec cr call.input call.pre) := by
  obtain ⟨sm, req, ctx⟩ := call
  cases req with
  | genesis => exact (onVertices_skips (.genesis rfl) rfl).runs
  | event e =>
    cases e with
    | certifiedVertexReceived cv => exact onCertifiedVertex_runs cv rfl
    | microQcAssembled qc => exact (onWaves_skips (Bullshark.steady_wave_quiet _) rfl).runs
    | timerFired id => exact onTimerFired_runs id rfl
    | macroProposalReceived p => exact onMacros_runs (.proposal p rfl) rfl
    | blsPartialReceived bp => exact onMacros_runs (.vote bp rfl) rfl
    | subnetAggregateReceived a => exact onMacros_runs (.aggregate a rfl) rfl
    | macroQcReceived qc => exact onMacros_runs (.qc qc rfl) rfl
    | validatorSetUpdated epoch set => exact Or.inl ⟨rfl, List.forall_mem_nil _⟩
    | slashEvidenceFound ev => exact Or.inl ⟨rfl, List.forall_mem_nil _⟩
    | vertexProposalReceived p => exact (onVertices_skips (.proposal p rfl) rfl).runs
    | vertexPartialReceived bp => exact (onVertices_skips (.vote bp rfl) rfl).runs

end Refine
/-- A property of the L3 book and of the actions that every handler of L3 keeps and the other
layers' actions have, the call keeps. -/
theorem exec_sound {P : MacroBook → Prop} {A : Action → Prop} (cr : Crypto) (call : NodeCall)
    (hlower : ∀ a, a.isVertexKind = true ∨ a.isWave = true → A a)
    (hkeeps : ∀ f, MacroHandler cr call f → Outcome.Sound P A (f call.pre.macros))
    (hpre : P call.pre.macros) :
    Outcome.Sound (fun sm : StateMachine => P sm.macros) A
      (StateMachine.exec cr call.input call.pre) := by
  have hlayers : LayersSteady cr call (fun b _ acts d => P b → P d ∧ ∀ a ∈ acts, A a)
      (·.macros) := by
    refine ⟨?_, ?_, ?_⟩
    · intro sm f _ hf
      have hkind := (vertex_kind (hf.steady sm.vertices)).2
      exact Simulation.Steady.single fun hb => ⟨hb, fun a ha => hlower a (Or.inl (hkind a ha))⟩
    · intro sm f _ hf
      have hkind := (wave_spec (hf.steady sm.waves)).2
      exact Simulation.Steady.single fun hb => ⟨hb, fun a ha => hlower a (Or.inr (hkind a ha))⟩
    · intro sm f hsm hf
      have hsound := hkeeps f hf
      rw [← hsm] at hsound
      exact Simulation.Steady.single fun _ => ⟨hsound.state, hsound.actions⟩
  obtain ⟨acts, hpath, hacts⟩ := hlayers.exec.actions
  have h := hpath.invariant (P := fun _ as b => P b ∧ ∀ a ∈ as, A a) (R := fun _ => True) ?_
    (fun _ _ => trivial) [] [] ⟨hpre, by simp⟩
  · exact ⟨h.1, fun a ha => h.2 a (hacts a ha)⟩
  intro _ as b _ as' d _ hm hb
  have hnext := hm hb.1
  refine ⟨hnext.1, ?_⟩
  intro a ha
  exact (List.mem_append.mp ha).elim (hb.2 a) (hnext.2 a)

end LuaDag
