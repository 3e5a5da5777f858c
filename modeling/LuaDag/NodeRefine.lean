import LuaDag.MacroRefine
import LuaDag.MacroWalk
import LuaDag.VertexRefine

/-! One call of the state machine, seen by L1 and by L3: what it does to either book
is a path of that layer's moves, and no other layer signs or decides for it. -/
namespace LuaDag
open Simulation (Moves.single Moves.step Moves.refl Steady.move Steady.quiet Steady.fail
  Steady.prepend Steady.andThen)

/- L2 keeps no state the other layers depend on: it only emits micro QCs and timers. -/
def Action.isWave : Action → Bool
  | .broadcastMicroQc _ | .scheduleTimer _ _ | .cancelTimer _ => true
  | _ => false

def WaveMove (_ : Unit) (sg : List SignReq) (acts : List Action) (_ : Unit) : Prop :=
  sg = [] ∧ ∀ a ∈ acts, a.isWave = true

abbrev WaveSteady (o : Result Bullshark.WaveBook) : Prop :=
  Simulation.Steady WaveMove (fun _ => ()) () o

namespace Bullshark

theorem steady_wave (book : WaveBook) {acts : List Action}
    (h : ∀ a ∈ acts, a.isWave = true) : WaveSteady (.ok book acts) :=
  Steady.move ⟨rfl, h⟩

theorem steady_wave_quiet (book : WaveBook) : WaveSteady (.quiet book) := Steady.quiet book

theorem steady_wave_fail (book : WaveBook) (e : Error) : WaveSteady (.fail book e) :=
  Steady.fail book e

theorem armSlowTimer_steady (cr : Crypto) (wave : WaveId) (cfg : Config) (set : ValidatorSet)
    (ctx : HostContext) (timedOut : Bool) (book : WaveBook) :
    WaveSteady (armSlowTimer cr wave cfg set ctx timedOut book) := by
  unfold armSlowTimer
  split
  · split
    · exact steady_wave_fail book _
    · exact steady_wave_quiet book
    · exact steady_wave _ (by simp [Action.isWave])
  · exact steady_wave_quiet book

theorem emitCommitted_steady (cr : Crypto) (anchorHash : Hash32) (ctx : HostContext)
    (book : WaveBook) : WaveSteady (emitCommitted cr anchorHash ctx book) := by
  unfold emitCommitted
  split
  · exact steady_wave_fail book _
  dsimp only
  split
  · exact steady_wave_quiet book
  split
  · exact steady_wave_fail book _
  split
  · exact steady_wave_fail book _
  · exact steady_wave_quiet book
  · exact steady_wave _ (by simp [Action.isWave])

theorem tryEmitForWave_steady (cr : Crypto) (wave : WaveId) (cfg : Config) (ctx : HostContext)
    (timedOut : Bool) (book : WaveBook) :
    WaveSteady (tryEmitForWave cr wave cfg ctx timedOut book) := by
  unfold tryEmitForWave
  split
  · exact steady_wave_quiet book
  split
  · exact steady_wave_fail book _
  · exact steady_wave_quiet book
  split
  · exact steady_wave_fail book _
  · exact armSlowTimer_steady cr wave cfg _ ctx timedOut book
  dsimp only
  refine Steady.andThen ?_ fun _ _ => emitCommitted_steady cr _ ctx _
  split
  · exact steady_wave_quiet _
  · exact steady_wave _ (by simp [Action.isWave])

theorem onCertifiedVertex_steady (cr : Crypto) (cfg : Config) (cv : CertifiedVertex)
    (ctx : HostContext) (book : WaveBook) :
    WaveSteady (onCertifiedVertex cr cfg cv ctx book) := by
  unfold onCertifiedVertex
  have hfold : ∀ (ws : List Nat) (o : Result WaveBook), WaveSteady o →
      WaveSteady (ws.foldl (fun o w => o.andThen fun book =>
        if w ∈ book.committedWaves then .quiet book
        else tryEmitForWave cr w cfg ctx false book) o) := by
    intro ws
    induction ws with
    | nil => exact fun o ho => ho
    | cons w ws ih =>
      intro o ho
      refine ih _ (Steady.andThen ho ?_)
      intro _ _
      split
      · exact steady_wave_quiet _
      · exact tryEmitForWave_steady cr w cfg ctx false _
  exact hfold _ _ (steady_wave_quiet book)

theorem onTimerFired_steady (cr : Crypto) (cfg : Config) (id : TimerId) (ctx : HostContext)
    (book : WaveBook) : WaveSteady (onTimerFired cr cfg id ctx book) := by
  unfold onTimerFired
  split
  · exact steady_wave_quiet book
  · exact tryEmitForWave_steady cr _ cfg ctx true _

end Bullshark

theorem wave_spec {o : Result Bullshark.WaveBook} (h : WaveSteady o) :
    (∀ r ∈ o.signed, False) ∧ ∀ a ∈ o.actions, a.isWave = true := by
  obtain ⟨acts, hpath, hacts⟩ := h.actions
  have hall := hpath.forall_of_move (R := fun _ => False) (A := fun a => a.isWave = true)
    (fun _ _ _ _ hm => ⟨by simp [hm.1], hm.2⟩)
  exact ⟨hall.1, fun a ha => hall.2 a (hacts a ha)⟩

def Action.isVertexNews : Action → Bool
  | .broadcastVertexProposal _ | .broadcastVertexPartial _ => true
  | .emitSlashEvidence _ (.vertexEquivocation _) => true
  | _ => false

def Action.isVertexKind : Action → Bool
  | .scheduleTimer _ _ | .cancelTimer _ => true
  | .broadcastVertexProposal _ | .broadcastVertexPartial _ | .broadcastCertifiedVertex _ => true
  | .emitSlashEvidence _ (.vertexEquivocation _) => true
  | _ => false

def Action.isMacroKind : Action → Bool
  | .broadcastMicroQc _ | .cancelTimer _ => false
  | .broadcastVertexProposal _ | .broadcastVertexPartial _ | .broadcastCertifiedVertex _ => false
  | .emitSlashEvidence _ (.vertexEquivocation _) => false
  | _ => true

theorem isWave_not_decision {a : Action} (h : a.isWave = true) :
    a.isDecision = false ∧ a.isVertexNews = false := by
  cases a <;> simp_all [Action.isWave, Action.isDecision, Action.isVertexNews]

theorem isVertexKind_not_decision {a : Action} (h : a.isVertexKind = true) :
    a.isDecision = false := by
  cases a with
  | emitSlashEvidence o ev => cases ev <;> simp_all [Action.isVertexKind, Action.isDecision]
  | _ => simp_all [Action.isVertexKind, Action.isDecision]

theorem isMacroKind_not_news {a : Action} (h : a.isMacroKind = true) : a.isVertexNews = false := by
  cases a with
  | emitSlashEvidence o ev => cases ev <;> simp_all [Action.isMacroKind, Action.isVertexNews]
  | _ => simp_all [Action.isMacroKind, Action.isVertexNews]

/- What L1 does is no decision of L3. -/

theorem vertexMove_kind {call : NodeCall} {c d : VertexCore} {sg : List SignReq}
    {acts : List Action} (h : VertexMove call c sg acts d) :
    (∀ r ∈ sg, r.1.isMacro = false) ∧ ∀ a ∈ acts, a.isVertexKind = true := by
  have htraffic : ∀ a : Action, a.isCertTraffic = true → a.isVertexKind = true := by
    intro a ha
    cases a <;> simp_all [Action.isCertTraffic, Action.isVertexKind]
  cases h with
  | traffic acts hacts => exact ⟨by simp, fun a ha => htraffic a (hacts a ha)⟩
  | see p hev => simp
  | accuse p q ev hev hself hq hne => simp [Action.isVertexKind]
  | vote p sig hev hself hwin hnew => simp [Dst.isMacro, Action.isVertexKind]
  | propose p acts hself hround hacts =>
    refine ⟨by simp [Dst.isMacro], ?_⟩
    intro a ha
    cases List.mem_append.mp ha with
    | inl hl => exact htraffic a (hacts a hl)
    | inr hr =>
      rw [List.mem_singleton.mp hr]
      rfl
  | repeatOwn h p hp => simp [Action.isVertexKind]
  | prune => simp

theorem vertex_kind {call : NodeCall} {c : VertexCore} {o : Result VertexBook}
    (h : VertexSteady call c o) :
    (∀ r ∈ o.signed, r.1.isMacro = false) ∧ ∀ a ∈ o.actions, a.isVertexKind = true := by
  obtain ⟨acts, hpath, hacts⟩ := h.actions
  have hall := hpath.forall_of_move (R := fun r => r.1.isMacro = false)
    (A := fun a => a.isVertexKind = true) (fun _ _ _ _ => vertexMove_kind)
  exact ⟨hall.1, fun a ha => hall.2 a (hacts a ha)⟩

/- What L3 does is no news of L1. -/

theorem macroTraffic_plain {a : Action} (h : a.isMacroTraffic = true) :
    a.isDecision = false ∧ a.isMacroKind = true := by
  cases a with
  | updateBlobStatus b st => cases st <;> simp_all [Action.isMacroTraffic, Action.isDecision,
      Action.isMacroKind]
  | _ => simp_all [Action.isMacroTraffic, Action.isDecision, Action.isMacroKind]

theorem move_kind {cr : Crypto} {call : NodeCall} {c d : MacroCore} {sg : List SignReq}
    {acts : List Action} (h : Move cr call c sg acts d) :
    (∀ r ∈ sg, r.1.isMacro = true) ∧ ∀ a ∈ acts, a.isMacroKind = true := by
  cases h with
  | plain acts hacts => exact ⟨by simp, fun a ha => (macroTraffic_plain (hacts a ha)).2⟩
  | arm id acts hacts => exact ⟨by simp, fun a ha => (macroTraffic_plain (hacts a ha)).2⟩
  | accuse p q ev hev hq hne => simp [Action.isMacroKind]
  | propose height cp proof hc hfirst => simp [Dst.isMacro, Action.isMacroKind]
  | recordVote p old locks hev hacc hpre hparent hold hroot hhash hlock =>
    exact ⟨by simp [Dst.isMacro], MacroFin.selfEvidence_all (fun _ => rfl) fun _ => rfl⟩
  | announce height cp subnet hc hlock => simp [Dst.isMacro, Action.isMacroKind]
  | _ => simp

theorem finalizedActions_spec {c : MacroCore} {r : TwoChainRule} {a : Action}
    (ha : a ∈ c.finalizedActions r) :
    ∃ prev cp, r.newlyFinalizedHeight = some prev ∧ c.candidate[prev]? = some cp ∧
      a = .updateBlobStatus (MacroFin.blobIdOfCheckpoint cp) .finalized := by
  unfold MacroCore.finalizedActions at ha
  split at ha
  · simp at ha
  · rename_i prev hprev
    obtain ⟨cp, hcp, rfl⟩ := Option.map_eq_some_iff.mp (Option.mem_toList.mp ha)
    exact ⟨prev, cp, hprev, hcp, rfl⟩

theorem adopt_kind {cr : Crypto} {call : NodeCall} {c d : MacroCore}
    {acts : List Action} (h : Adopt cr call c acts d) : ∀ a ∈ acts, a.isMacroKind = true := by
  cases h with
  | mk set height cand qc own leak hset hpre hnew hc hnames hqc hleak =>
    intro a ha
    simp only [List.mem_append, or_assoc] at ha
    obtain hown | hact | hl | hf := ha
    · split at hown
      · rw [List.mem_singleton.mp hown]
        rfl
      · simp at hown
    · simp only [MacroFin.adoptionActions, List.mem_cons, List.not_mem_nil, or_false] at hact
      obtain rfl | rfl | rfl := hact <;> rfl
    · exact (macroTraffic_plain (hleak a hl)).2
    · obtain ⟨prev, cp, -, -, rfl⟩ := finalizedActions_spec hf
      rfl

theorem handled_kind {cr : Crypto} {call : NodeCall} {c : MacroCore} {o : Result MacroBook}
    (h : Handled cr call c o) :
    (∀ r ∈ o.signed, r.1.isMacro = true) ∧ ∀ a ∈ o.actions, a.isMacroKind = true := by
  cases h with
  | inl hs =>
    obtain ⟨acts, hpath, hacts⟩ := hs.actions
    have hall := hpath.forall_of_move (R := fun r => r.1.isMacro = true)
      (A := fun a => a.isMacroKind = true) (fun _ _ _ _ => move_kind)
    exact ⟨hall.1, fun a ha => hall.2 a (hacts a ha)⟩
  | inr ha =>
    obtain ⟨acts, d, acts', hpath, hadopt, hres⟩ := ha
    have hall := hpath.forall_of_move (R := fun r => r.1.isMacro = true)
      (A := fun a => a.isMacroKind = true) (fun _ _ _ _ => move_kind)
    refine ⟨hall.1, ?_⟩
    simp only [Outcome.actions, hres]
    intro a ha
    exact (List.mem_append.mp ha).elim (hall.2 a) (adopt_kind hadopt a)

/- The whole call. -/

abbrev NodeMove (cr : Crypto) (call : NodeCall) :=
  Simulation.Within (Move cr call) (fun r => r.1.isMacro = false) (fun a => a.isDecision = false)

abbrev NodeVertexMove (call : NodeCall) :=
  Simulation.Within (VertexMove call) (fun r => r.1.isMacro = true)
    (fun a => a.isVertexNews = false)

abbrev NodeSteady (cr : Crypto) (call : NodeCall) (c : MacroCore) (o : Result StateMachine) :
    Prop :=
  Simulation.Steady (NodeMove cr call) (·.macros.core) c o

def NodeHandled (cr : Crypto) (call : NodeCall) (o : Result StateMachine) : Prop :=
  NodeSteady cr call call.pre.macros.core o ∨
    ∃ acts d acts', Simulation.Moves (NodeMove cr call) call.pre.macros.core o.signed acts d ∧
      Adopt cr call d acts' o.state.macros.core ∧ o.result = .ok (acts ++ acts')

section Exec
variable {cr : Crypto} {call : NodeCall}

theorem onVertices_other (f : VertexBook → Result VertexBook) (sm : StateMachine)
    (hf : VertexSteady call sm.vertices.core (f sm.vertices)) :
    NodeSteady cr call sm.macros.core (sm.onVertices f) :=
  have hkind := vertex_kind hf
  Simulation.Steady.other rfl hkind.1 fun a ha => isVertexKind_not_decision (hkind.2 a ha)

theorem onWaves_other (f : Bullshark.WaveBook → Result Bullshark.WaveBook) (sm : StateMachine)
    (hf : WaveSteady (f sm.waves)) : NodeSteady cr call sm.macros.core (sm.onWaves f) :=
  have hw := wave_spec hf
  Simulation.Steady.other rfl (fun r hr => (hw.1 r hr).elim)
    (fun a ha => (isWave_not_decision (hw.2 a ha)).1)

theorem onMacros_handled {f : MacroBook → Result MacroBook}
    (hf : Handled cr call call.pre.macros.core (f call.pre.macros)) :
    NodeHandled cr call (call.pre.onMacros f) := by
  cases hf with
  | inl hs => exact Or.inl (hs.lift fun _ => rfl)
  | inr ha =>
    obtain ⟨acts, d, acts', hpath, hadopt, hres⟩ := ha
    exact Or.inr ⟨acts, d, acts', hpath.within, hadopt, hres⟩

theorem lowerLayers_rest (cv : CertifiedVertex) :
    (lowerLayers cr call cv).state.macros = call.pre.macros ∧
      (lowerLayers cr call cv).state.cfg = call.pre.cfg := by
  unfold lowerLayers
  cases hr : (call.pre.onVertices
      (VertexCert.onCertifiedVertex cr call.pre.cfg call.ctx cv)).result with
  | error e =>
    rw [Outcome.andThen_of_error hr]
    exact ⟨rfl, rfl⟩
  | ok acts =>
    rw [Outcome.andThen_of_ok hr]
    exact ⟨rfl, rfl⟩

/-- The L3 part of a certified vertex, with the room a well-paced call has. -/
theorem localMicroQcs_steady (cv : CertifiedVertex)
    (hev : call.event = some (.certifiedVertexReceived cv)) (acts : List Action)
    (hacts : (lowerLayers cr call cv).result = .ok acts) :
    Steady cr call (lowerLayers cr call cv).state.macros.core
      (MacroFin.onLocalMicroQcs cr (lowerLayers cr call cv).state.cfg call.ctx acts
        (lowerLayers cr call cv).state.macros) := by
  refine onLocalMicroQcs_steady _ acts ?_
  have hfresh : freshMicroQcs cr call cv = acts.filterMap MacroFin.microQcHash := by
    simp [freshMicroQcs, Outcome.actions, hacts]
  have hrest := @lowerLayers_rest cr call cv
  rw [hrest.1, hrest.2, ← hfresh]
  refine ⟨⟨rfl, rfl, rfl⟩, ?_⟩
  intro hp hl
  simpa [NodeCall.wellPaced, hev, hl] using hp

theorem onCertifiedVertex_nodeSteady (cv : CertifiedVertex)
    (hev : call.event = some (.certifiedVertexReceived cv)) :
    NodeSteady cr call call.pre.macros.core (call.pre.onCertifiedVertex cr call.ctx cv) := by
  have hlower : NodeSteady cr call call.pre.macros.core (lowerLayers cr call cv) :=
    Steady.andThen (onVertices_other _ call.pre (VertexCert.onCertifiedVertex_steady _ cv _))
      fun _ _ => onWaves_other _ _ (Bullshark.onCertifiedVertex_steady cr _ cv call.ctx _)
  refine Simulation.Steady.bind hlower ?_
  intro acts hacts
  exact Simulation.Steady.lift (localMicroQcs_steady cv hev acts hacts) fun _ => rfl

theorem onTimerFired_nodeSteady (id : TimerId) :
    NodeSteady cr call call.pre.macros.core (call.pre.onTimerFired cr call.ctx id) := by
  unfold StateMachine.onTimerFired
  refine Steady.andThen (Steady.andThen ?_ ?_) ?_
  · exact onWaves_other _ _ (Bullshark.onTimerFired_steady cr _ id call.ctx _)
  · intro _ _
    exact Simulation.Steady.lift (onTimerFired_steady _ id _) fun _ => rfl
  · intro _ _
    exact onVertices_other _ _ (VertexCert.onTimerFired_steady _ id _)

end Exec

/-- Every call is a path of L3 moves, ended or not by one adoption. -/
theorem exec_handled (cr : Crypto) (call : NodeCall) :
    NodeHandled cr call (StateMachine.exec cr call.input call.pre) := by
  obtain ⟨sm, req, ctx⟩ := call
  cases req with
  | genesis =>
    exact Or.inl (onVertices_other _ _ (VertexCert.genesisPropose_steady _ _))
  | event e =>
    cases e with
    | certifiedVertexReceived cv => exact Or.inl (onCertifiedVertex_nodeSteady cv rfl)
    | microQcAssembled qc => exact Or.inl (onWaves_other _ _ (Bullshark.steady_wave_quiet _))
    | timerFired id => exact Or.inl (onTimerFired_nodeSteady id)
    | macroProposalReceived p => exact onMacros_handled (Or.inl (onMacroProposal_steady p rfl))
    | blsPartialReceived bp => exact onMacros_handled (onBlsPartial_handled _ bp _ rfl rfl)
    | subnetAggregateReceived a => exact onMacros_handled (onSubnetAggregate_handled _ a _ rfl rfl)
    | macroQcReceived qc => exact onMacros_handled (onMacroQcReceived_handled _ qc _ rfl rfl)
    | validatorSetUpdated epoch set => exact Or.inl (Steady.quiet sm)
    | slashEvidenceFound ev => exact Or.inl (Steady.quiet sm)
    | vertexProposalReceived p =>
      exact Or.inl (onVertices_other _ _ (VertexCert.onVertexProposal_steady p _ rfl))
    | vertexPartialReceived bp =>
      exact Or.inl (onVertices_other _ _ (VertexCert.onVertexPartial_steady _ bp _))

end LuaDag
