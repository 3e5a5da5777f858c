import LuaDag.MacroWindow
import LuaDag.LiveDag
import LuaDag.Devnet

/-! Micro QCs on their way to L3. Two branches of `step` emit micro QCs; the one of a
certified vertex hands them to the ring of L3, the one of a slow-path timer does not. -/
namespace LuaDag
open MacroFin Bullshark

def NodeCall.pushed (cr : Crypto) (call : NodeCall) : List Hash32 :=
  match call.event with
  | some (.certifiedVertexReceived cv) =>
    match (lowerLayers cr call cv).result, activeSet call.ctx with
    | .ok acts, .ok set =>
      pushedOf cr call.pre.cfg call.ctx set (acts.filterMap microQcHash) call.pre.macros
    | _, _ => []
  | _ => []

def pushedIn (cr : Crypto) (cfg : Config) (self : ValidatorId) (is : List StateMachine.Input) :
    List Hash32 :=
  (StateMachine.run cr cfg self is).flatMap (NodeCall.pushed cr)

section Call
variable {cr : Crypto} {call : NodeCall}

theorem onLocalMicroQcs_eq {cfg : Config} {ctx : HostContext} {set : ValidatorSet}
    (hset : activeSet ctx = .ok set) (acts : List Action) (book : MacroBook) :
    onLocalMicroQcs cr cfg ctx acts book =
      pushAll cr cfg ctx set (acts.filterMap microQcHash) (.quiet book) := by
  unfold onLocalMicroQcs
  split
  · rename_i hnil
    rw [hnil]
    rfl
  · rw [hset]
    rfl

/-- The certified branch of `step`, once L1 and L2 have returned. -/
theorem onCertifiedVertex_eq (cv : CertifiedVertex) {acts : List Action}
    (hacts : (lowerLayers cr call cv).result = .ok acts) :
    (call.pre.onCertifiedVertex cr call.ctx cv).state.macros =
        (onLocalMicroQcs cr call.pre.cfg call.ctx acts call.pre.macros).state ∧
      (call.pre.onCertifiedVertex cr call.ctx cv).result =
        (onLocalMicroQcs cr call.pre.cfg call.ctx acts call.pre.macros).result.map (acts ++ ·) := by
  have hrest := @lowerLayers_rest cr call cv
  have hbind : call.pre.onCertifiedVertex cr call.ctx cv =
      (lowerLayers cr call cv).bind fun actions sm =>
        sm.onMacros (onLocalMicroQcs cr sm.cfg call.ctx actions) := rfl
  rw [hbind, Outcome.bind_of_ok hacts]
  simp only [StateMachine.onMacros, hrest.1, hrest.2]
  exact ⟨rfl, rfl⟩

theorem exec_certified {cv : CertifiedVertex}
    (hev : call.event = some (.certifiedVertexReceived cv)) :
    StateMachine.exec cr call.input call.pre = call.pre.onCertifiedVertex cr call.ctx cv := by
  obtain ⟨sm, req, ctx⟩ := call
  cases req with
  | genesis => cases hev
  | event e =>
    cases hev
    rfl

theorem exec_ring_other (hev : ∀ cv, call.event ≠ some (.certifiedVertexReceived cv)) :
    (StateMachine.exec cr call.input call.pre).state.macros.microRing =
      call.pre.macros.microRing := by
  refine @LayersSteady.same _ (·.macros.microRing) cr call ⟨?_, ?_, ?_⟩
  · exact fun sm f _ _ => Simulation.Steady.single rfl
  · exact fun sm f _ _ => Simulation.Steady.single rfl
  · intro sm f _ hf
    exact Simulation.Steady.single (hf.rests hev sm.macros).state.ring

theorem pushed_other (hev : ∀ cv, call.event ≠ some (.certifiedVertexReceived cv)) :
    call.pushed cr = [] := by
  unfold NodeCall.pushed
  split
  · rename_i cv h
    exact absurd h (hev cv)
  · rfl

theorem exec_ring (cr : Crypto) (call : NodeCall) :
    (StateMachine.exec cr call.input call.pre).state.macros.microRing =
      ringAfter call.pre.cfg.macroFin.macroWindowW call.pre.macros.microRing (call.pushed cr) := by
  by_cases hev : ∃ cv, call.event = some (.certifiedVertexReceived cv)
  · obtain ⟨cv, hev⟩ := hev
    rw [exec_certified hev]
    cases hacts : (lowerLayers cr call cv).result with
    | error e =>
      have hbind : call.pre.onCertifiedVertex cr call.ctx cv = lowerLayers cr call cv :=
        Outcome.bind_of_error hacts _
      simp only [hbind, NodeCall.pushed, hev, hacts, (@lowerLayers_rest cr call cv).1, ringAfter]
    | ok acts =>
      rw [(onCertifiedVertex_eq cv hacts).1]
      cases hset : activeSet call.ctx with
      | error e =>
        simp only [NodeCall.pushed, hev, hacts, hset, ringAfter, onLocalMicroQcs]
        split <;> rfl
      | ok set =>
        rw [onLocalMicroQcs_eq hset, pushAll_ring _ rfl]
        simp only [NodeCall.pushed, hev, hacts, hset, Outcome.quiet_state]
  · have hno : ∀ cv, call.event ≠ some (.certifiedVertexReceived cv) :=
      fun cv h => hev ⟨cv, h⟩
    rw [exec_ring_other hno]
    rw [pushed_other hno, ringAfter]

/- Micro QCs that do not arrive. -/

def lateQc (cr : Crypto) (call : NodeCall) : Bool :=
  match call.event with
  | some (.timerFired id) =>
    match call.pre.waves.timerToWave[id]?, call.ctx.setFor 0 with
    | some wave, .ok (some set) =>
      decide (wave ∉ call.pre.waves.committedWaves) &&
        match tryCommitWave cr wave call.pre.cfg set call.ctx true with
        | .ok (some d) =>
          match freshQc cr d.anchorHash call.ctx call.pre.waves.emitted with
          | .ok (some _) => true
          | _ => false
        | _ => false
    | _, _ => false
  | _ => false

/-- A window closes for which no schedule exists, or which this node leads and cannot
prove its slot for: the call fails after its pushes. -/
def lostWindow (cr : Crypto) (call : NodeCall) : Bool :=
  match call.event, activeSet call.ctx, call.ctx.beacon with
  | some (.certifiedVertexReceived cv), .ok set, .ok beacon =>
    let book := call.pre.macros
    decide (1 ≤ closings call.pre.cfg.macroFin.macroWindowW book.microRing.length
        (freshMicroQcs cr call cv).length) &&
      (decide (set.entries.length < 2) ||
        leadsNext cr call &&
          !(call.ctx.vrfProve (vrfAlpha beacon book.nextHeight book.selfId)).isOk)
  | _, _, _ => false

theorem filterMap_noMicro {acts : List Action} (h : ∀ a ∈ acts, microQcHash a = none) :
    acts.filterMap microQcHash = [] :=
  List.filterMap_eq_nil_iff.mpr h

theorem ports_of_fresh {cv : CertifiedVertex} {acts : List Action}
    (hev : call.event = some (.certifiedVertexReceived cv))
    (hacts : (lowerLayers cr call cv).result = .ok acts)
    (hsome : acts.filterMap microQcHash ≠ []) :
    ∃ set beacon, activeSet call.ctx = .ok set ∧ call.ctx.beacon = .ok beacon := by
  obtain ⟨acts', hpath, hres⟩ := (layers_waves cr call).lower cv hev
  by_contra hno
  apply hsome
  apply filterMap_noMicro
  rw [hres acts hacts]
  refine (hpath.forall_of_move (R := fun _ => True) (A := fun a => microQcHash a = none) ?_).2
  intro c sg as d hm
  refine ⟨fun _ _ => trivial, ?_⟩
  cases hm with
  | other _ hother => exact hother
  | own hstep =>
    cases hstep with
    | idle as h => exact h
    | commit w t a qc as hnew htried hcan h hqc => exact absurd hcan.ports hno
    | stuck w t a e as hnew htried hcan h hqc => exact h

theorem canPropose_of_window {cv : CertifiedVertex} {set : ValidatorSet} {beacon : Hash32}
    (hev : call.event = some (.certifiedVertexReceived cv)) (hset : activeSet call.ctx = .ok set)
    (hbeacon : call.ctx.beacon = .ok beacon) (hgood : lostWindow cr call = false)
    (hclose : 1 ≤ closings call.pre.cfg.macroFin.macroWindowW call.pre.macros.microRing.length
      (freshMicroQcs cr call cv).length) :
    CanPropose cr call.ctx set call.pre.macros := by
  simp only [lostWindow, hev, hset, hbeacon] at hgood
  rw [decide_eq_true hclose, Bool.true_and, Bool.or_eq_false_iff, decide_eq_false_iff_not,
    Nat.not_lt] at hgood
  obtain ⟨schedule, hsched⟩ := @vrfSortition_ok cr set beacon call.pre.macros.nextHeight
    call.pre.macros.reputation hgood.1
  refine ⟨beacon, schedule, hbeacon, hsched, ?_⟩
  intro hprimary
  have hlead : leadsNext cr call = true := by
    simpa [leadsNext, hset, hbeacon, hsched] using hprimary
  have hprove := hgood.2
  rw [hlead, Bool.true_and, Bool.not_eq_false'] at hprove
  exact Outcome.exists_of_isOk hprove

/-- L3 returns, emits no micro QCs of its own, and has got all of L2. -/
theorem certified_ok {cv : CertifiedVertex} {acts : List Action}
    (hev : call.event = some (.certifiedVertexReceived cv))
    (hacts : (lowerLayers cr call cv).result = .ok acts) (hgood : lostWindow cr call = false) :
    ∃ acts', (StateMachine.exec cr call.input call.pre).result = .ok (acts ++ acts') ∧
      (∀ a ∈ acts', microQcHash a = none) ∧ call.pushed cr = acts.filterMap microQcHash := by
  have hres := (onCertifiedVertex_eq cv hacts).2
  rw [← exec_certified hev] at hres
  by_cases hsome : acts.filterMap microQcHash = []
  · have hquiet : onLocalMicroQcs cr call.pre.cfg call.ctx acts call.pre.macros =
        .quiet call.pre.macros := by
      simp [onLocalMicroQcs, hsome]
    rw [hquiet] at hres
    refine ⟨[], hres, by simp, ?_⟩
    simp only [NodeCall.pushed, hev, hacts]
    cases activeSet call.ctx with
    | error e => exact hsome.symm
    | ok set =>
      simp only [hsome]
      rfl
  obtain ⟨set, beacon, hset, hbeacon⟩ := ports_of_fresh hev hacts hsome
  have hfresh : freshMicroQcs cr call cv = acts.filterMap microQcHash := by
    simp [freshMicroQcs, Outcome.actions, hacts]
  have hpush := @canPropose_of_window cr call cv set beacon hev hset hbeacon hgood
  rw [hfresh] at hpush
  obtain ⟨⟨acts', hacts'⟩, hall⟩ := @pushAll_ok cr call.pre.cfg call.ctx set
    (acts.filterMap microQcHash) (.quiet call.pre.macros) [] rfl hpush
  rw [onLocalMicroQcs_eq hset, hacts'] at hres
  refine ⟨acts', hres, ?_, ?_⟩
  · have hhandled := handled_noMicro (MacroHandler.handled (MacroHandler.micro cv acts hev hacts))
    rw [onLocalMicroQcs_eq hset] at hhandled
    simpa only [Outcome.actions, hacts'] using hhandled
  · simpa only [NodeCall.pushed, hev, hacts, hset, Outcome.quiet_state] using hall

/-- The certified branch loses nothing, as long as the windows it closes can be proposed. -/
theorem pushed_certified {cv : CertifiedVertex}
    (hev : call.event = some (.certifiedVertexReceived cv)) (hgood : lostWindow cr call = false) :
    (StateMachine.exec cr call.input call.pre).actions.filterMap microQcHash =
      call.pushed cr := by
  cases hacts : (lowerLayers cr call cv).result with
  | error e =>
    have hbind : call.pre.onCertifiedVertex cr call.ctx cv = lowerLayers cr call cv :=
      Outcome.bind_of_error hacts _
    simp [exec_certified hev, hbind, NodeCall.pushed, hev, hacts, Outcome.actions]
  | ok acts =>
    obtain ⟨acts', hres, hnone, hpushed⟩ := certified_ok hev hacts hgood
    simp only [Outcome.actions, hres, hpushed, List.filterMap_append, filterMap_noMicro hnone,
      List.append_nil]

theorem onTimerFired_noMicro {id : TimerId} (hev : call.event = some (.timerFired id))
    (hgood : lateQc cr call = false) :
    ∀ a ∈ (Bullshark.onTimerFired cr call.pre.cfg id call.ctx call.pre.waves).actions,
      microQcHash a = none := by
  unfold Bullshark.onTimerFired tryEmitForWave
  simp only [lateQc, hev] at hgood
  split
  · simp
  rename_i wave hwave
  dsimp only
  split
  · simp
  rename_i hnew
  split
  · simp
  · simp
  rename_i set hset
  split
  · simp
  · simp [armSlowTimer]
  rename_i d hd
  simp only [hwave, hset, hnew, hd, not_false_eq_true, decide_true, Bool.true_and] at hgood
  have hslow : ∀ o : Result WaveBook, o.state.emitted = call.pre.waves.emitted →
      (∀ a ∈ o.actions, microQcHash a = none) →
      ∀ a ∈ (o.andThen (emitCommitted cr d.anchorHash call.ctx)).actions, microQcHash a = none := by
    intro o hemitted hacts
    cases hr : o.result with
    | error e => simp [Outcome.andThen_of_error hr, Outcome.actions, hr]
    | ok acts =>
      simp only [Outcome.actions, hr] at hacts
      rw [Outcome.andThen_of_ok hr, emitCommitted_eq, hemitted]
      cases hqc : freshQc cr d.anchorHash call.ctx call.pre.waves.emitted with
      | error e => simp [Outcome.actions, Except.map]
      | ok qc =>
        cases qc with
        | none => simpa [Outcome.actions, Except.map] using hacts
        | some qc => simp [hqc] at hgood
  split
  · exact hslow _ rfl (by simp)
  · exact hslow _ rfl (by simp [microQcHash])

theorem exec_noMicro (hev : ∀ cv, call.event ≠ some (.certifiedVertexReceived cv))
    (hgood : lateQc cr call = false) :
    ∀ a ∈ (StateMachine.exec cr call.input call.pre).actions, microQcHash a = none := by
  have hlayers : LayersSteady cr call (fun _ _ acts _ => ∀ a ∈ acts, microQcHash a = none)
      (fun _ => ()) := by
    refine ⟨?_, ?_, ?_⟩
    · intro sm f _ hf
      exact Simulation.Steady.single (vertex_noMicro (hf.steady sm.vertices))
    · intro sm f hsm hf
      apply Simulation.Steady.single
      rw [StateMachine.onWaves, Outcome.lift_actions, hsm]
      cases hf with
      | certified cv h => exact absurd h (hev cv)
      | microQc qc h => simp [onMicroQcAssembled]
      | timer id h => exact onTimerFired_noMicro h hgood
    · intro sm f hsm hf
      apply Simulation.Steady.single
      rw [StateMachine.onMacros, Outcome.lift_actions, hsm]
      exact handled_noMicro hf.handled
  obtain ⟨acts, hpath, hacts⟩ := hlayers.exec.actions
  have hall := hpath.forall_of_move (R := fun _ => True) (A := fun a => microQcHash a = none)
    fun _ _ _ _ hm => ⟨fun _ _ => trivial, hm⟩
  exact fun a ha => hall.2 a (hacts a ha)

theorem exec_pushed (hlate : lateQc cr call = false) (hlost : lostWindow cr call = false) :
    call.pushed cr =
      (StateMachine.exec cr call.input call.pre).actions.filterMap microQcHash := by
  by_cases hev : ∃ cv, call.event = some (.certifiedVertexReceived cv)
  · obtain ⟨cv, hev⟩ := hev
    exact (pushed_certified hev hlost).symm
  · have hno : ∀ cv, call.event ≠ some (.certifiedVertexReceived cv) :=
      fun cv h => hev ⟨cv, h⟩
    rw [pushed_other hno, filterMap_noMicro (exec_noMicro hno hlate)]

end Call

def microQcsIn (cr : Crypto) (cfg : Config) (self : ValidatorId) (is : List StateMachine.Input) :
    List Hash32 :=
  (StateMachine.actions cr cfg self is).filterMap microQcHash

/-- The micro QCs emitted in a run are those pushed, in order, and the ring holds the ones
since the last window closed. -/
def MicroQcsReachRing (cr : Crypto) (cfg : Config) (self : ValidatorId)
    (is : List StateMachine.Input) : Prop :=
  pushedIn cr cfg self is = microQcsIn cr cfg self is ∧
    (StateMachine.reached cr cfg self is).macros.microRing =
      ringAfter cfg.macroFin.macroWindowW [] (microQcsIn cr cfg self is)

/-- Every micro QC reaches L3, in runs where no timer brings one and no window is lost. -/
theorem micro_qcs_reach_ring (cr : Crypto) (cfg : Config) (self : ValidatorId)
    (is : List StateMachine.Input)
    (hlate : ∀ call ∈ StateMachine.run cr cfg self is, lateQc cr call = false)
    (hlost : ∀ call ∈ StateMachine.run cr cfg self is, lostWindow cr call = false) :
    MicroQcsReachRing cr cfg self is := by
  have hall := Trace.invariant (StateMachine.exec cr)
    (fun call => lateQc cr call = false ∧ lostWindow cr call = false)
    (fun hist sm => sm.cfg = cfg ∧
      hist.flatMap (NodeCall.pushed cr) =
        (Trace.emitted (StateMachine.exec cr) hist).filterMap microQcHash ∧
      sm.macros.microRing =
        ringAfter cfg.macroFin.macroWindowW [] (hist.flatMap (NodeCall.pushed cr)))
    (StateMachine.new cfg self) ⟨rfl, rfl, rfl⟩ ?_ is fun c hc => ⟨hlate c hc, hlost c hc⟩
  · obtain ⟨-, hpushed, hring⟩ := hall
    exact ⟨hpushed, hring.trans (congrArg _ hpushed)⟩
  intro hist sm i hinv hgood
  obtain ⟨hcfg, hpushed, hring⟩ := hinv
  refine ⟨(exec_cfg cr ⟨sm, i⟩).trans hcfg, ?_, ?_⟩
  · rw [List.flatMap_append, List.flatMap_singleton, Trace.emitted_append,
      Trace.emitted_singleton, List.filterMap_append, hpushed, Trace.outcome,
      exec_pushed hgood.1 hgood.2]
  · rw [exec_ring cr ⟨sm, i⟩, List.flatMap_append, List.flatMap_singleton, ringAfter_append,
      ← hring, ← hcfg]

section Devnet
open Devnet

def shortcutRun : List StateMachine.Input :=
  Arrival.inputs (ports 3 0) [] ((verticesUpTo 5).map .vertex)

theorem micro_qcs_reach_ring_shortcut :
    microQcsIn openCrypto Config.defaultTable171 ⟨3⟩ shortcutRun = [vertexHash 4 0] ∧
      MicroQcsReachRing openCrypto Config.defaultTable171 ⟨3⟩ shortcutRun :=
  ⟨by decide, micro_qcs_reach_ring openCrypto Config.defaultTable171 ⟨3⟩ shortcutRun
    (by decide) (by decide)⟩

/-- It receives fewer of the vertices after round 4: only the window of the slow path has
a quorum for the anchor of wave 1, whose timer then fires. -/
def slowPathRun : List StateMachine.Input :=
  Arrival.inputs (ports 3 0) []
    ((verticesUpTo 4 ++ [vertexAt 5 0, vertexAt 5 1, vertexAt 6 0, vertexAt 6 1,
      vertexAt 7 2]).map .vertex ++ [.timer 1])

/-- The micro QC of the slow path is broadcast, and not pushed. -/
theorem slow_path_qc_lost :
    ¬ MicroQcsReachRing openCrypto Config.defaultTable171 ⟨3⟩ slowPathRun := by
  rintro ⟨hpushed, -⟩
  have hempty : pushedIn openCrypto Config.defaultTable171 ⟨3⟩ slowPathRun = [] := by
    decide
  have hone : microQcsIn openCrypto Config.defaultTable171 ⟨3⟩ slowPathRun = [vertexHash 4 0] := by
    decide
  rw [hempty, hone] at hpushed
  cases hpushed

end Devnet
end LuaDag
