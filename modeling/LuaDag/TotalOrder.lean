import LuaDag.MicroRing
import LuaDag.WaveOrder
import LuaDag.Segments

/-! Total order. A node that commits its waves in order emits the micro QCs of an initial
segment of all waves that can be committed, and two such nodes emit prefixes of one
another. -/
namespace LuaDag
open MacroFin Bullshark

/- Calls. -/

/-- The call commits a wave only after all lower ones that can ever be committed, and from a
view that holds the past of its anchor. -/
structure InOrder (cr : Crypto) (vs : List CertifiedVertex) (call : NodeCall) : Prop where
  waves : ∀ w a, call.commits cr w a → ∀ w' < w, LiveWave cr call.pre.cfg call.ctx vs w' →
    w' ∈ call.pre.waves.committedWaves ∨ ∃ a', call.commits cr w' a'
  past : ∀ w a, call.commits cr w a → PastHeld vs a call.ctx.dag

section Calls
variable {cr : Crypto} {vs held : List CertifiedVertex} {set : ValidatorSet}
  {beacon : Hash32} {ctx ref : HostContext} {call : NodeCall}

theorem lowerLayers_idle (cv : CertifiedVertex) (hoff : call.pre.vertices.started = false)
    {acts : List Action}
    (hacts : (Bullshark.onCertifiedVertex cr call.pre.cfg cv call.ctx call.pre.waves).result =
      .ok acts) :
    (lowerLayers cr call cv).result = .ok acts ∧
      (lowerLayers cr call cv).state.waves =
        (Bullshark.onCertifiedVertex cr call.pre.cfg cv call.ctx call.pre.waves).state ∧
      (lowerLayers cr call cv).state.vertices = VertexCert.recordCert call.pre.vertices cv := by
  have hidle : VertexCert.onCertifiedVertex cr call.pre.cfg call.ctx cv call.pre.vertices =
      .quiet (VertexCert.recordCert call.pre.vertices cv) := by
    have hoff' : (VertexCert.recordCert call.pre.vertices cv).started = false := hoff
    simp [VertexCert.onCertifiedVertex, VertexCert.maybeAdvance, VertexCert.maybeAdvanceWith, hoff']
  have hquiet : (call.pre.onVertices
      (VertexCert.onCertifiedVertex cr call.pre.cfg call.ctx cv)).result = .ok [] := by
    simp only [StateMachine.onVertices, hidle]
    rfl
  have hlower : lowerLayers cr call cv = (call.pre.onVertices
      (VertexCert.onCertifiedVertex cr call.pre.cfg call.ctx cv)).andThen fun sm =>
        sm.onWaves (Bullshark.onCertifiedVertex cr sm.cfg cv call.ctx) := rfl
  rw [hlower, Outcome.andThen_of_ok hquiet]
  refine ⟨?_, rfl, ?_⟩
  · have hres : ((call.pre.onVertices (VertexCert.onCertifiedVertex cr call.pre.cfg call.ctx
        cv)).state.onWaves (Bullshark.onCertifiedVertex cr call.pre.cfg cv call.ctx)).result =
        .ok acts := hacts
    exact congrArg (Except.map ([] ++ ·)) hres
  · simp only [StateMachine.onVertices, StateMachine.onWaves, hidle]
    rfl

theorem exec_lower {cv : CertifiedVertex} {acts : List Action}
    (hev : call.event = some (.certifiedVertexReceived cv))
    (hacts : (lowerLayers cr call cv).result = .ok acts) :
    (StateMachine.exec cr call.input call.pre).state.waves =
        (lowerLayers cr call cv).state.waves ∧
      (StateMachine.exec cr call.input call.pre).state.vertices =
        (lowerLayers cr call cv).state.vertices := by
  have hbind : call.pre.onCertifiedVertex cr call.ctx cv =
      (lowerLayers cr call cv).bind fun actions sm =>
        sm.onMacros (onLocalMicroQcs cr sm.cfg call.ctx actions) := rfl
  rw [exec_certified hev, hbind, Outcome.bind_of_ok hacts]
  exact ⟨rfl, rfl⟩

theorem exec_timer {id : TimerId} {acts acts' : List Action}
    (hev : call.event = some (.timerFired id)) (hoff : call.pre.vertices.roundTimer = none)
    (hacts : (Bullshark.onTimerFired cr call.pre.cfg id call.ctx call.pre.waves).result = .ok acts)
    (hacts' : (MacroFin.onTimerFired cr call.pre.cfg call.ctx id call.pre.macros).result =
      .ok acts') :
    (StateMachine.exec cr call.input call.pre).result = .ok (acts ++ acts' ++ []) ∧
      (StateMachine.exec cr call.input call.pre).state.waves =
        (Bullshark.onTimerFired cr call.pre.cfg id call.ctx call.pre.waves).state ∧
      (StateMachine.exec cr call.input call.pre).state.vertices = call.pre.vertices := by
  have hexec : StateMachine.exec cr call.input call.pre = call.pre.onTimerFired cr call.ctx id := by
    obtain ⟨sm, req, ctx⟩ := call
    cases req with
    | genesis => cases hev
    | event e =>
      cases hev
      rfl
  let two : Result StateMachine :=
    (call.pre.onWaves (Bullshark.onTimerFired cr call.pre.cfg id call.ctx)).andThen fun sm =>
      sm.onMacros (MacroFin.onTimerFired cr sm.cfg call.ctx id)
  have htwo : two.result = .ok (acts ++ acts') ∧
      two.state.waves = (Bullshark.onTimerFired cr call.pre.cfg id call.ctx call.pre.waves).state ∧
      two.state.vertices = call.pre.vertices := by
    have hone : (call.pre.onWaves (Bullshark.onTimerFired cr call.pre.cfg id call.ctx)).result =
        .ok acts := hacts
    simp only [two]
    rw [Outcome.andThen_of_ok hone]
    exact ⟨congrArg (Except.map (acts ++ ·)) hacts', rfl, rfl⟩
  have hquiet : VertexCert.onTimerFired two.state.cfg call.ctx id two.state.vertices =
      .quiet two.state.vertices := by
    have hnone : two.state.vertices.roundTimer ≠ some id := by
      rw [htwo.2.2, hoff]
      exact fun heq => by cases heq
    simp only [VertexCert.onTimerFired, if_pos hnone]
  have hthree : call.pre.onTimerFired cr call.ctx id = two.andThen fun sm =>
      sm.onVertices (VertexCert.onTimerFired sm.cfg call.ctx id) := rfl
  rw [hexec, hthree, Outcome.andThen_of_ok htwo.1]
  simp only [StateMachine.onVertices, hquiet]
  exact ⟨rfl, htwo.2.1, htwo.2.2⟩

/- The timers of L3 return. -/

theorem SteadyPorts.beaconForHeight (h : SteadyPorts vs set beacon ctx) (book : MacroBook)
    (height : Height) :
    ∃ b, MacroFin.beaconForHeight book (ctx.holding held) height = .ok b := by
  unfold MacroFin.beaconForHeight
  split
  · exact ⟨_, rfl⟩
  · exact ⟨beacon, h.beacon⟩

theorem SteadyPorts.onBackupTimer (h : SteadyPorts vs set beacon ctx) (height : Height)
    (book : MacroBook) :
    ∃ acts, (MacroFin.onBackupTimer cr (ctx.holding held) height book).result = .ok acts := by
  unfold MacroFin.onBackupTimer
  dsimp only
  split
  · exact ⟨[], rfl⟩
  split
  · exact ⟨[], rfl⟩
  rename_i cand _
  obtain ⟨b, hb⟩ := @SteadyPorts.beaconForHeight vs held set beacon ctx h
    { book with timers := book.timers.clearBackup height } height
  obtain ⟨schedule, hsched⟩ := @vrfSortition_ok cr set b height book.reputation h.size.1
  rw [h.activeSet]
  dsimp only
  rw [hb]
  dsimp only
  rw [hsched]
  dsimp only
  split
  · obtain ⟨proof, hproof⟩ := h.prove (vrfAlpha b height book.selfId)
    have hproof' : (ctx.holding held).vrfProve (vrfAlpha b height book.selfId) = .ok proof := hproof
    unfold propose
    simp only [hproof']
    exact ⟨_, rfl⟩
  · exact ⟨[], rfl⟩

theorem SteadyPorts.castModeBVote (h : SteadyPorts vs set beacon ctx) (cfg : Config)
    (height : Height) (cp : MacroCheckpoint) (book : MacroBook) :
    ∃ acts, (MacroFin.castModeBVote cr cfg (ctx.holding held) height cp book).result =
      .ok acts := by
  obtain ⟨b, hb⟩ := @SteadyPorts.beaconForHeight vs held set beacon ctx h book height
  have hsize : toU32 set.entries.length = some set.entries.length := if_pos h.size.2
  obtain ⟨assign, hassign⟩ : ∃ assign, subnetAssign cfg set b = .ok assign := by
    simp [subnetAssign, hsize]
  obtain ⟨mode, hmode⟩ : ∃ mode, activeMode book cfg set height = .ok mode := by
    unfold activeMode
    split
    · exact ⟨_, rfl⟩
    · rw [hsize]
      exact ⟨_, rfl⟩
  unfold MacroFin.castModeBVote
  rw [h.activeSet]
  dsimp only
  rw [hb]
  dsimp only
  rw [hassign]
  dsimp only
  rw [hmode]
  exact ⟨_, rfl⟩

theorem SteadyPorts.onTimerFired (h : SteadyPorts vs set beacon ctx) (cfg : Config) (id : TimerId)
    (book : MacroBook) :
    ∃ acts, (MacroFin.onTimerFired cr cfg (ctx.holding held) id book).result = .ok acts := by
  unfold MacroFin.onTimerFired
  split
  · exact h.onBackupTimer _ book
  split
  · unfold onModeBTimer
    extract_lets cleared done active
    split
    · exact ⟨[], rfl⟩
    split
    · exact ⟨[], rfl⟩
    split
    · exact ⟨[], rfl⟩
    · exact h.castModeBVote cfg _ _ _
  · exact ⟨[], rfl⟩

theorem SteadyPorts.lostWindow (h : SteadyPorts vs set beacon ctx)
    (hctx : call.ctx = ctx.holding held) : LuaDag.lostWindow cr call = false := by
  have hset : LuaDag.activeSet call.ctx = .ok set := by
    rw [hctx]
    exact h.activeSet
  have hbeacon : call.ctx.beacon = .ok beacon := by
    rw [hctx]
    exact h.beacon
  obtain ⟨proof, hproof⟩ := h.prove (vrfAlpha beacon call.pre.macros.nextHeight
    call.pre.macros.selfId)
  have hprove : call.ctx.vrfProve (vrfAlpha beacon call.pre.macros.nextHeight
      call.pre.macros.selfId) = .ok proof := by
    rw [hctx]
    exact hproof
  have hsize : decide (set.entries.length < 2) = false := decide_eq_false (Nat.not_lt.mpr h.size.1)
  unfold LuaDag.lostWindow
  rw [hset, hbeacon]
  split
  · rename_i hs hb
    cases hs
    cases hb
    simp only [hprove, hsize, Except.isOk, Except.toBool, Bool.not_true, Bool.and_false,
      Bool.or_false]
  · rfl

structure InStep (cr : Crypto) (cfg : Config) (ref : HostContext) (vs : List CertifiedVertex)
    (ws : List WaveId) (sent : List Hash32) (sm : StateMachine) : Prop where
  cfg_eq : sm.cfg = cfg
  off : sm.vertices.started = false ∧ sm.vertices.roundTimer = none
  ordered : Ordered (waveQc cr cfg ref vs) ws sent sm.waves
  initial : Segments.Initial (LiveWave cr cfg ref vs) ws

theorem InStep.notMem {cfg : Config} {ws : List WaveId} {sent : List Hash32} {sm : StateMachine}
    (h : InStep cr cfg ref vs ws sent sm) {w : WaveId} (hw : w ∉ sm.waves.committedWaves) :
    w ∉ ws := by
  rwa [h.ordered.committed, List.mem_toFinset] at hw

theorem LiveWave.ports {cfg : Config} {w : WaveId} (hlive : LiveWave cr cfg ctx vs w)
    (h : SteadyPorts vs set beacon ctx) (href : SteadyPorts vs set beacon ref)
    (hvs : Coherent vs) : LiveWave cr cfg ref vs w := by
  obtain ⟨a, ha⟩ := hlive
  exact ⟨a, canCommit_all h href hvs (List.Subset.refl _) ha⟩

theorem InStep.live {cfg : Config} {ws : List WaveId} {sent : List Hash32} {w : WaveId}
    (hstep : InStep cr cfg ref vs ws sent call.pre)
    (h : SteadyPorts vs set beacon ctx) (href : SteadyPorts vs set beacon ref)
    (hvs : Coherent vs) (hctx : call.ctx = ctx.holding held) (hlive : LiveWave cr cfg ref vs w) :
    LiveWave cr call.pre.cfg call.ctx vs w := by
  have hown : LiveWave cr cfg ctx vs w := hlive.ports href h hvs
  rw [hstep.cfg_eq, hctx]
  exact hown

/-- What a call commits is new, and can be committed from all of `vs`. -/
theorem InStep.fresh {cfg : Config} {ws : List WaveId} {sent : List Hash32} {w : WaveId}
    {a : Hash32} (hstep : InStep cr cfg ref vs ws sent call.pre)
    (h : SteadyPorts vs set beacon ctx) (href : SteadyPorts vs set beacon ref)
    (hvs : Coherent vs) (hsub : held ⊆ vs) (hctx : call.ctx = ctx.holding held)
    (hcommits : call.commits cr w a) : LiveWave cr cfg ref vs w ∧ w ∉ ws := by
  obtain ⟨hnew, t, -, hcan⟩ := hcommits
  rw [hstep.cfg_eq, hctx] at hcan
  exact ⟨⟨a, canCommit_all h href hvs hsub hcan⟩, hstep.notMem hnew⟩

theorem InStep.extend {cfg : Config} {ws ns : List WaveId} {sent : List Hash32}
    (hstep : InStep cr cfg ref vs ws sent call.pre)
    (h : SteadyPorts vs set beacon ctx) (href : SteadyPorts vs set beacon ref)
    (hvs : Coherent vs) (hsub : held ⊆ vs) (hctx : call.ctx = ctx.holding held)
    (hgood : InOrder cr vs call) (hsorted : ns.Pairwise (· < ·))
    (hns : ∀ w, w ∈ ns ↔ ∃ a, call.commits cr w a) :
    Segments.Initial (LiveWave cr cfg ref vs) (ws ++ ns) := by
  have hfresh : ∀ n ∈ ns, LiveWave cr cfg ref vs n ∧ n ∉ ws := by
    intro n hn
    obtain ⟨a, hcommits⟩ := (hns n).mp hn
    exact hstep.fresh h href hvs hsub hctx hcommits
  refine hstep.initial.append hsorted (fun n hn => (hfresh n hn).1) (fun n hn => (hfresh n hn).2) ?_
  intro n hn x hx hlive
  obtain ⟨a, hcommits⟩ := (hns n).mp hn
  cases hgood.waves n a hcommits x hx (hstep.live h href hvs hctx hlive) with
  | inl hold =>
    rw [hstep.ordered.committed, List.mem_toFinset] at hold
    exact Or.inl hold
  | inr hsame => exact Or.inr ((hns x).mpr hsame)

theorem InOrder.pastHeld (hgood : InOrder cr vs call) (hctx : call.ctx = ctx.holding held)
    {w : WaveId} {a : Hash32} (hcommits : call.commits cr w a) :
    PastHeld vs a (LiveDag.of held).view := by
  have hheld := hgood.past w a hcommits
  rw [hctx] at hheld
  exact hheld

theorem commits_certified {cv : CertifiedVertex}
    (hev : call.event = some (.certifiedVertexReceived cv)) (w : WaveId) (a : Hash32) :
    call.commits cr w a ↔ w ≤ waveOfRound cv.vertex.round ∧
      w ∉ call.pre.waves.committedWaves ∧ CanCommit cr call.pre.cfg call.ctx w false a := by
  simp only [NodeCall.commits, NodeCall.tries, hev]
  constructor
  · rintro ⟨hnew, t, ⟨hle, rfl⟩, hcan⟩
    exact ⟨hle, hnew, hcan⟩
  · rintro ⟨hle, hnew, hcan⟩
    exact ⟨hnew, false, ⟨hle, rfl⟩, hcan⟩

open Classical in
/-- A certified vertex: a pass over all waves up to its own. -/
theorem InStep.vertex {cfg : Config} {ws : List WaveId} {sent : List Hash32}
    {cv : CertifiedVertex} (hstep : InStep cr cfg ref vs ws sent call.pre)
    (h : SteadyPorts vs set beacon ctx) (href : SteadyPorts vs set beacon ref)
    (hvs : Coherent vs) (hsub : held ⊆ vs) (hctx : call.ctx = ctx.holding held)
    (hev : call.event = some (.certifiedVertexReceived cv)) (hgood : InOrder cr vs call) :
    ∃ ws', InStep cr cfg ref vs ws'
      (sent ++ (StateMachine.exec cr call.input call.pre).actions.filterMap microQcHash)
      (StateMachine.exec cr call.input call.pre).state := by
  have hcommits : ∀ w a, call.commits cr w a ↔ w ≤ waveOfRound cv.vertex.round ∧
      w ∉ call.pre.waves.committedWaves ∧ CanCommit cr cfg (ctx.holding held) w false a := by
    intro w a
    rw [commits_certified hev, hstep.cfg_eq, hctx]
  have hpast : ∀ w ∈ List.range (waveOfRound cv.vertex.round + 1), ∀ a,
      w ∉ call.pre.waves.committedWaves → CanCommit cr cfg (ctx.holding held) w false a →
      PastHeld vs a (LiveDag.of held).view := by
    intro w hw a hnew hcan
    exact hgood.pastHeld hctx
      ((hcommits w a).mpr ⟨Nat.le_of_lt_succ (List.mem_range.mp hw), hnew, hcan⟩)
  obtain ⟨acts, hacts, hord⟩ := @Ordered.pass cr cfg vs held set beacon ctx ref ws sent h href hvs
    hsub call.pre.waves.committedWaves (List.range (waveOfRound cv.vertex.round + 1))
    List.nodup_range hpast (.quiet call.pre.waves) [] rfl (fun w _ => Iff.rfl)
    (by simpa using hstep.ordered)
  have hpass : Bullshark.onCertifiedVertex cr call.pre.cfg cv call.ctx call.pre.waves =
      (List.range (waveOfRound cv.vertex.round + 1)).foldl (fun o w => o.andThen fun book =>
        if w ∈ book.committedWaves then .quiet book
        else tryEmitForWave cr w cfg (ctx.holding held) false book) (.quiet call.pre.waves) := by
    rw [hstep.cfg_eq, hctx]
    rfl
  rw [← hpass] at hacts hord
  -- L1 is not started and stays idle, and L3 adds no micro QC
  obtain ⟨hlow, hwaves, hvert⟩ := lowerLayers_idle cv hstep.off.1 hacts
  obtain ⟨acts', hres, hnone, -⟩ := certified_ok hev hlow (h.lostWindow hctx)
  obtain ⟨hw, hv⟩ := exec_lower hev hlow
  refine ⟨ws ++ (List.range (waveOfRound cv.vertex.round + 1)).filter fun w =>
    decide (Commits cr cfg (ctx.holding held) call.pre.waves.committedWaves w),
    (exec_cfg cr call).trans hstep.cfg_eq, ?_, ?_, ?_⟩
  · rw [hv, hvert]
    exact hstep.off
  · rw [hw, hwaves]
    simpa only [Outcome.actions, hres, List.filterMap_append, filterMap_noMicro hnone,
      List.append_nil] using hord
  · refine hstep.extend h href hvs hsub hctx hgood (List.pairwise_lt_range.filter _) ?_
    intro w
    rw [List.mem_filter, List.mem_range, Nat.lt_succ_iff, decide_eq_true_eq]
    simp only [Commits, hcommits, exists_and_left]

/-- L2 on a timer: one attempt with the wide window. -/
theorem InStep.fired {cfg : Config} {ws : List WaveId} {sent : List Hash32} {id : TimerId}
    (hstep : InStep cr cfg ref vs ws sent call.pre)
    (h : SteadyPorts vs set beacon ctx) (href : SteadyPorts vs set beacon ref)
    (hvs : Coherent vs) (hsub : held ⊆ vs) (hctx : call.ctx = ctx.holding held)
    (hev : call.event = some (.timerFired id)) (hgood : InOrder cr vs call) :
    ∃ acts ws',
      (Bullshark.onTimerFired cr call.pre.cfg id call.ctx call.pre.waves).result = .ok acts ∧
      Ordered (waveQc cr cfg ref vs) ws' (sent ++ acts.filterMap microQcHash)
        (Bullshark.onTimerFired cr call.pre.cfg id call.ctx call.pre.waves).state ∧
      Segments.Initial (LiveWave cr cfg ref vs) ws' := by
  rw [hstep.cfg_eq, hctx]
  unfold Bullshark.onTimerFired
  split
  · exact ⟨[], ws, rfl, by simpa using hstep.ordered, hstep.initial⟩
  rename_i w hw
  let cleared : WaveBook := { call.pre.waves with
    timerToWave := call.pre.waves.timerToWave.erase id
    slowTimerByWave := call.pre.waves.slowTimerByWave.erase w }
  have hord : Ordered (waveQc cr cfg ref vs) ws sent cleared := hstep.ordered.idle rfl
  by_cases hold : w ∈ call.pre.waves.committedWaves
  · unfold tryEmitForWave
    rw [if_pos hold]
    exact ⟨[], ws, rfl, by simpa using hord, hstep.initial⟩
  by_cases hcan : ∃ a, CanCommit cr cfg (ctx.holding held) w true a
  · obtain ⟨a, ha⟩ := hcan
    have hcommits : call.commits cr w a := by
      simp only [NodeCall.commits, NodeCall.tries, hev, hstep.cfg_eq, hctx]
      exact ⟨hold, true, ⟨hw, rfl⟩, ha⟩
    have honly : ∀ x, x ∈ [w] ↔ ∃ a, call.commits cr x a := by
      intro x
      rw [List.mem_singleton]
      constructor
      · rintro rfl
        exact ⟨a, hcommits⟩
      · rintro ⟨-, -, t, htries, -⟩
        simp only [NodeCall.tries, hev, hw, Option.some.injEq] at htries
        exact htries.1.symm
    obtain ⟨acts, hacts, hnext⟩ :=
      hord.commit h href hvs hsub hold ha (hgood.pastHeld hctx hcommits)
    exact ⟨acts, ws ++ [w], hacts, hnext,
      hstep.extend h href hvs hsub hctx hgood (List.pairwise_singleton _ _) honly⟩
  · obtain ⟨acts, hacts, hmicro, hcore⟩ :=
      h.attempt_idle hsub (fun a ha => hcan ⟨a, ha⟩) cleared
    exact ⟨acts, ws, hacts, by simpa [hmicro] using hord.idle hcore, hstep.initial⟩

theorem InStep.timer {cfg : Config} {ws : List WaveId} {sent : List Hash32} {id : TimerId}
    (hstep : InStep cr cfg ref vs ws sent call.pre)
    (h : SteadyPorts vs set beacon ctx) (href : SteadyPorts vs set beacon ref)
    (hvs : Coherent vs) (hsub : held ⊆ vs) (hctx : call.ctx = ctx.holding held)
    (hev : call.event = some (.timerFired id)) (hgood : InOrder cr vs call) :
    ∃ ws', InStep cr cfg ref vs ws'
      (sent ++ (StateMachine.exec cr call.input call.pre).actions.filterMap microQcHash)
      (StateMachine.exec cr call.input call.pre).state := by
  obtain ⟨acts, ws', hacts, hord, hinit⟩ := hstep.fired h href hvs hsub hctx hev hgood
  obtain ⟨acts', hacts'⟩ := @SteadyPorts.onTimerFired cr vs held set beacon ctx h call.pre.cfg id
    call.pre.macros
  rw [← hctx] at hacts'
  have hnone : ∀ a ∈ acts', microQcHash a = none := by
    have htimer : MacroHandler cr call (MacroFin.onTimerFired cr call.pre.cfg call.ctx id) :=
      .timer id hev
    have hhandled := handled_noMicro htimer.handled
    simpa only [Outcome.actions, hacts'] using hhandled
  obtain ⟨hres, hw, hv⟩ := exec_timer hev hstep.off.2 hacts hacts'
  refine ⟨ws', (exec_cfg cr call).trans hstep.cfg_eq, ?_, ?_, hinit⟩
  · rw [hv]
    exact hstep.off
  · rw [hw]
    simpa only [Outcome.actions, hres, List.filterMap_append, filterMap_noMicro hnone,
      List.append_nil, List.filterMap_nil] using hord

end Calls

/- Runs. -/

theorem inStep_run {cr : Crypto} {vs : List CertifiedVertex} {set : ValidatorSet}
    {beacon : Hash32} {ctx ref : HostContext} {cfg : Config} (h : SteadyPorts vs set beacon ctx)
    (href : SteadyPorts vs set beacon ref) (hvs : Coherent vs) (ds : List Arrival) :
    ∀ (held : List CertifiedVertex) (sm : StateMachine) (ws : List WaveId) (sent : List Hash32),
      InStep cr cfg ref vs ws sent sm → held ⊆ vs → (∀ cv, Arrival.vertex cv ∈ ds → cv ∈ vs) →
      (∀ call ∈ Trace.calls (StateMachine.exec cr) sm (Arrival.inputs ctx held ds),
        InOrder cr vs call) →
      ∃ ws', InStep cr cfg ref vs ws'
        (sent ++ (Trace.emitted (StateMachine.exec cr) (Trace.calls (StateMachine.exec cr) sm
          (Arrival.inputs ctx held ds))).filterMap microQcHash)
        (Trace.final (StateMachine.exec cr) sm (Arrival.inputs ctx held ds)) := by
  induction ds with
  | nil =>
    intro held sm ws sent hstep _ _ _
    exact ⟨ws, by simpa [Arrival.inputs, Trace.calls, Trace.final] using hstep⟩
  | cons d ds ih =>
    intro held sm ws sent hstep hsub hin hgood
    have hrest : ∀ cv, Arrival.vertex cv ∈ ds → cv ∈ vs :=
      fun cv hcv => hin cv (List.mem_cons_of_mem _ hcv)
    cases d with
    | vertex cv =>
      have hsub' : held ++ [cv] ⊆ vs := by
        intro v hv
        cases List.mem_append.mp hv with
        | inl hold => exact hsub hold
        | inr hnew => exact List.mem_singleton.mp hnew ▸ hin cv (by simp)
      obtain ⟨ws', hnext⟩ := @InStep.vertex cr vs (held ++ [cv]) set beacon ctx ref
        ⟨sm, (.event (.certifiedVertexReceived cv), ctx.holding (held ++ [cv]))⟩ cfg ws sent cv
        hstep h href hvs hsub' rfl rfl (hgood _ (by simp [Arrival.inputs, Trace.calls]))
      obtain ⟨ws'', hlast⟩ := ih (held ++ [cv]) _ ws' _ hnext hsub' hrest
        fun call hcall => hgood call (by simp [Arrival.inputs, Trace.calls, hcall])
      refine ⟨ws'', ?_⟩
      simpa [Arrival.inputs, Trace.calls, Trace.final, Trace.emitted, Trace.outcome] using hlast
    | timer id =>
      obtain ⟨ws', hnext⟩ := @InStep.timer cr vs held set beacon ctx ref
        ⟨sm, (.event (.timerFired id), ctx.holding held)⟩ cfg ws sent id
        hstep h href hvs hsub rfl rfl (hgood _ (by simp [Arrival.inputs, Trace.calls]))
      obtain ⟨ws'', hlast⟩ := ih held _ ws' _ hnext hsub hrest
        fun call hcall => hgood call (by simp [Arrival.inputs, Trace.calls, hcall])
      refine ⟨ws'', ?_⟩
      simpa [Arrival.inputs, Trace.calls, Trace.final, Trace.emitted, Trace.outcome] using hlast

/-- Two nodes that commit in order emit prefixes of one another. -/
theorem total_order (cr : Crypto) (cfg : Config) (vs : List CertifiedVertex) (hvs : Coherent vs)
    (set : ValidatorSet) (beacon : Hash32) (self self' : ValidatorId) (ctx ctx' : HostContext)
    (hports : SteadyPorts vs set beacon ctx) (hports' : SteadyPorts vs set beacon ctx')
    (ds ds' : List Arrival) (hds : ∀ cv, Arrival.vertex cv ∈ ds → cv ∈ vs)
    (hds' : ∀ cv, Arrival.vertex cv ∈ ds' → cv ∈ vs)
    (hgood : ∀ call ∈ StateMachine.run cr cfg self (Arrival.inputs ctx [] ds), InOrder cr vs call)
    (hgood' : ∀ call ∈ StateMachine.run cr cfg self' (Arrival.inputs ctx' [] ds'),
      InOrder cr vs call) :
    microQcsIn cr cfg self (Arrival.inputs ctx [] ds) <+:
        microQcsIn cr cfg self' (Arrival.inputs ctx' [] ds') ∨
      microQcsIn cr cfg self' (Arrival.inputs ctx' [] ds') <+:
        microQcsIn cr cfg self (Arrival.inputs ctx [] ds) := by
  have hnew : ∀ me, InStep cr cfg ctx vs [] [] (StateMachine.new cfg me) :=
    fun me => ⟨rfl, ⟨rfl, rfl⟩, ⟨rfl, rfl, rfl⟩, Segments.Initial.nil⟩
  obtain ⟨ws, hws⟩ := inStep_run hports hports hvs ds [] _ [] [] (hnew self) (by simp) hds hgood
  obtain ⟨ws', hws'⟩ :=
    inStep_run hports' hports hvs ds' [] _ [] [] (hnew self') (by simp) hds' hgood'
  have hsent : microQcsIn cr cfg self (Arrival.inputs ctx [] ds) =
      ws.foldl (emitWave (waveQc cr cfg ctx vs)) [] := hws.ordered.order
  have hsent' : microQcsIn cr cfg self' (Arrival.inputs ctx' [] ds') =
      ws'.foldl (emitWave (waveQc cr cfg ctx vs)) [] := hws'.ordered.order
  rw [hsent, hsent']
  cases hws.initial.comparable hws'.initial with
  | inl hpre => exact Or.inl (Segments.prefix_foldl (prefix_emitWave _) hpre [])
  | inr hpre => exact Or.inr (Segments.prefix_foldl (prefix_emitWave _) hpre [])

section Devnet
open Devnet

/- Two nodes that receive the rounds up to 9, the second one round 5 last. -/

def roomyPorts (i : Nat) : HostContext := { ports i 0 with fuel := 1000 }

theorem roomyPorts_steady (i : Nat) :
    SteadyPorts (verticesUpTo 9) validators ⟨0⟩ (roomyPorts i) where
  setFor := rfl
  size := by decide
  beacon := rfl
  prove := fun _ => ⟨_, rfl⟩
  room := by
    have hroom : 2 * (hashesOf (verticesUpTo 9)).length ≤ 1000 := by decide
    exact hroom

def lateRound : List CertifiedVertex :=
  (verticesUpTo 9).filter (fun cv => decide (cv.vertex.round ≠ 5)) ++
    (List.range 3).map (vertexAt 5)

/-- Wave 2 is committed before wave 1 by a node that waits for round 5. -/
theorem orders_differ :
    Coherent (verticesUpTo 9) ∧ lateRound ⊆ verticesUpTo 9 ∧
      SteadyPorts (verticesUpTo 9) validators ⟨0⟩ (roomyPorts 1) ∧
      SteadyPorts (verticesUpTo 9) validators ⟨0⟩ (roomyPorts 2) ∧
      ¬ (microQcsIn openCrypto config ⟨1⟩
            (Arrival.inputs (roomyPorts 1) [] ((verticesUpTo 9).map .vertex)) <+:
          microQcsIn openCrypto config ⟨2⟩
            (Arrival.inputs (roomyPorts 2) [] (lateRound.map .vertex)) ∨
        microQcsIn openCrypto config ⟨2⟩
            (Arrival.inputs (roomyPorts 2) [] (lateRound.map .vertex)) <+:
          microQcsIn openCrypto config ⟨1⟩
            (Arrival.inputs (roomyPorts 1) [] ((verticesUpTo 9).map .vertex))) := by
  have hone : microQcsIn openCrypto config ⟨1⟩
      (Arrival.inputs (roomyPorts 1) [] ((verticesUpTo 9).map .vertex)) =
        [vertexHash 4 0, vertexHash 8 0] := by
    decide
  have htwo : microQcsIn openCrypto config ⟨2⟩
      (Arrival.inputs (roomyPorts 2) [] (lateRound.map .vertex)) =
        [vertexHash 8 0, vertexHash 4 0] := by
    decide
  refine ⟨coherent_upTo_nine, by decide, roomyPorts_steady 1, roomyPorts_steady 2, ?_⟩
  rw [hone, htwo]
  decide

/- Two validators, whose waves need a single supporter. -/

def pair : ValidatorSet := ⟨0, [entry 0, entry 1], 2⟩

def pairPorts (i : Nat) : HostContext := { ports i 0 with setFor := fun _ => .ok (some pair) }

def chain : List CertifiedVertex := (List.range 6).map (vertexAt · 0)

theorem chain_coherent : Coherent chain :=
  ⟨by decide, by decide, by decide⟩

theorem pairPorts_steady (i : Nat) : SteadyPorts chain pair ⟨0⟩ (pairPorts i) where
  setFor := rfl
  size := by decide
  beacon := rfl
  prove := fun _ => ⟨_, rfl⟩
  room := by
    have hroom : 2 * (hashesOf chain).length ≤ 200 := by decide
    exact hroom

def holdsPast (vs : List CertifiedVertex) (ref : HostContext) (dag : DagView) (a : Hash32) : Bool :=
  match closureOfAnchor a (ref.holding vs) with
  | .error _ => false
  | .ok order => vs.all fun v => decide (v.vertex.hash ∉ order) ||
      (match dag.vertex v.vertex.hash with
        | .ok (some _) => true
        | _ => false)

def inTurn (cr : Crypto) (vs : List CertifiedVertex) (ref : HostContext) (call : NodeCall) : Bool :=
  match call.event, call.ctx.setFor 0 with
  | some (.certifiedVertexReceived cv), .ok (some set) =>
    (List.range (waveOfRound cv.vertex.round + 1)).all fun w =>
      match tryCommitWave cr w call.pre.cfg set call.ctx false with
      | .ok (some d) => decide (w ∈ call.pre.waves.committedWaves) ||
          (decide (∀ w' < w, w' ∈ call.pre.waves.committedWaves) &&
            holdsPast vs ref call.ctx.dag d.anchorHash)
      | _ => true
  | _, _ => false

theorem pastHeld_of_holdsPast {vs : List CertifiedVertex} {ref : HostContext} {dag : DagView}
    {a : Hash32} (h : holdsPast vs ref dag a = true) : PastHeld vs a dag := by
  intro v hv hr
  unfold holdsPast at h
  split at h
  · cases h
  rename_i order horder
  have hin := (mem_closureOfAnchor horder v.vertex.hash).mpr hr
  have hheld := List.all_eq_true.mp h v hv
  rw [Bool.or_eq_true, decide_eq_true_eq] at hheld
  have hfound := hheld.resolve_left (not_not.mpr hin)
  split at hfound
  · rename_i u hu
    exact ⟨u, hu⟩
  · cases hfound

theorem inOrder_of_inTurn {cr : Crypto} {vs : List CertifiedVertex} {ref : HostContext}
    {call : NodeCall} (h : inTurn cr vs ref call = true) : InOrder cr vs call := by
  unfold inTurn at h
  split at h
  · rename_i cv set hev hset
    have hturn : ∀ w a, call.commits cr w a → (∀ w' < w, w' ∈ call.pre.waves.committedWaves) ∧
        PastHeld vs a call.ctx.dag := by
      intro w a hcommits
      rw [commits_certified hev] at hcommits
      obtain ⟨hle, hnew, set', d, hset', hd, rfl⟩ := hcommits
      cases hset.symm.trans hset'
      have hw := List.all_eq_true.mp h w (List.mem_range.mpr (Nat.lt_succ_of_le hle))
      simp only [hd, Bool.or_eq_true, Bool.and_eq_true, decide_eq_true_eq] at hw
      obtain ⟨hlower, hpast⟩ := hw.resolve_left hnew
      exact ⟨hlower, pastHeld_of_holdsPast hpast⟩
    exact ⟨fun w a hc w' hlt _ => Or.inl ((hturn w a hc).1 w' hlt), fun w a hc => (hturn w a hc).2⟩
  · cases h

def chainOrder (swapped : Bool) : List Arrival :=
  (if swapped then [1, 0, 3, 2, 5, 4] else List.range 6).map fun r => .vertex (vertexAt r 0)

theorem chain_inOrder (swapped : Bool) (i : Nat) (hi : i = 1 ∨ i = 2) :
    ∀ call ∈ StateMachine.run openCrypto config ⟨i⟩
      (Arrival.inputs (pairPorts i) [] (chainOrder swapped)), InOrder openCrypto chain call := by
  have hall : (StateMachine.run openCrypto config ⟨i⟩ (Arrival.inputs (pairPorts i) []
      (chainOrder swapped))).all (inTurn openCrypto chain (pairPorts 1)) = true := by
    obtain rfl | rfl := hi <;> cases swapped <;> decide
  intro call hcall
  exact inOrder_of_inTurn (List.all_eq_true.mp hall call hcall)

theorem total_order_two_orders :
    microQcsIn openCrypto config ⟨1⟩ (Arrival.inputs (pairPorts 1) [] (chainOrder false)) =
        [vertexHash 0 0, vertexHash 4 0] ∧
      (microQcsIn openCrypto config ⟨1⟩ (Arrival.inputs (pairPorts 1) [] (chainOrder false)) <+:
        microQcsIn openCrypto config ⟨2⟩ (Arrival.inputs (pairPorts 2) [] (chainOrder true)) ∨
      microQcsIn openCrypto config ⟨2⟩ (Arrival.inputs (pairPorts 2) [] (chainOrder true)) <+:
        microQcsIn openCrypto config ⟨1⟩ (Arrival.inputs (pairPorts 1) [] (chainOrder false))) := by
  have hchain : ∀ swapped cv, Arrival.vertex cv ∈ chainOrder swapped → cv ∈ chain := by
    intro swapped cv hcv
    obtain ⟨r, hr, heq⟩ := List.mem_map.mp hcv
    cases heq
    have hrounds : (if swapped then [1, 0, 3, 2, 5, 4] else List.range 6) ⊆ List.range 6 := by
      cases swapped <;> decide
    exact List.mem_map_of_mem (hrounds hr)
  exact ⟨by decide, total_order openCrypto config chain chain_coherent pair ⟨0⟩ ⟨1⟩ ⟨2⟩
    (pairPorts 1) (pairPorts 2) (pairPorts_steady 1) (pairPorts_steady 2) _ _ (hchain false)
    (hchain true) (chain_inOrder false 1 (Or.inl rfl)) (chain_inOrder true 2 (Or.inr rfl))⟩

end Devnet
end LuaDag
