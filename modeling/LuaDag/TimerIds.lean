import LuaDag.Timers
import LuaDag.LiveDag
import LuaDag.Devnet

/-! Timer ids. Each layer numbers its timers from zero, and the three share one host
registry: ids stay apart only as long as a single layer starts timers. -/
namespace LuaDag
open Simulation (Moves.step Moves.refl Steady.quiet Steady.fail)

/- The three layers together. -/

inductive Layer where
  | vertices | waves | macros
deriving DecidableEq, Repr

def StateMachine.timerCore (sm : StateMachine) : Layer → TimerCore
  | .vertices => sm.vertices.timerCore
  | .waves => sm.waves.timerCore
  | .macros => sm.macros.timerCore

/-- The call can start a timer of a layer that has none: L1 is bootstrapped, a wave begins to
wait for its slow path, or a macro window closes. -/
def Starts (cr : Crypto) (call : NodeCall) : Layer → Prop
  | .vertices => call.input.1 = .genesis ∧ call.pre.vertices.started = false
  | .waves => ∃ cv, call.event = some (.certifiedVertexReceived cv) ∧
      ∃ w ≤ Bullshark.waveOfRound cv.vertex.round, w ∉ call.pre.waves.committedWaves ∧
        Bullshark.Waits cr call.pre.cfg call.ctx w
  | .macros => ∃ cv set, call.event = some (.certifiedVertexReceived cv) ∧
      activeSet call.ctx = .ok set ∧
      1 ≤ MacroFin.closings call.pre.cfg.macroFin.macroWindowW call.pre.macros.microRing.length
        (freshMicroQcs cr call cv).length ∧
      MacroFin.Arms cr call.pre.cfg call.ctx set call.pre.macros

def LayerMove (may : Layer → Prop) (c : Layer → TimerCore) (sg : List SignReq)
    (acts : List Action) (d : Layer → TimerCore) : Prop :=
  ∃ X, TimerMove (may X) (c X) sg acts (d X) ∧ ∀ Y, Y ≠ X → d Y = c Y

structure Sole (X : Layer) (c : Layer → TimerCore) : Prop where
  issued : (c X).Issued
  silent : ∀ Y, Y ≠ X → (c Y).Silent

theorem LayerMove.sole {may : Layer → Prop} {X : Layer} {c d : Layer → TimerCore}
    {sg : List SignReq} {acts : List Action} (h : LayerMove may c sg acts d)
    (hmay : ∀ Y, Y ≠ X → ¬ may Y) (hc : Sole X c) :
    Sole X d ∧ OwnTimers (c X) acts (d X) := by
  obtain ⟨Z, hmove, hothers⟩ := h
  by_cases hZ : Z = X
  · subst hZ
    have hown := hmove.own hc.issued
    exact ⟨⟨hown.issued, fun Y hY => hothers Y hY ▸ hc.silent Y hY⟩, hown⟩
  · have hX := hothers X (Ne.symm hZ)
    have hsilent := hmove.silent (hmay Z hZ) (hc.silent Z hZ)
    refine ⟨⟨hX ▸ hc.issued, ?_⟩, OwnTimers.none (by rw [hX]) (hX ▸ hc.issued) hsilent.2⟩
    intro Y hY
    by_cases hYZ : Y = Z
    · exact hYZ ▸ hsilent.1
    · exact hothers Y hYZ ▸ hc.silent Y hY

theorem Sole.path {may : Layer → Prop} {X : Layer} {c d : Layer → TimerCore}
    {sg : List SignReq} {acts : List Action} (h : Simulation.Moves (LayerMove may) c sg acts d)
    (hmay : ∀ Y, Y ≠ X → ¬ may Y) (hc : Sole X c) :
    Sole X d ∧ OwnTimers (c X) acts (d X) := by
  induction h with
  | refl => exact ⟨hc, OwnTimers.none rfl hc.issued (by simp)⟩
  | step _ hmove ih =>
    have hnext := hmove.sole hmay ih.1
    exact ⟨hnext.1, ih.2.trans hnext.2⟩

theorem moves_layer {may : Layer → Prop} {X : Layer} {c : Layer → TimerCore} {e : TimerCore}
    {sg : List SignReq} {acts : List Action}
    (h : Simulation.Moves (TimerMove (may X)) (c X) sg acts e) :
    Simulation.Moves (LayerMove may) c sg acts (Function.update c X e) := by
  generalize hd : c X = d at h
  induction h with
  | refl =>
    rw [← hd, Function.update_eq_self]
    exact Moves.refl c
  | step hpath hmove ih =>
    refine Moves.step ih ⟨X, by simpa using hmove, ?_⟩
    intro Y hY
    rw [Function.update_of_ne hY, Function.update_of_ne hY]

theorem steady_layer {may : Layer → Prop} {X : Layer} {σ : Type} {view : σ → TimerCore}
    {c : Layer → TimerCore} {o : Result σ} {g : σ → StateMachine}
    (h : Simulation.Steady (TimerMove (may X)) view (c X) o)
    (hown : ∀ b, (g b).timerCore X = view b)
    (hothers : ∀ b Y, Y ≠ X → (g b).timerCore Y = c Y) :
    Simulation.Steady (LayerMove may) StateMachine.timerCore c (o.lift g) := by
  obtain ⟨acts, hpath, hres⟩ := h
  refine ⟨acts, ?_, hres⟩
  have hstate : (o.lift g).state.timerCore = Function.update c X (view o.state) := by
    funext Y
    by_cases hY : Y = X
    · subst hY
      rw [Function.update_self]
      exact hown _
    · rw [Function.update_of_ne hY]
      exact hothers _ Y hY
  rw [hstate]
  exact moves_layer hpath

section Call
variable {cr : Crypto} {call : NodeCall} {may : Prop}

theorem VertexHandler.timers {f : VertexBook → Result VertexBook} (h : VertexHandler cr call f)
    (hmay : Starts cr call .vertices → may)
    (hrun : ¬ call.pre.vertices.timerCore.Silent → may) :
    VertexCert.TimerSteady may call.pre.vertices.timerCore (f call.pre.vertices) := by
  have hst : call.pre.vertices.started = true → may := by
    intro hon
    refine hrun fun hsilent => ?_
    exact absurd (hon.symm.trans hsilent.2.2) (by simp)
  cases h with
  | genesis h => exact VertexCert.genesisPropose_timers _ fun hoff => hmay ⟨h, hoff⟩
  | certified cv h => exact VertexCert.maybeAdvance_timers (VertexCert.recordCert _ cv) hst
  | proposal p h => exact VertexCert.onVertexProposal_timers p _
  | vote bp h => exact VertexCert.onVertexPartial_timers bp _ hst
  | timer id h =>
    refine VertexCert.onTimerFired_timers id _ fun hid => hrun fun hsilent => ?_
    have hlive : id ∈ call.pre.vertices.timerCore.live := hid
    rw [hsilent.2.1] at hlive
    exact hlive

theorem WaveHandler.timers {f : Bullshark.WaveBook → Result Bullshark.WaveBook}
    (h : WaveHandler cr call f) (hmay : Starts cr call .waves → may) :
    Bullshark.TimerSteady may call.pre.waves.timerCore (f call.pre.waves) := by
  cases h with
  | certified cv h =>
    exact Bullshark.onCertifiedVertex_timers cv _ fun w hw hnew hwaits =>
      hmay ⟨cv, h, w, hw, hnew, hwaits⟩
  | microQc qc h => exact Steady.quiet _
  | timer id h => exact Bullshark.onTimerFired_timers id _

theorem MacroHandler.timers {f : MacroBook → Result MacroBook} (h : MacroHandler cr call f)
    (hmay : Starts cr call .macros → may) :
    MacroFin.TimerSteady may call.pre.macros.timerCore (f call.pre.macros) := by
  by_cases hev : ∃ cv, call.event = some (.certifiedVertexReceived cv)
  · cases h with
    | micro cv acts h hacts =>
      have hfresh : freshMicroQcs cr call cv = acts.filterMap MacroFin.microQcHash := by
        simp [freshMicroQcs, Outcome.actions, hacts]
      unfold MacroFin.onLocalMicroQcs
      split
      · exact Steady.quiet _
      split
      · exact Steady.fail _ _
      rename_i set hset
      refine MacroFin.pushAll_timers _ (Steady.quiet _) ?_
      intro hclose harms
      refine hmay ⟨cv, set, h, hset, ?_, harms⟩
      rw [hfresh]
      exact hclose
    | _ =>
      obtain ⟨cv, hcv⟩ := hev
      simp_all
  · exact MacroFin.rests_timers (h.rests (fun cv hcv => hev ⟨cv, hcv⟩) _)

theorem exec_timers {may : Layer → Prop} (hmay : ∀ X, Starts cr call X → may X)
    (hrun : ¬ call.pre.vertices.timerCore.Silent → may .vertices) :
    Simulation.Steady (LayerMove may) StateMachine.timerCore call.pre.timerCore
      (StateMachine.exec cr call.input call.pre) := by
  have hlayers : LayersSteady cr call (LayerMove may) StateMachine.timerCore := by
    refine ⟨?_, ?_, ?_⟩
    · intro sm f hsm hf
      refine @steady_layer may .vertices _ VertexBook.timerCore _ _ _ ?_ (fun _ => rfl) ?_
      · have hsteady := hf.timers (hmay .vertices) hrun
        rw [← hsm] at hsteady
        exact hsteady
      · intro b Y hY
        cases Y <;> first | rfl | exact absurd rfl hY
    · intro sm f hsm hf
      refine @steady_layer may .waves _ Bullshark.WaveBook.timerCore _ _ _ ?_ (fun _ => rfl) ?_
      · have hsteady := hf.timers (hmay .waves)
        rw [← hsm] at hsteady
        exact hsteady
      · intro b Y hY
        cases Y <;> first | rfl | exact absurd rfl hY
    · intro sm f hsm hf
      refine @steady_layer may .macros _ MacroBook.timerCore _ _ _ ?_ (fun _ => rfl) ?_
      · have hsteady := hf.timers (hmay .macros)
        rw [← hsm] at hsteady
        exact hsteady
      · intro b Y hY
        cases Y <;> first | rfl | exact absurd rfl hY
  exact hlayers.exec

def NodeCall.emits (cr : Crypto) (call : NodeCall) (X : Layer) (a : Action) : Prop :=
  a ∈ (StateMachine.exec cr call.input call.pre).actions ∧
    match X with
    | .vertices => ∃ f, VertexHandler cr call f ∧ a ∈ (f call.pre.vertices).actions
    | .waves => ∃ f, WaveHandler cr call f ∧ a ∈ (f call.pre.waves).actions
    | .macros => ∃ f, MacroHandler cr call f ∧ a ∈ (f call.pre.macros).actions

theorem silent_path {may : Prop} {c d : TimerCore} {sg : List SignReq} {acts : List Action}
    (h : Simulation.Moves (TimerMove may) c sg acts d) (hmay : ¬ may) (hc : c.Silent) :
    d.Silent ∧ ∀ a ∈ acts, a.isTimer = false := by
  induction h with
  | refl => exact ⟨hc, by simp⟩
  | step _ hmove ih =>
    have hnext := hmove.silent hmay ih.1
    refine ⟨hnext.1, ?_⟩
    intro a ha
    exact (List.mem_append.mp ha).elim (ih.2 a) (hnext.2 a)

theorem silent_actions {may : Prop} {σ : Type} {view : σ → TimerCore} {c : TimerCore}
    {o : Result σ} (h : Simulation.Steady (TimerMove may) view c o) (hmay : ¬ may)
    (hc : c.Silent) : ∀ a ∈ o.actions, a.isTimer = false := by
  obtain ⟨acts, hpath, hacts⟩ := h.actions
  exact fun a ha => (silent_path hpath hmay hc).2 a (hacts a ha)

theorem emits_sole {X Y : Layer} {a : Action} (h : call.emits cr Y a) (ha : a.isTimer = true)
    (hstarts : ∀ Y, Starts cr call Y → Y = X) (hsole : Sole X call.pre.timerCore) : Y = X := by
  by_contra hne
  have hsilent := hsole.silent Y hne
  suffices hnone : a.isTimer = false from absurd (ha.symm.trans hnone) (by simp)
  obtain ⟨-, hown⟩ := h
  cases Y with
  | vertices =>
    obtain ⟨f, hf, hin⟩ := hown
    exact silent_actions (hf.timers (hstarts .vertices) fun hloud => absurd hsilent hloud)
      hne hsilent a hin
  | waves =>
    obtain ⟨f, hf, hin⟩ := hown
    exact silent_actions (hf.timers (hstarts .waves)) hne hsilent a hin
  | macros =>
    obtain ⟨f, hf, hin⟩ := hown
    exact silent_actions (hf.timers (hstarts .macros)) hne hsilent a hin

end Call

/- Timers that fire. -/

def Layer.Same (X : Layer) (sm sm' : StateMachine) : Prop :=
  match X with
  | .vertices => sm'.vertices = sm.vertices
  | .waves => sm'.waves = sm.waves
  | .macros => sm'.macros = sm.macros

section Fire
variable {cr : Crypto} {call : NodeCall} {id : TimerId}

theorem height_none {m : Std.TreeMap Height TimerId} (h : ∀ x : Height, m[x]? ≠ some id) :
    (m.toList.find? (·.2 = id)).map (·.1) = none := by
  rw [Option.map_eq_none_iff, List.find?_eq_none]
  rintro ⟨x, y⟩ hmem hy
  refine h x ?_
  rw [← Maps.mem_toList, ← of_decide_eq_true hy]
  exact hmem

theorem exec_fired (hev : call.event = some (.timerFired id)) (X : Layer)
    (hid : id ∉ (call.pre.timerCore X).live) :
    X.Same call.pre (StateMachine.exec cr call.input call.pre).state := by
  cases X with
  | vertices =>
    refine @LayersSteady.same _ (·.vertices) cr call ⟨?_, ?_, ?_⟩
    · intro sm f hsm hf
      apply Simulation.Steady.single
      cases hf with
      | timer id' h =>
        rw [h, Option.some.injEq, Event.timerFired.injEq] at hev
        subst hev
        have hne : sm.vertices.roundTimer ≠ some id' := by
          rw [hsm]
          exact hid
        simp only [StateMachine.onVertices, VertexCert.onTimerFired, if_pos hne]
        rfl
      | genesis h => simp [NodeCall.event, h] at hev
      | _ => simp_all
    · exact fun sm f _ _ => Simulation.Steady.single rfl
    · exact fun sm f _ _ => Simulation.Steady.single rfl
  | waves =>
    refine @LayersSteady.same _ (·.waves) cr call ⟨?_, ?_, ?_⟩
    · exact fun sm f _ _ => Simulation.Steady.single rfl
    · intro sm f hsm hf
      apply Simulation.Steady.single
      cases hf with
      | timer id' h =>
        rw [h, Option.some.injEq, Event.timerFired.injEq] at hev
        subst hev
        have hnone : sm.waves.timerToWave[id']? = none := by
          rw [hsm, Option.eq_none_iff_forall_ne_some]
          exact fun w hw => hid (Or.inr ⟨w, hw⟩)
        simp only [StateMachine.onWaves, Bullshark.onTimerFired, hnone]
        rfl
      | _ => simp_all
    · exact fun sm f _ _ => Simulation.Steady.single rfl
  | macros =>
    refine @LayersSteady.same _ (·.macros) cr call ⟨?_, ?_, ?_⟩
    · exact fun sm f _ _ => Simulation.Steady.single rfl
    · exact fun sm f _ _ => Simulation.Steady.single rfl
    · intro sm f hsm hf
      apply Simulation.Steady.single
      cases hf with
      | timer id' h =>
        rw [h, Option.some.injEq, Event.timerFired.injEq] at hev
        subst hev
        have hbackup : sm.macros.timers.heightForBackupTimer id' = none :=
          height_none fun x hx => hid (Or.inl ⟨x, hsm ▸ hx⟩)
        have hmodeB : sm.macros.timers.heightForModeBTimer id' = none :=
          height_none fun x hx => hid (Or.inr ⟨x, hsm ▸ hx⟩)
        simp only [StateMachine.onMacros, MacroFin.onTimerFired, hbackup, hmodeB]
        rfl
      | _ => simp_all

end Fire

/- Runs. -/

def Owns (sm : StateMachine) (X : Layer) (id : TimerId) : Prop :=
  ∀ Y, id < (sm.timerCore Y).next ↔ Y = X

theorem Sole.owns {sm : StateMachine} {X : Layer} {id : TimerId} (h : Sole X sm.timerCore)
    (hid : id < (sm.timerCore X).next) : Owns sm X id := by
  intro Y
  constructor
  · intro hY
    by_contra hne
    rw [(h.silent Y hne).1] at hY
    exact absurd hY (Nat.not_lt_zero _)
  · rintro rfl
    exact hid

/-- In this call, timer actions name ids of the layer they come from, and a timer that fires
changes no other book. -/
structure TimersRouted (cr : Crypto) (call : NodeCall) : Prop where
  actions : ∀ X a id, call.emits cr X a → a.timerId = some id →
    Owns (StateMachine.exec cr call.input call.pre).state X id
  fired : ∀ X id, call.event = some (.timerFired id) →
    ¬ X.Same call.pre (StateMachine.exec cr call.input call.pre).state → Owns call.pre X id

/-- One call of a node where only `X` has timers. -/
theorem Sole.exec {cr : Crypto} {call : NodeCall} {X : Layer} (hsole : Sole X call.pre.timerCore)
    (hstarts : ∀ Y, Starts cr call Y → Y = X) :
    Sole X (StateMachine.exec cr call.input call.pre).state.timerCore ∧
      ∃ acts, (∀ as, (StateMachine.exec cr call.input call.pre).result = .ok as → as = acts) ∧
        OwnTimers (call.pre.timerCore X) acts
          ((StateMachine.exec cr call.input call.pre).state.timerCore X) := by
  have hrun : ¬ call.pre.vertices.timerCore.Silent → Layer.vertices = X := by
    intro hloud
    by_contra hne
    exact hloud (hsole.silent .vertices hne)
  obtain ⟨acts, hpath, hres⟩ := exec_timers hstarts hrun
  have hown := hsole.path hpath fun Y hY => hY
  exact ⟨hown.1, acts, hres, hown.2⟩

theorem Sole.routed {cr : Crypto} {call : NodeCall} {X : Layer}
    (hsole : Sole X call.pre.timerCore) (hstarts : ∀ Y, Starts cr call Y → Y = X) :
    TimersRouted cr call := by
  obtain ⟨hpost, acts, hres, hown⟩ := hsole.exec hstarts
  refine ⟨?_, ?_⟩
  · intro Y a id hemits hid
    have hY := emits_sole hemits (isTimer_of_timerId hid) hstarts hsole
    subst hY
    refine hpost.owns (hown.named a ?_ id hid)
    have hin := hemits.1
    cases hr : (StateMachine.exec cr call.input call.pre).result with
    | error e => simp [Outcome.actions, hr] at hin
    | ok as =>
      simp only [Outcome.actions, hr] at hin
      exact hres as hr ▸ hin
  · intro Y id hev hchanged
    have hlive : id ∈ (call.pre.timerCore Y).live := by
      by_contra hnot
      exact hchanged (exec_fired hev Y hnot)
    by_cases hY : Y = X
    · subst hY
      exact hsole.owns (hsole.issued id hlive)
    · rw [(hsole.silent Y hY).2.1] at hlive
      cases hlive

namespace TimerRegistry

/-- Tasks that the host registry (`apps/node/src/timer.rs`) aborts because their id is
scheduled again; `handles` are the ids it holds. -/
def dropped : Finset TimerId → List Action → List TimerId
  | _, [] => []
  | handles, a :: as =>
    match a with
    | .scheduleTimer id _ =>
      if id ∈ handles then id :: dropped (insert id handles) as
      else dropped (insert id handles) as
    | .cancelTimer id => dropped (handles.erase id) as
    | _ => dropped handles as

theorem dropped_nil {acts : List Action} {handles : Finset TimerId}
    (hnodup : (acts.filterMap Action.scheduledId).Nodup)
    (hnew : ∀ id ∈ acts.filterMap Action.scheduledId, id ∉ handles) :
    dropped handles acts = [] := by
  induction acts generalizing handles with
  | nil => rfl
  | cons a as ih =>
    unfold dropped
    split
    · rename_i id delay
      simp only [List.filterMap_cons, Action.scheduledId, List.nodup_cons] at hnodup
      simp only [List.filterMap_cons, Action.scheduledId, List.mem_cons, forall_eq_or_imp] at hnew
      rw [if_neg hnew.1]
      refine ih hnodup.2 ?_
      intro x hx hin
      cases Finset.mem_insert.mp hin with
      | inl heq => exact hnodup.1 (heq ▸ hx)
      | inr hold => exact hnew.2 x hx hold
    · refine ih hnodup ?_
      intro x hx hin
      exact hnew x hx (Finset.mem_of_mem_erase hin)
    · rename_i hsched _
      have hnone : a.scheduledId = none := by
        clear ih hnodup hnew
        cases a <;> simp_all [Action.scheduledId]
      rw [List.filterMap_cons_none hnone] at hnodup hnew
      exact ih hnodup hnew

end TimerRegistry

/-- Timer ids of a run: pairwise distinct, routed to the layer that issued them, and never
taken over in the host registry. -/
structure TimersApart (cr : Crypto) (cfg : Config) (me : ValidatorId)
    (is : List StateMachine.Input) : Prop where
  distinct : ((StateMachine.actions cr cfg me is).filterMap Action.scheduledId).Nodup
  routed : ∀ call ∈ StateMachine.run cr cfg me is, TimersRouted cr call
  kept : TimerRegistry.dropped ∅ (StateMachine.actions cr cfg me is) = []

theorem new_sole (cfg : Config) (self : ValidatorId) (X : Layer) :
    Sole X (StateMachine.new cfg self).timerCore := by
  have hsilent : ∀ Y, ((StateMachine.new cfg self).timerCore Y).Silent := by
    intro Y
    cases Y with
    | vertices =>
      refine ⟨rfl, ?_, rfl⟩
      ext id
      simp [StateMachine.timerCore, StateMachine.new, VertexBook.timerCore, VertexBook.new]
    | waves =>
      refine ⟨rfl, ?_, rfl⟩
      ext id
      simp [StateMachine.timerCore, StateMachine.new, Bullshark.WaveBook.timerCore]
    | macros =>
      refine ⟨rfl, ?_, rfl⟩
      ext id
      simp [StateMachine.timerCore, StateMachine.new, MacroBook.timerCore, MacroBook.new,
        MacroTimerBook.core]
  refine ⟨?_, fun Y _ => hsilent Y⟩
  intro id hid
  rw [(hsilent X).2.1] at hid
  cases hid

def IssuedInOrder (X : Layer) (acts : List Action) (sm : StateMachine) : Prop :=
  (acts.filterMap Action.scheduledId).Sublist (List.range (sm.timerCore X).next)

theorem range_extend {m n : Nat} (h : m ≤ n) :
    List.range m ++ List.range' m (n - m) = List.range n := by
  have hjoin := @List.range'_append_1 0 m (n - m)
  rw [Nat.zero_add, Nat.add_sub_cancel' h] at hjoin
  rw [List.range_eq_range', List.range_eq_range', hjoin]

/-- A call schedules the next ids, or loses them. -/
theorem IssuedInOrder.exec {cr : Crypto} {call : NodeCall} {X : Layer} {before : List Action}
    (h : IssuedInOrder X before call.pre) (hsole : Sole X call.pre.timerCore)
    (hstarts : ∀ Y, Starts cr call Y → Y = X) :
    IssuedInOrder X (before ++ (StateMachine.exec cr call.input call.pre).actions)
      (StateMachine.exec cr call.input call.pre).state := by
  obtain ⟨-, acts, hres, hown⟩ := hsole.exec hstarts
  unfold IssuedInOrder
  rw [List.filterMap_append, ← range_extend hown.next]
  refine List.Sublist.append h ?_
  rw [← hown.scheduled]
  cases hr : (StateMachine.exec cr call.input call.pre).result with
  | error e => simp [Outcome.actions, hr]
  | ok as => simp [Outcome.actions, hr, hres as hr]

/-- Timers stay apart in runs where a single layer starts them. -/
theorem timers_apart (cr : Crypto) (cfg : Config) (self : ValidatorId)
    (is : List StateMachine.Input)
    (hone : ∀ c ∈ StateMachine.run cr cfg self is, ∀ c' ∈ StateMachine.run cr cfg self is,
      ∀ X Y, Starts cr c X → Starts cr c' Y → X = Y) :
    TimersApart cr cfg self is := by
  have hlayer : ∃ X, ∀ c ∈ StateMachine.run cr cfg self is, ∀ Y, Starts cr c Y → Y = X := by
    by_cases hsome : ∃ c ∈ StateMachine.run cr cfg self is, ∃ X, Starts cr c X
    · obtain ⟨c, hc, X, hX⟩ := hsome
      exact ⟨X, fun c' hc' Y hY => hone c' hc' c hc Y X hY hX⟩
    · exact ⟨.vertices, fun c hc Y hY => absurd ⟨c, hc, Y, hY⟩ hsome⟩
  obtain ⟨X, hX⟩ := hlayer
  have hinv := Trace.invariant (StateMachine.exec cr) (fun call => ∀ Y, Starts cr call Y → Y = X)
    (fun hist sm => Sole X sm.timerCore ∧
      IssuedInOrder X (Trace.emitted (StateMachine.exec cr) hist) sm ∧
      ∀ call ∈ hist, TimersRouted cr call)
    (StateMachine.new cfg self) ⟨new_sole cfg self X, List.nil_sublist _, by simp⟩ ?_ is hX
  · obtain ⟨-, hsub, hrouted⟩ := hinv
    have hnodup : ((StateMachine.actions cr cfg self is).filterMap Action.scheduledId).Nodup :=
      List.Sublist.nodup hsub List.nodup_range
    exact ⟨hnodup, hrouted, TimerRegistry.dropped_nil hnodup (by simp)⟩
  intro hist sm i hinv hgood
  obtain ⟨hsole, hissued, hrouted⟩ := hinv
  refine ⟨(@Sole.exec cr ⟨sm, i⟩ X hsole hgood).1, ?_, ?_⟩
  · rw [Trace.emitted_append, Trace.emitted_singleton]
    exact @IssuedInOrder.exec cr ⟨sm, i⟩ X _ hissued hsole hgood
  · intro call hcall
    cases List.mem_append.mp hcall with
    | inl hold => exact hrouted call hold
    | inr hnew =>
      rw [List.mem_singleton.mp hnew]
      exact @Sole.routed cr ⟨sm, i⟩ X hsole hgood

section Devnet
open Devnet

def stalledRound : List StateMachine.Input :=
  (.genesis, (ports 3 0).holding []) :: Arrival.inputs (ports 3 0) [] [.timer 0, .timer 1]

theorem timers_apart_stalled_round :
    (StateMachine.actions openCrypto config ⟨3⟩ stalledRound).filterMap Action.scheduledId =
        [0, 1, 2] ∧
      TimersApart openCrypto config ⟨3⟩ stalledRound := by
  refine ⟨by decide, timers_apart openCrypto config ⟨3⟩ stalledRound ?_⟩
  have hfirst : ∀ c ∈ StateMachine.run openCrypto config ⟨3⟩ stalledRound, ∀ X,
      Starts openCrypto c X → X = .vertices := by
    intro c hc X hX
    have hev : ∀ cv, NodeCall.event c ≠ some (.certifiedVertexReceived cv) := by
      intro cv h
      have hin := run_input hc
      simp only [stalledRound, Arrival.inputs, List.mem_cons, List.not_mem_nil, or_false] at hin
      obtain hin | hin | hin := hin <;> simp [NodeCall.event, hin] at h
    cases X with
    | vertices => rfl
    | waves =>
      obtain ⟨cv, h, -⟩ := hX
      exact absurd h (hev cv)
    | macros =>
      obtain ⟨cv, -, h, -⟩ := hX
      exact absurd h (hev cv)
  intro c hc c' hc' X Y hX hY
  rw [hfirst c hc X hX, hfirst c' hc' Y hY]

def twoTimers : List StateMachine.Input :=
  (.genesis, (ports 3 0).holding []) :: Arrival.inputs (ports 3 0) [] [.vertex (vertexAt 0 0)]

/-- The round timer and the slow-path timer of wave 0 both have id 0. -/
theorem timer_id_reused : ¬ TimersApart openCrypto config ⟨3⟩ twoTimers := by
  intro h
  have hids : (StateMachine.actions openCrypto config ⟨3⟩ twoTimers).filterMap
      Action.scheduledId = [0, 0] := by decide
  have hdistinct := h.distinct
  rw [hids] at hdistinct
  exact absurd hdistinct (by decide)

end Devnet
end LuaDag
