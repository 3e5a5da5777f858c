import LuaDag.Streak
import LuaDag.MacroWalk
import LuaDag.MacroWindow
import LuaDag.TwoChain
import LuaDag.ScheduleAgreement
import LuaDag.Devnet

/-! The inactivity leak: every adoption is a turn of a streak counter, one that finalizes a height
breaks the streak. Nothing else touches the counter. -/
namespace LuaDag
open MacroFin
open Outcome (Sound)

def Action.leakNotice : Action → Option (Nat × Nat)
  | .notifyInactivityLeak windows bps => some (windows, bps)
  | _ => none

def leakNotices (acts : List Action) : List (Nat × Nat) := acts.filterMap Action.leakNotice

@[simp] theorem leakNotices_append (as bs : List Action) :
    leakNotices (as ++ bs) = leakNotices as ++ leakNotices bs := by
  simp [leakNotices]

def Action.settles : Action → Bool
  | .persistMacroQc _ | .notifyInactivityLeak _ _ => true
  | _ => false

theorem settles_none {acts : List Action} (h : ∀ a ∈ acts, a.settles = false) :
    persistedQcs acts = [] ∧ leakNotices acts = [] := by
  unfold persistedQcs leakNotices
  rw [List.filterMap_eq_nil_iff, List.filterMap_eq_nil_iff]
  constructor
  · intro a ha
    have hcalm := h a ha
    cases a <;> first | rfl | cases hcalm
  · intro a ha
    have hcalm := h a ha
    cases a <;> first | rfl | cases hcalm

structure LeakView where
  counter : Streak.Counter
  head : Option Hash32

def leakView (book : MacroBook) : LeakView :=
  ⟨⟨book.unfinalizedWindows, book.leakNotified⟩, book.twoChain.finalizedHead⟩

def LeakView.turn (cfg : Config) (v : LeakView) (finalizes : Bool) :
    Streak.Counter × Option ℕ :=
  v.counter.turn cfg.macroFin.inactivityLeakTriggerWindows (2 ^ 32 - 1) finalizes

def noticeOf (cfg : Config) (report : Option ℕ) : List (Nat × Nat) :=
  report.toList.map fun windows => (windows, cfg.macroFin.inactivityLeakBpsPerWindow)

def Calm (v : LeakView) (o : Result MacroBook) : Prop :=
  Sound (fun book => leakView book = v) (fun a => a.settles = false) o

def TakesTurn (cfg : Config) (v : LeakView) (o : Result MacroBook) : Prop :=
  ∃ acts qc, o.result = .ok acts ∧ persistedQcs acts = [qc] ∧
    let turn := v.turn cfg (decide (o.state.twoChain.finalizedHead ≠ v.head))
    (leakView o.state).counter = turn.1 ∧ leakNotices acts = noticeOf cfg turn.2

theorem Calm.andThen_turn {cfg : Config} {v : LeakView} {o : Result MacroBook}
    {k : MacroBook → Result MacroBook} (h : Calm v o)
    (hk : leakView o.state = v → Calm v (k o.state) ∨ TakesTurn cfg v (k o.state)) :
    Calm v (o.andThen k) ∨ TakesTurn cfg v (o.andThen k) := by
  cases hr : o.result with
  | error e =>
    rw [Outcome.andThen_of_error hr]
    exact Or.inl h
  | ok as =>
    cases hk h.state with
    | inl hcalm => exact Or.inl (Sound.andThen h fun _ => hcalm)
    | inr hturn =>
      obtain ⟨acts, qc, hacts, hqc, hcounter, hnotice⟩ := hturn
      have hquiet : persistedQcs as = [] ∧ leakNotices as = [] := by
        refine settles_none ?_
        intro a ha
        exact h.actions a (by simpa [Outcome.actions, hr] using ha)
      rw [Outcome.andThen_of_ok hr]
      refine Or.inr ⟨as ++ acts, qc, by simp [hacts, Except.map], ?_, hcounter, ?_⟩
      · rw [persistedQcs_append, hquiet.1, hqc]
        rfl
      · rw [leakNotices_append, hquiet.2, hnotice]
        rfl

namespace MacroFin
section Handlers
variable {cr : Crypto} {cfg : Config} {ctx : HostContext} {v : LeakView}

/- Adoption. -/

theorem noteInactivityLeak_turn (fin : Bool) (b : MacroBook) :
    let o := noteInactivityLeakOnAdoption cfg fin b
    let turn := (leakView b).turn cfg fin
    ∃ acts, o.result = .ok acts ∧ persistedQcs acts = [] ∧ leakNotices acts = noticeOf cfg turn.2 ∧
      (leakView o.state).counter = turn.1 ∧ o.state.twoChain = b.twoChain := by
  cases fin with
  | true => exact ⟨[], rfl, rfl, rfl, rfl, rfl⟩
  | false =>
    let windows := min (b.unfinalizedWindows + 1) (2 ^ 32 - 1)
    have hturn : (leakView b).turn cfg false =
        if decide (cfg.macroFin.inactivityLeakTriggerWindows ≤ windows) && !b.leakNotified then
          (⟨windows, true⟩, some windows)
        else (⟨windows, b.leakNotified⟩, none) := rfl
    have hnote : noteInactivityLeakOnAdoption cfg false b =
        if decide (cfg.macroFin.inactivityLeakTriggerWindows ≤ windows) && !b.leakNotified then
          .ok { b with unfinalizedWindows := windows, leakNotified := true }
            [.notifyInactivityLeak windows cfg.macroFin.inactivityLeakBpsPerWindow]
        else .quiet { b with unfinalizedWindows := windows } := rfl
    rw [hturn, hnote]
    split
    · exact ⟨_, rfl, rfl, rfl, rfl, rfl⟩
    · exact ⟨[], rfl, rfl, rfl, rfl, rfl⟩

theorem finalizedStatus_calm (cp : Option MacroCheckpoint) :
    ∀ a ∈ (cp.map fun cp => Action.updateBlobStatus (blobIdOfCheckpoint cp) .finalized).toList,
      a.settles = false := by
  intro a ha
  obtain ⟨cp, -, rfl⟩ := Option.map_eq_some_iff.mp (Option.mem_toList.mp ha)
  rfl

theorem settleFinality_turn (b : MacroBook) :
    let o := settleFinality cfg b
    let turn := (leakView b).turn cfg b.twoChain.newlyFinalizedHeight.isSome
    ∃ acts, o.result = .ok acts ∧ persistedQcs acts = [] ∧ leakNotices acts = noticeOf cfg turn.2 ∧
      (leakView o.state).counter = turn.1 := by
  obtain ⟨acts, hacts, hqcs, hnotice, hcounter, -⟩ :=
    @noteInactivityLeak_turn cfg b.twoChain.newlyFinalizedHeight.isSome b
  have hstatus : ∀ st : List Action, (∀ a ∈ st, a.settles = false) →
      persistedQcs (acts ++ st) = [] ∧ leakNotices (acts ++ st) = leakNotices acts := by
    intro st hst
    rw [persistedQcs_append, leakNotices_append, (settles_none hst).1, (settles_none hst).2, hqcs]
    simp
  unfold settleFinality
  rw [Outcome.andThen_of_ok hacts]
  split
  · have hall := hstatus [] (by simp)
    exact ⟨acts ++ [], rfl, hall.1, hall.2.trans hnotice, hcounter⟩
  · exact ⟨_, rfl, (hstatus _ (finalizedStatus_calm _)).1,
      (hstatus _ (finalizedStatus_calm _)).2.trans hnotice, hcounter⟩

theorem settleFinality_head (b : MacroBook) :
    decide ((settleFinality cfg b).state.twoChain.finalizedHead ≠ b.twoChain.finalizedHead) =
      b.twoChain.newlyFinalizedHeight.isSome := by
  obtain ⟨c, leak, -, hcore, hsettle⟩ := settleFinality_spec cfg b
  have hchain : (settleFinality cfg b).state.twoChain = b.twoChain.settle := by
    rw [hsettle]
    exact congrArg MacroCore.twoChain hcore
  rw [hchain]
  cases hfin : b.twoChain.newlyFinalizedHeight with
  | none => simp [TwoChainRule.settle, hfin]
  | some prev =>
    obtain ⟨-, cp, -, -, hcp, -, hnew⟩ := TwoChainRule.newlyFinalized_spec hfin
    simp [TwoChainRule.settle, hfin, TwoChainRule.markFinalized, hcp, Ne.symm hnew]

theorem adopt_turn (height : Height) (cand : MacroCheckpoint) (qc : MacroQc)
    (signers : Finset ValidatorId) (own : List Action) {b : MacroBook} (hb : leakView b = v)
    (hown : ∀ a ∈ own, a.settles = false) :
    TakesTurn cfg v ((Outcome.ok (adoptCheckpoint height cand qc signers b)
      (own ++ adoptionActions cand qc)).andThen (settleFinality cfg)) := by
  let adopted := adoptCheckpoint height cand qc signers b
  have hview : leakView adopted = v := by
    rw [← hb]
    rfl
  obtain ⟨acts, hacts, hqcs, hnotice, hcounter⟩ := @settleFinality_turn cfg adopted
  have hhead := @settleFinality_head cfg adopted
  have hsame : adopted.twoChain.finalizedHead = v.head := by rw [← hview]; rfl
  rw [hview, ← hhead, hsame] at hnotice hcounter
  rw [Outcome.andThen_of_ok rfl]
  refine ⟨own ++ adoptionActions cand qc ++ acts, qc, ?_, ?_, hcounter, ?_⟩
  · simp only [Outcome.ok_state, Except.map]
    rw [hacts]
  · rw [persistedQcs_append, persistedQcs_append, (settles_none hown).1, hqcs]
    rfl
  · rw [leakNotices_append, leakNotices_append, (settles_none hown).2, hnotice]
    rfl

/- Everything else is calm. -/

theorem calm_notes (v : LeakView) :
    KeptByNotes (fun book => leakView book = v) (fun a => a.settles = false) :=
  ⟨fun _ _ _ h => h, fun _ _ _ h => h, fun _ _ h => h, fun _ _ h => h, fun _ _ h => h,
    fun _ _ => rfl⟩

theorem calm_proposals (v : LeakView) :
    KeptByProposals (fun book => leakView book = v) (fun a => a.settles = false) :=
  ⟨fun _ _ h => h, fun _ => rfl⟩

theorem calm_windows (cr : Crypto) (v : LeakView) :
    KeptByWindows (fun book => leakView book = v) (fun a => a.settles = false) cr :=
  ⟨fun _ _ h => h, fun _ h => h, fun _ _ h => h, fun _ _ => rfl⟩

theorem calm_records (v : LeakView) : KeptByRecords (fun book => leakView book = v) :=
  ⟨fun _ _ h => h, fun _ _ _ h => h⟩

theorem calm_votes (v : LeakView) :
    KeptByVotes (fun book => leakView book = v) (fun a => a.settles = false) :=
  ⟨fun _ _ _ _ h => h, fun _ _ h => h, fun _ _ h => h, fun _ _ => rfl, fun _ _ => rfl,
    fun _ => rfl, fun _ => rfl⟩

theorem calm_subnets (v : LeakView) :
    KeptBySubnets (fun book => leakView book = v) (fun a => a.settles = false) :=
  ⟨fun _ _ h => h, fun _ _ h => h, fun _ => rfl⟩

theorem onLocalMicroQcs_calm (acts : List Action) {b : MacroBook} (hb : leakView b = v) :
    Calm v (onLocalMicroQcs cr cfg ctx acts b) :=
  onLocalMicroQcs_keeps (calm_notes v) (calm_proposals v) (calm_windows cr v) acts hb

theorem onMacroProposal_calm (p : MacroProposal) {b : MacroBook} (hb : leakView b = v) :
    Calm v (onMacroProposal cr cfg ctx p b) :=
  onMacroProposal_keeps (calm_notes v) (calm_records v) (calm_votes v) (calm_subnets v) p hb

theorem onTimerFired_calm (id : TimerId) {b : MacroBook} (hb : leakView b = v) :
    Calm v (onTimerFired cr cfg ctx id b) :=
  onTimerFired_keeps (calm_notes v) (calm_proposals v) (calm_records v) (calm_votes v) id hb

/- The three handlers that can adopt. -/

theorem tryEmitModeAQc_settles (hash : Hash32) (height : Height) {b : MacroBook}
    (hb : leakView b = v) : Calm v (tryEmitModeAQc cr cfg ctx hash height b) ∨
      TakesTurn cfg v (tryEmitModeAQc cr cfg ctx hash height b) := by
  unfold tryEmitModeAQc
  dsimp only
  split
  · exact Or.inl (Sound.fail _ hb)
  split
  · exact Or.inl (Sound.quiet hb)
  split
  · exact Or.inl (Sound.fail _ hb)
  split
  · exact Or.inl (Sound.fail _ hb)
  split
  · exact Or.inl (Sound.quiet hb)
  split
  · exact Or.inl (Sound.quiet hb)
  split
  · exact Or.inl (Sound.quiet hb)
  split
  · exact Or.inl (Sound.fail _ hb)
  · rename_i qc _ _ _ cand _
    exact Or.inr (adopt_turn height cand qc _ [.broadcastMacroQc qc] hb (by simp [Action.settles]))

theorem collectSubnet_settles (set : ValidatorSet) (beacon : Hash32) (assign : SubnetAssign)
    (height : Height) (bp : BlsPartial) {b : MacroBook} (hb : leakView b = v) :
    Calm v (collectSubnet cr cfg ctx set beacon assign height bp b) ∨
      TakesTurn cfg v (collectSubnet cr cfg ctx set beacon assign height bp b) := by
  refine Calm.andThen_turn (joinSubnet_keeps (calm_subnets v) set assign _ _ _ hb) ?_
  intro hnext
  split
  · exact Or.inl (Sound.fail _ hnext)
  split
  · exact tryEmitModeAQc_settles _ _ hnext
  · exact Or.inl (Sound.quiet hnext)

theorem collectFlat_settles (set : ValidatorSet) (mode : AggregationMode) (height : Height)
    (cand : MacroCheckpoint) (bp : BlsPartial) {b : MacroBook} (hb : leakView b = v) :
    Calm v (collectFlat cr cfg set mode height cand bp b) ∨
      TakesTurn cfg v (collectFlat cr cfg set mode height cand bp b) := by
  unfold collectFlat
  dsimp only
  split
  · exact Or.inl (Sound.quiet hb)
  split
  · exact Or.inl (Sound.quiet hb)
  split
  · exact Or.inl (Sound.quiet hb)
  · rename_i qc _
    exact Or.inr (adopt_turn height cand qc _ [.broadcastMacroQc qc] hb (by simp [Action.settles]))

theorem onBlsPartial_settles (bp : BlsPartial) {b : MacroBook} (hb : leakView b = v) :
    Calm v (onBlsPartial cr cfg ctx bp b) ∨ TakesTurn cfg v (onBlsPartial cr cfg ctx bp b) := by
  unfold onBlsPartial
  dsimp only
  split
  · exact Or.inl (Sound.quiet hb)
  split
  · exact Or.inl (Sound.fail _ hb)
  split
  · exact Or.inl (Sound.quiet hb)
  split
  · exact Or.inl (Sound.quiet hb)
  split
  · exact Or.inl (Sound.fail _ hb)
  split
  · exact Or.inl (Sound.fail _ hb)
  split
  · exact Or.inl (Sound.fail _ hb)
  split
  · exact collectSubnet_settles _ _ _ _ bp hb
  · exact collectFlat_settles _ _ _ _ bp hb

theorem onMacroQcReceived_settles (qc : MacroQc) {b : MacroBook} (hb : leakView b = v) :
    Calm v (onMacroQcReceived cr cfg ctx qc b) ∨
      TakesTurn cfg v (onMacroQcReceived cr cfg ctx qc b) := by
  unfold onMacroQcReceived
  split
  · exact Or.inl (Sound.quiet hb)
  split
  · exact Or.inl (Sound.fail _ hb)
  split
  · exact Or.inl (Sound.quiet hb)
  split
  · exact Or.inl (Sound.quiet hb)
  · rename_i height cand _ _
    exact Or.inr (adopt_turn height cand qc _ [] hb (by simp))

theorem onSubnetAggregate_settles (agg : SubnetAggregate) {b : MacroBook} (hb : leakView b = v) :
    Calm v (onSubnetAggregate cr cfg ctx agg b) ∨
      TakesTurn cfg v (onSubnetAggregate cr cfg ctx agg b) := by
  unfold onSubnetAggregate
  dsimp only
  split
  · exact Or.inl (Sound.quiet hb)
  split
  · exact Or.inl (Sound.fail _ hb)
  split
  · exact Or.inl (Sound.quiet hb)
  · exact tryEmitModeAQc_settles _ _ hb

end Handlers
end MacroFin

def finalizes (cr : Crypto) (call : NodeCall) : Bool :=
  let after := (StateMachine.exec cr call.input call.pre).state
  decide (after.macros.twoChain.finalizedHead ≠ call.pre.macros.twoChain.finalizedHead)

def openStreak (cr : Crypto) (calls : List NodeCall) : Nat :=
  Streak.trailing ((calls.filter (adopts cr)).map (finalizes cr))

section Calls
variable {cr : Crypto} {call : NodeCall}

/-- An adoption is a turn, any other call none. -/
structure Counts (cr : Crypto) (call : NodeCall) (o : Result StateMachine) : Prop where
  adopting : adopts cr call = true →
    let turn := (leakView call.pre.macros).turn call.pre.cfg (finalizes cr call)
    (leakView o.state.macros).counter = turn.1 ∧
      leakNotices o.actions = noticeOf call.pre.cfg turn.2
  resting : adopts cr call = false →
    (leakView o.state.macros).counter = (leakView call.pre.macros).counter ∧
      leakNotices o.actions = []

theorem counts_of_calm (h : Sound
    (fun sm : StateMachine => leakView sm.macros = leakView call.pre.macros)
    (fun a => a.settles = false) (StateMachine.exec cr call.input call.pre)) :
    Counts cr call (StateMachine.exec cr call.input call.pre) := by
  obtain ⟨hqcs, hnotices⟩ := settles_none h.actions
  have hrests : adopts cr call = false := by simp [adopts, hqcs]
  refine ⟨?_, ?_⟩
  · intro hadopts
    exact absurd (hrests.symm.trans hadopts) (by decide)
  · intro _
    rw [h.state]
    exact ⟨rfl, hnotices⟩

theorem counts_of_settles {f : MacroBook → Result MacroBook}
    (hexec : StateMachine.exec cr call.input call.pre = call.pre.onMacros f)
    (h : Calm (leakView call.pre.macros) (f call.pre.macros) ∨
      TakesTurn call.pre.cfg (leakView call.pre.macros) (f call.pre.macros)) :
    Counts cr call (StateMachine.exec cr call.input call.pre) := by
  cases h with
  | inl hcalm =>
    apply counts_of_calm
    rw [hexec]
    exact ⟨hcalm.state, hcalm.actions⟩
  | inr hturn =>
    obtain ⟨acts, qc, hacts, hqc, hcounter, hnotice⟩ := hturn
    have hemits : (StateMachine.exec cr call.input call.pre).actions = acts := by
      rw [hexec]
      change (f call.pre.macros).actions = acts
      simp [Outcome.actions, hacts]
    have hadopts : adopts cr call = true := by simp [adopts, hemits, hqc]
    have hfinal : finalizes cr call = decide ((f call.pre.macros).state.twoChain.finalizedHead ≠
        (leakView call.pre.macros).head) := by
      rw [finalizes, hexec]
      rfl
    refine ⟨?_, ?_⟩
    · intro _
      rw [hemits, hfinal, hexec]
      exact ⟨hcounter, hnotice⟩
    · intro hrests
      exact absurd (hrests.symm.trans hadopts) (by decide)

theorem exec_counts (cr : Crypto) (call : NodeCall) :
    Counts cr call (StateMachine.exec cr call.input call.pre) := by
  cases hnames : call.names with
  | none =>
    apply counts_of_calm
    refine @exec_sound (fun b => leakView b = leakView call.pre.macros) _ cr call ?_ ?_ rfl
    · intro a ha
      cases ha with
      | inl hvertex => cases a <;> first | rfl | cases hvertex
      | inr hwave => cases a <;> first | rfl | cases hwave
    · intro f hf
      cases hf with
      | micro cv acts hev hacts => exact onLocalMicroQcs_calm acts rfl
      | proposal p hev => exact onMacroProposal_calm p rfl
      | timer id hev => exact onTimerFired_calm id rfl
      | vote bp hev => simp [NodeCall.names, hev] at hnames
      | aggregate a hev => simp [NodeCall.names, hev] at hnames
      | qc qc hev => simp [NodeCall.names, hev] at hnames
  | some x =>
    obtain ⟨sm, req, ctx⟩ := call
    cases req with
    | genesis => cases hnames
    | event e =>
      cases e with
      | blsPartialReceived bp => exact counts_of_settles rfl (onBlsPartial_settles bp rfl)
      | subnetAggregateReceived a => exact counts_of_settles rfl (onSubnetAggregate_settles a rfl)
      | macroQcReceived qc => exact counts_of_settles rfl (onMacroQcReceived_settles qc rfl)
      | _ => cases hnames

end Calls

/- Runs. -/

theorem turns_snoc (cr : Crypto) (past : List NodeCall) (call : NodeCall) :
    ((past ++ [call]).filter (adopts cr)).map (finalizes cr) =
      (past.filter (adopts cr)).map (finalizes cr) ++
        if adopts cr call then [finalizes cr call] else [] := by
  cases hadopts : adopts cr call with
  | true => simp [hadopts]
  | false => simp [hadopts]

/-- Calls without an adoption that finalizes a height continue the streak. -/
theorem openStreak_append (cr : Crypto) (past streak : List NodeCall)
    (h : ∀ c ∈ streak, adopts cr c = true → finalizes cr c = false) :
    openStreak cr (past ++ streak) =
      openStreak cr past + (streak.filter (adopts cr)).length := by
  induction streak using List.reverseRecOn with
  | nil => simp
  | append_singleton streak c ih =>
    have hrest := ih fun d hd => h d (List.mem_append_left _ hd)
    rw [← List.append_assoc, openStreak, turns_snoc]
    rw [openStreak] at hrest
    cases hadopts : adopts cr c with
    | true =>
      have hfinal := h c (by simp) hadopts
      rw [hfinal, if_pos rfl, Streak.trailing_turn, hrest]
      simp [hadopts]
      omega
    | false =>
      rw [if_neg Bool.false_ne_true, List.append_nil, hrest]
      simp [hadopts]

section Runs
variable {cr : Crypto} {cfg : Config}

def Tracked (cr : Crypto) (cfg : Config) (past : List NodeCall) (sm : StateMachine) : Prop :=
  sm.cfg = cfg ∧ Streak.Counter.Tracks cfg.macroFin.inactivityLeakTriggerWindows (2 ^ 32 - 1)
    ((past.filter (adopts cr)).map (finalizes cr)) (leakView sm.macros).counter

theorem Tracked.exec (htrigger : 1 ≤ cfg.macroFin.inactivityLeakTriggerWindows)
    (hword : cfg.macroFin.inactivityLeakTriggerWindows < 2 ^ 32) {past : List NodeCall}
    {call : NodeCall} (h : Tracked cr cfg past call.pre) :
    Tracked cr cfg (past ++ [call]) (StateMachine.exec cr call.input call.pre).state ∧
      leakNotices (StateMachine.exec cr call.input call.pre).actions =
        if adopts cr call = true ∧ finalizes cr call = false ∧
            openStreak cr (past ++ [call]) = cfg.macroFin.inactivityLeakTriggerWindows then
          [(cfg.macroFin.inactivityLeakTriggerWindows, cfg.macroFin.inactivityLeakBpsPerWindow)]
        else [] := by
  obtain ⟨hcfg, htracks⟩ := h
  have hcounts := exec_counts cr call
  rw [Tracked, exec_cfg, openStreak, turns_snoc]
  cases hadopts : adopts cr call with
  | true =>
    obtain ⟨hcounter, hnotice⟩ := hcounts.adopting hadopts
    rw [hcfg] at hcounter hnotice
    have hturn := htracks.turn htrigger (by omega) (finalizes cr call)
    rw [hcounter, hnotice, LeakView.turn, hturn.2]
    refine ⟨⟨hcfg, hturn.1⟩, ?_⟩
    simp only [if_pos, true_and]
    split
    · rfl
    · rfl
  | false =>
    obtain ⟨hcounter, hnotice⟩ := hcounts.resting hadopts
    rw [hcounter, hnotice]
    refine ⟨⟨hcfg, by simpa using htracks⟩, by simp⟩

theorem run_tracked (cr : Crypto) (self : ValidatorId)
    (htrigger : 1 ≤ cfg.macroFin.inactivityLeakTriggerWindows)
    (hword : cfg.macroFin.inactivityLeakTriggerWindows < 2 ^ 32)
    (is : List StateMachine.Input) : Tracked cr cfg (StateMachine.run cr cfg self is)
      (StateMachine.reached cr cfg self is) := by
  refine Trace.invariant (StateMachine.exec cr) (fun _ => True)
    (fun (past : List NodeCall) sm => Tracked cr cfg past sm) (StateMachine.new cfg self) ?_ ?_ is
    (fun _ _ => trivial)
  · exact ⟨rfl, Streak.Counter.tracks_nil htrigger⟩
  · intro past sm i h _
    exact (@Tracked.exec cr cfg htrigger hword past ⟨sm, i⟩ h).1

/-- The notice comes with the adoption that takes the streak to the trigger. -/
theorem call_notices (cr : Crypto) (self : ValidatorId)
    (htrigger : 1 ≤ cfg.macroFin.inactivityLeakTriggerWindows)
    (hword : cfg.macroFin.inactivityLeakTriggerWindows < 2 ^ 32) (is : List StateMachine.Input)
    {past : List NodeCall} {call : NodeCall} {rest : List NodeCall}
    (hsplit : StateMachine.run cr cfg self is = past ++ call :: rest) :
    leakNotices (StateMachine.exec cr call.input call.pre).actions =
      if adopts cr call = true ∧ finalizes cr call = false ∧
          openStreak cr (past ++ [call]) = cfg.macroFin.inactivityLeakTriggerWindows then
        [(cfg.macroFin.inactivityLeakTriggerWindows, cfg.macroFin.inactivityLeakBpsPerWindow)]
      else [] := by
  obtain ⟨js, hpast, hpre⟩ := Trace.calls_split (StateMachine.exec cr) hsplit
  have htracked := run_tracked cr self htrigger hword js
  rw [StateMachine.run, StateMachine.reached, hpast, hpre] at htracked
  exact (htracked.exec htrigger hword).2

/-- The notices of a whole streak. By induction on the streak from its end. -/
theorem streak_notices (cr : Crypto) (self : ValidatorId)
    (htrigger : 1 ≤ cfg.macroFin.inactivityLeakTriggerWindows)
    (hword : cfg.macroFin.inactivityLeakTriggerWindows < 2 ^ 32) (is : List StateMachine.Input)
    {before streak after : List NodeCall}
    (hsplit : StateMachine.run cr cfg self is = before ++ streak ++ after)
    (hopen : openStreak cr before = 0)
    (hstreak : ∀ c ∈ streak, adopts cr c = true → finalizes cr c = false) :
    leakNotices (Trace.emitted (StateMachine.exec cr) streak) =
      if cfg.macroFin.inactivityLeakTriggerWindows ≤ (streak.filter (adopts cr)).length then
        [(cfg.macroFin.inactivityLeakTriggerWindows, cfg.macroFin.inactivityLeakBpsPerWindow)]
      else [] := by
  induction streak using List.reverseRecOn generalizing after with
  | nil =>
    have hpos : ¬ cfg.macroFin.inactivityLeakTriggerWindows ≤ 0 := by omega
    simp [hpos]
    rfl
  | append_singleton streak c ih =>
    have hbefore := @ih (c :: after) (by rw [hsplit]; simp)
      fun d hd => hstreak d (List.mem_append_left _ hd)
    have hnow := @call_notices cfg cr self htrigger hword is (before ++ streak) c after
      (by rw [hsplit]; simp)
    have hlen := openStreak_append cr before (streak ++ [c]) hstreak
    rw [hopen, Nat.zero_add, List.filter_append, List.length_append] at hlen
    rw [List.append_assoc, hlen] at hnow
    rw [Trace.emitted_append, leakNotices_append, hbefore, Trace.emitted_singleton]
    rw [show Trace.outcome (StateMachine.exec cr) c = StateMachine.exec cr c.input c.pre from rfl,
      hnow, List.filter_append, List.length_append]
    cases hadopts : adopts cr c with
    | true =>
      have hone : ([c].filter (adopts cr)).length = 1 := by simp [hadopts]
      rw [hone, hstreak c (by simp) hadopts]
      simpa using Streak.report_succ _ (streak.filter (adopts cr)).length _
    | false => simp [hadopts]

end Runs

/-- The counter is the length of the open streak. The notice comes with the adoption that takes
a streak to the trigger, so once in every streak that comes that far and never else. -/
theorem inactivity_leak (cr : Crypto) (cfg : Config) (self : ValidatorId)
    (is : List StateMachine.Input)
    (htrigger : 1 ≤ cfg.macroFin.inactivityLeakTriggerWindows)
    (hword : cfg.macroFin.inactivityLeakTriggerWindows < 2 ^ 32) :
    let trigger := cfg.macroFin.inactivityLeakTriggerWindows
    let notice := (trigger, cfg.macroFin.inactivityLeakBpsPerWindow)
    let calls : List NodeCall := StateMachine.run cr cfg self is
    (StateMachine.reached cr cfg self is).macros.unfinalizedWindows =
        min (openStreak cr calls) (2 ^ 32 - 1) ∧
      (∀ past call rest, calls = past ++ call :: rest →
        leakNotices (StateMachine.exec cr call.input call.pre).actions =
          if adopts cr call = true ∧ finalizes cr call = false ∧
            openStreak cr (past ++ [call]) = trigger then [notice] else []) ∧
      ∀ before streak after, calls = before ++ streak ++ after → openStreak cr before = 0 →
        (∀ c ∈ streak, adopts cr c = true → finalizes cr c = false) →
          leakNotices (Trace.emitted (StateMachine.exec cr) streak) =
            if trigger ≤ (streak.filter (adopts cr)).length then [notice] else [] := by
  intro trigger notice calls
  refine ⟨(run_tracked cr self htrigger hword is).2.count, ?_, ?_⟩
  · intro past call rest hsplit
    exact call_notices cr self htrigger hword is hsplit
  · intro before streak after hsplit hopen hstreak
    exact streak_notices cr self htrigger hword is hsplit hopen hstreak

section Devnet
open Devnet

def alarmed : Config := { config with macroFin := ⟨1, 50, 1⟩ }

def firstAdoption : List StateMachine.Input :=
  script 0 [closesWave 1, qcReceived [0, 1, 3] a0.hash]

theorem inactivity_leak_first :
    (StateMachine.reached openCrypto alarmed ⟨0⟩ firstAdoption).macros.unfinalizedWindows = 1 ∧
      leakNotices (StateMachine.actions openCrypto alarmed ⟨0⟩ firstAdoption) = [(1, 50)] := by
  let calls : List NodeCall := StateMachine.run openCrypto alarmed ⟨0⟩ firstAdoption
  obtain ⟨hcount, -, honce⟩ :=
    inactivity_leak openCrypto alarmed ⟨0⟩ firstAdoption (by decide) (by decide)
  have hstreak : ∀ c ∈ calls, adopts openCrypto c = true → finalizes openCrypto c = false := by
    decide
  have hopen : openStreak openCrypto calls = 1 := by decide
  have hadoptions : (calls.filter (adopts openCrypto)).length = 1 := by decide
  refine ⟨?_, ?_⟩
  · rw [hcount, hopen]
    rfl
  · have hnotices := honce [] calls [] (by simp [calls]) rfl hstreak
    rw [hadoptions] at hnotices
    exact hnotices

end Devnet
end LuaDag
