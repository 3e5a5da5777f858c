import LuaDag.MacroFrame

/-! The reputation behind the proposer schedule. An adoption credits the validators whose
partials on the checkpoint have come in by then, not the signers of the QC, so two nodes with
the same QCs share a schedule exactly when as many partials of everyone were in time. -/
namespace LuaDag
open MacroFin

/-- The partial that a call puts on record, with the checkpoint it is for: one that is delivered
and passes every check, or the node's own vote. -/
def NodeCall.notes (cr : Crypto) (call : NodeCall) : Option (Hash32 × ValidatorId) :=
  let book := call.pre.macros
  match call.event with
  | some (.blsPartialReceived bp) => notedPartial cr call.pre.cfg call.ctx bp book
  | some (.macroProposalReceived p) =>
    if accepts cr call.pre.cfg call.ctx p book then some (p.checkpoint.hash, book.selfId) else none
  | some (.timerFired id) =>
    -- an error of L2 ends the step before L3 sees the timer
    match (Bullshark.onTimerFired cr call.pre.cfg id call.ctx call.pre.waves).result with
    | .error _ => none
    | .ok _ => notedTimer call.pre.cfg call.ctx id book
  | _ => none

def adopts (cr : Crypto) (call : NodeCall) : Bool :=
  !(persistedQcs (StateMachine.exec cr call.input call.pre).actions).isEmpty

/-- The last call of `past` adopts a QC, and the partial of `v` on its checkpoint has come in
by then. -/
def credited (cr : Crypto) (v : ValidatorId) (past : List NodeCall) : Bool :=
  past.getLast?.any fun call => adopts cr call &&
    call.names.any fun h => past.any fun c => c.notes cr == some (h, v)

def credits (cr : Crypto) (calls : List NodeCall) (v : ValidatorId) : Nat :=
  calls.inits.countP (credited cr v)

section Step
variable {cr : Crypto} {call : NodeCall}

theorem timer_macros (cr : Crypto) (sm : StateMachine) (ctx : HostContext) (id : TimerId) :
    (sm.onTimerFired cr ctx id).state.macros =
      match (Bullshark.onTimerFired cr sm.cfg id ctx sm.waves).result with
      | .error _ => sm.macros
      | .ok _ => (MacroFin.onTimerFired cr sm.cfg ctx id sm.macros).state := by
  have hlast : ∀ o : Result StateMachine, (o.andThen fun sm =>
      sm.onVertices (VertexCert.onTimerFired sm.cfg ctx id)).state.macros = o.state.macros := by
    intro o
    cases hr : o.result with
    | error e => rw [Outcome.andThen_of_error hr]
    | ok acts =>
      rw [Outcome.andThen_of_ok hr]
      rfl
  rw [StateMachine.onTimerFired, hlast]
  cases hr : (Bullshark.onTimerFired cr sm.cfg id ctx sm.waves).result with
  | error e =>
    have hwaves : (sm.onWaves (Bullshark.onTimerFired cr sm.cfg id ctx)).result = .error e := hr
    rw [Outcome.andThen_of_error hwaves]
    rfl
  | ok acts =>
    have hwaves : (sm.onWaves (Bullshark.onTimerFired cr sm.cfg id ctx)).result = .ok acts := hr
    rw [Outcome.andThen_of_ok hwaves]
    rfl

theorem onMacroProposal_partials (cr : Crypto) (cfg : Config) (ctx : HostContext)
    (p : MacroProposal) (book : MacroBook) :
    (onMacroProposal cr cfg ctx p book).state.partials = (book.noting
      (if accepts cr cfg ctx p book then some (p.checkpoint.hash, book.selfId)
        else none)).partials := by
  cases hacc : accepts cr cfg ctx p book with
  | true =>
    obtain ⟨set, beacon, mode, locks, -, -, -, hcast⟩ := onMacroProposal_casts cr cfg ctx hacc
    rw [hcast, (castVote_spares cr cfg ctx set beacon mode locks p.checkpoint _).partials]
    rfl
  | false =>
    cases onMacroProposal_effect cr cfg ctx p book with
    | inl hspares => exact hspares.partials
    | inr hrevises => exact absurd (hrevises.2.symm.trans hacc) (by decide)

theorem exec_partials (cr : Crypto) (call : NodeCall) :
    (StateMachine.exec cr call.input call.pre).state.macros.partials =
      (call.pre.macros.noting (call.notes cr)).partials := by
  obtain ⟨sm, req, ctx⟩ := call
  cases req with
  | genesis => rfl
  | event e =>
    cases e with
    | certifiedVertexReceived cv =>
      cases exec_runs cr ⟨sm, .event (.certifiedVertexReceived cv), ctx⟩ with
      | inl hskip => exact congrArg MacroBook.partials hskip.1
      | inr hrun =>
        obtain ⟨f, hf, hstate, -⟩ := hrun
        rw [hstate]
        cases hf with
        | micro cv acts hev hacts => exact (onLocalMicroQcs_feeds acts _).partials
        | proposal p hev => cases hev
        | vote bp hev => cases hev
        | aggregate a hev => cases hev
        | qc qc hev => cases hev
        | timer id hev => cases hev
    | timerFired id =>
      have hmacros := timer_macros cr sm ctx id
      change (sm.onTimerFired cr ctx id).state.macros.partials =
        (sm.macros.noting (match (Bullshark.onTimerFired cr sm.cfg id ctx sm.waves).result with
          | .error _ => none
          | .ok _ => notedTimer sm.cfg ctx id sm.macros)).partials
      rw [hmacros]
      cases hr : (Bullshark.onTimerFired cr sm.cfg id ctx sm.waves).result with
      | error e => rfl
      | ok acts => exact (onTimerFired_spares cr sm.cfg ctx id sm.macros).partials
    | macroProposalReceived p => exact onMacroProposal_partials cr sm.cfg ctx p sm.macros
    | blsPartialReceived bp =>
      exact (effect_keeps (onBlsPartial_effect cr sm.cfg ctx bp sm.macros)).2.1
    | subnetAggregateReceived a =>
      exact (effect_keeps (onSubnetAggregate_effect cr sm.cfg ctx a sm.macros)).2.1
    | macroQcReceived qc =>
      exact (effect_keeps (onMacroQcReceived_effect cr sm.cfg ctx qc sm.macros)).2.1
    | _ => rfl

theorem exec_signers (cr : Crypto) (call : NodeCall) (h : Hash32) (v : ValidatorId) :
    v ∈ (StateMachine.exec cr call.input call.pre).state.macros.signersOf h ↔
      v ∈ call.pre.macros.signersOf h ∨ call.notes cr = some (h, v) := by
  rw [← MacroBook.signersOf_noting]
  simp only [MacroBook.signersOf, exec_partials]

theorem adopt_named {c d : MacroCore} {acts : List Action} (h : Adopt cr call c acts d) :
    call.names ≠ none := by
  cases h with
  | mk set height cand qc own leak hset hpre hnew hc hnames hqc hleak => simp [hnames]

theorem adopts_named (h : call.names = none) : adopts cr call = false := by
  have hkept : KeptBy cr (fun _ _ _ => True) call :=
    ⟨fun _ _ _ _ _ _ _ _ _ => trivial, fun _ _ _ _ _ _ => trivial⟩
  have hnone : persistedQcs (StateMachine.exec cr call.input call.pre).actions = [] := by
    rw [← persistedQcs_adoptionsIn]
    cases hkept.call [] [] trivial with
    | inl hsteady => rw [hsteady.2]; rfl
    | inr hadopts =>
      obtain ⟨d, acts, -, hadopt, -⟩ := hadopts
      exact absurd h (adopt_named hadopt)
  simp [adopts, hnone]

theorem reputation_unnamed (h : call.names = none) :
    (StateMachine.exec cr call.input call.pre).state.macros.reputation =
      call.pre.macros.reputation := by
  cases exec_runs cr call with
  | inl hskip => rw [hskip.1]
  | inr hrun =>
    obtain ⟨f, hf, hstate, -⟩ := hrun
    rw [hstate]
    cases hf with
    | micro cv acts hev hacts => exact (onLocalMicroQcs_feeds acts _).reputation
    | proposal p hev =>
      cases onMacroProposal_effect cr call.pre.cfg call.ctx p call.pre.macros with
      | inl hspares => exact hspares.reputation
      | inr hrevises => exact hrevises.1.reputation
    | timer id hev =>
      rw [(onTimerFired_spares cr _ _ id _).reputation, MacroBook.noting_reputation]
    | vote bp hev => simp [NodeCall.names, hev] at h
    | aggregate a hev => simp [NodeCall.names, hev] at h
    | qc qc hev => simp [NodeCall.names, hev] at h

/-- A handler that spares or credits the signers on record counts them if it adopts. -/
theorem reputation_effect {h : Hash32} {b : MacroBook} {o : Result MacroBook}
    (ho : Spares b o ∨ Credits (b.signersOf h) b o) (v : ValidatorId) :
    o.state.reputation v = b.reputation v + if (!(persistedQcs o.actions).isEmpty &&
      decide (v ∈ o.state.signersOf h)) = true then 1 else 0 := by
  have hsigners : o.state.signersOf h = b.signersOf h := by
    simp only [MacroBook.signersOf, (effect_keeps ho).2.1]
  rw [hsigners]
  cases ho with
  | inl hspares => simp [hspares.quiet, hspares.reputation]
  | inr hcredits =>
    obtain ⟨acts, qc, hacts, hqc⟩ := hcredits.adopts
    rw [hcredits.reputation]
    simp only [Outcome.actions, hacts, hqc, bumpReputation]
    by_cases hv : v ∈ b.signersOf h
    · simp [hv]
    · simp [hv]

/-- One call: every validator on record for the checkpoint is credited once if the call adopts
its QC. -/
theorem exec_reputation (cr : Crypto) (call : NodeCall) (v : ValidatorId) :
    let after := (StateMachine.exec cr call.input call.pre).state.macros
    after.reputation v = call.pre.macros.reputation v +
      if (adopts cr call && call.names.any fun h => decide (v ∈ after.signersOf h)) = true
        then 1 else 0 := by
  cases hnames : call.names with
  | none => simp [adopts_named hnames, reputation_unnamed hnames]
  | some x =>
    obtain ⟨sm, req, ctx⟩ := call
    cases req with
    | genesis => cases hnames
    | event e =>
      cases e with
      | blsPartialReceived bp =>
        cases hnames
        have heffect := reputation_effect (onBlsPartial_effect cr sm.cfg ctx bp sm.macros) v
        rw [MacroBook.noting_reputation] at heffect
        exact heffect
      | subnetAggregateReceived a =>
        cases hnames
        exact reputation_effect (onSubnetAggregate_effect cr sm.cfg ctx a sm.macros) v
      | macroQcReceived qc =>
        cases hnames
        exact reputation_effect (onMacroQcReceived_effect cr sm.cfg ctx qc sm.macros) v
      | _ => cases hnames

end Step

theorem credits_snoc (cr : Crypto) (hist : List NodeCall) (call : NodeCall) (v : ValidatorId) :
    credits cr (hist ++ [call]) v = credits cr hist v +
      if (adopts cr call && call.names.any fun h =>
        (hist ++ [call]).any fun c => c.notes cr == some (h, v)) = true then 1 else 0 := by
  have hlast : credited cr v (hist ++ [call]) = (adopts cr call && call.names.any fun h =>
      (hist ++ [call]).any fun c => c.notes cr == some (h, v)) := by
    simp [credited]
  have hinits : (hist ++ [call]).inits = hist.inits ++ [hist ++ [call]] := by
    simp [List.inits_append]
  rw [← hlast, credits, hinits, List.countP_append, List.countP_singleton, ← credits]

/-- On record are the partials noted by the calls of the run; the reputation of a validator
counts the adoptions that came after its partial. -/
theorem run_reputation (cr : Crypto) (cfg : Config) (self : ValidatorId)
    (is : List StateMachine.Input) (v : ValidatorId) :
    let book := (StateMachine.reached cr cfg self is).macros
    let calls : List NodeCall := StateMachine.run cr cfg self is
    (∀ h, v ∈ book.signersOf h ↔ ∃ call ∈ calls, call.notes cr = some (h, v)) ∧
      book.reputation v = credits cr calls v := by
  refine Trace.invariant (StateMachine.exec cr) (fun _ => True)
    (fun (hist : List NodeCall) sm =>
      (∀ h, v ∈ sm.macros.signersOf h ↔ ∃ call ∈ hist, call.notes cr = some (h, v)) ∧
        sm.macros.reputation v = credits cr hist v) (StateMachine.new cfg self) ?_
    ?_ is (fun _ _ => trivial)
  · refine ⟨fun h => ?_, rfl⟩
    simp [StateMachine.new, MacroBook.new, MacroBook.signersOf]
  · rintro hist sm i ⟨hsigners, hrep⟩ -
    have hnow : ∀ h, v ∈ (StateMachine.exec cr i sm).state.macros.signersOf h ↔
        ∃ call ∈ hist ++ [⟨sm, i⟩], NodeCall.notes cr call = some (h, v) := by
      intro h
      have hstep := exec_signers cr ⟨sm, i⟩ h v
      rw [hsigners h] at hstep
      rw [hstep]
      simp only [List.mem_append, List.mem_singleton, or_and_right, exists_or, exists_eq_left]
    refine ⟨hnow, ?_⟩
    have hstep := exec_reputation cr ⟨sm, i⟩ v
    have htime : ∀ h, decide (v ∈ (StateMachine.exec cr i sm).state.macros.signersOf h) =
        List.any (hist ++ [⟨sm, i⟩]) fun c => NodeCall.notes cr c == some (h, v) := by
      intro h
      rw [Bool.eq_iff_iff, decide_eq_true_iff, List.any_eq_true, hnow h]
      simp only [beq_iff_eq]
    simp only [htime, hrep] at hstep
    rw [credits_snoc]
    exact hstep

/-- The same updates for every validator, and with them the same proposers at every height
under every beacon. -/
def SameSchedule (cr : Crypto) (book book' : MacroBook) : Prop :=
  (∀ v, book.reputation v = book'.reputation v) ∧
    ∀ beacon set height, vrfSortition cr beacon set height book.reputation =
      vrfSortition cr beacon set height book'.reputation

/-- Two nodes share a schedule exactly when each validator was on record at the same number
of adoptions of either. -/
theorem schedule_agreement (cr : Crypto) (cfg cfg' : Config) (self self' : ValidatorId)
    (is is' : List StateMachine.Input) :
    SameSchedule cr (StateMachine.reached cr cfg self is).macros
        (StateMachine.reached cr cfg' self' is').macros ↔
      ∀ v, credits cr (StateMachine.run cr cfg self is) v =
        credits cr (StateMachine.run cr cfg' self' is') v := by
  constructor
  · intro h v
    rw [← (run_reputation cr cfg self is v).2, ← (run_reputation cr cfg' self' is' v).2]
    exact h.1 v
  · intro h
    have hrep : ∀ v, (StateMachine.reached cr cfg self is).macros.reputation v =
        (StateMachine.reached cr cfg' self' is').macros.reputation v := by
      intro v
      rw [(run_reputation cr cfg self is v).2, (run_reputation cr cfg' self' is' v).2]
      exact h v
    refine ⟨hrep, ?_⟩
    intro beacon set height
    rw [funext hrep]

section Devnet
open Devnet

def ratedCrypto : Crypto := { openCrypto with
  sortitionScore := fun beta _ _ rep => (beta.val + 4) / (rep + 1) }

/-- The node votes on the first proposal and hears of both other votes before their QC. -/
def earlyPartials : List (Round × Event) :=
  [closesWave 1, proposal 0 a0, partialOn 1 a0.hash, partialOn 3 a0.hash,
    qcReceived [1, 2, 3] a0.hash]

def latePartials : List (Round × Event) :=
  [closesWave 1, proposal 0 a0, qcReceived [1, 2, 3] a0.hash, partialOn 1 a0.hash,
    partialOn 2 a0.hash]

/-- Both nodes adopt the same QC; one has credited validator 1 and the other has not, and
they expect different proposers of the next height. -/
theorem schedules_part :
    persistedQcs (StateMachine.actions ratedCrypto config ⟨2⟩ (script 2 earlyPartials)) =
        [qcBy [1, 2, 3] a0.hash] ∧
      persistedQcs (StateMachine.actions ratedCrypto config ⟨3⟩ (script 3 latePartials)) =
        [qcBy [1, 2, 3] a0.hash] ∧
      ¬ SameSchedule ratedCrypto
        (StateMachine.reached ratedCrypto config ⟨2⟩ (script 2 earlyPartials)).macros
        (StateMachine.reached ratedCrypto config ⟨3⟩ (script 3 latePartials)).macros ∧
      vrfSortition ratedCrypto ⟨0⟩ validators 1
          (StateMachine.reached ratedCrypto config ⟨2⟩ (script 2 earlyPartials)).macros.reputation =
        .ok ⟨1, ⟨1⟩, ⟨2⟩⟩ ∧
      vrfSortition ratedCrypto ⟨0⟩ validators 1
          (StateMachine.reached ratedCrypto config ⟨3⟩ (script 3 latePartials)).macros.reputation =
        .ok ⟨1, ⟨3⟩, ⟨0⟩⟩ := by
  refine ⟨by decide, by decide, ?_, by decide, by decide⟩
  intro h
  exact absurd (h.1 ⟨1⟩) (by decide)

end Devnet
end LuaDag
