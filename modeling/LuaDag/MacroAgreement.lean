import LuaDag.MacroQuorum

/-! L3 agreement: two adopted checkpoints of one height are each signed by a quorum,
the quorums share an honest member, and an honest member votes once per height. -/
namespace LuaDag
open MacroFin

section Node
variable {cr : Crypto} {set : ValidatorSet} {self : ValidatorId}

def AgreementHistory (cr : Crypto) (set : ValidatorSet) (self : ValidatorId) (log : List SignReq)
    (as : List Action) (c : MacroCore) : Prop :=
  FormHistory cr log as c ∧ SignerInv cr set self (fun _ => True) c ∧
    ∀ cp ∈ persistedCheckpoints as,
      BuiltAt cr cp.height cp.hash ∧ QuorumOn cr set (fun _ => True) cp.hash

theorem agreementHistory_kept {call : NodeCall} (hports : OwnPorts cr set self call) :
    KeptBy cr (AgreementHistory cr set self) call where
  move := fun log as _ _ _ _ hsg hm h =>
    ⟨(formHistory_kept cr call).move log as _ _ _ _ hsg hm h.1,
      signerInv_move hports (fun _ _ _ _ => trivial) hsg hm h.2.1, h.2.2⟩
  other := fun log as _ sg hsg h =>
    ⟨(formHistory_kept cr call).other log as _ sg hsg h.1, h.2⟩

theorem agreementHistory_adopt (hsound : SoundAggregates cr) {call : NodeCall}
    (hports : OwnPorts cr set self call) (hgood : thinQc cr call = false)
    {log : List SignReq} {as : List Action} {c d : MacroCore} {acts : List Action}
    (h : AgreementHistory cr set self log as c) (ha : Adopt cr call c acts d) :
    AgreementHistory cr set self log (as ++ adoptionsIn acts) d := by
  refine ⟨formHistory_adopt h.1 ha, ?_⟩
  cases ha with
  | mk s height cand qc own leak hset hpre hnew hc hnames hqc hleak =>
    refine ⟨signerInv_adopted h.2.1, ?_⟩
    rw [persistedCheckpoints_append, persistedCheckpoints_adoptionsIn,
      (persisted_of_adoption c cand qc own leak hleak _).1]
    intro cp hcp
    cases List.mem_append.mp hcp with
    | inl hold => exact h.2.2 cp hold
    | inr hnewest =>
      rw [List.mem_singleton.mp hnewest]
      have hs := hports.serves s hset
      subst hs
      refine ⟨?_, backing_quorum hsound hports hgood hset hpre hc hnew trivial h.2.1 hqc⟩
      rw [(h.1.1.1.height height cand hc).1]
      exact h.1.2.candidate height cand hc

theorem run_agreement (hsound : SoundAggregates cr) {cfg : Config}
    {is : List StateMachine.Input}
    (hports : ∀ call ∈ StateMachine.run cr cfg self is, OwnPorts cr set self call)
    (hgood : ∀ call ∈ StateMachine.run cr cfg self is, thinQc cr call = false)
    {cp : MacroCheckpoint} (hcp : cp ∈ persistedCheckpoints (StateMachine.actions cr cfg self is)) :
    BuiltAt cr cp.height cp.hash ∧ QuorumOn cr set (fun _ => True) cp.hash := by
  have hinv := run_invariant (P := AgreementHistory cr set self)
    (fun call => OwnPorts cr set self call ∧ thinQc cr call = false)
    (fun _ hg => agreementHistory_kept hg.1)
    (fun _ hg _ _ _ _ _ => agreementHistory_adopt hsound hg.1 hg.2) cfg self
    ⟨formHistory_init cr self, signerInv_init self, by simp [persistedCheckpoints]⟩ is
    (fun call hcall => ⟨hports call hcall, hgood call hcall⟩)
  apply hinv.2.2
  rw [persistedCheckpoints_adoptionsIn]
  exact hcp

theorem vote_height (hinj : HashInjective cr) {cfg : Config} {is : List StateMachine.Input}
    {cp q : MacroCheckpoint} (hcp : BuiltAt cr cp.height cp.hash) (hq : q.hash = cp.hash)
    (hvote : VotedFor (StateMachine.signLog cr cfg self is) q) : q.height = cp.height := by
  have hbuilt := (run_form cr cfg self is).2.vote q hvote
  rw [hq] at hbuilt
  exact hbuilt.height_unique hinj hcp

end Node

/-- The honest members, each running on its own inputs, never persist different
checkpoints at one height. -/
def MacroAgreement (cr : Crypto) (cfg : Config) (com : Committee)
    (is : ValidatorId → List StateMachine.Input) : Prop :=
  ∀ e ∈ com.set.entries, ∀ e' ∈ com.set.entries, e.id ∉ com.byzantine → e'.id ∉ com.byzantine →
    ∀ cp cp', Action.persistMacroCheckpoint cp ∈ StateMachine.actions cr cfg e.id (is e.id) →
      Action.persistMacroCheckpoint cp' ∈ StateMachine.actions cr cfg e'.id (is e'.id) →
      cp.height = cp'.height → cp.hash = cp'.hash

/-- Agreement holds as long as no honest member adopts a thin QC or casts a stale vote. -/
theorem macro_agreement (cr : Crypto) (hinj : HashInjective cr) (hsound : SoundAggregates cr)
    (cfg : Config) (com : Committee) (is : ValidatorId → List StateMachine.Input)
    (hunf : Unforgeable cr com fun v => StateMachine.signLog cr cfg v (is v))
    (hports : ∀ e ∈ com.set.entries, e.id ∉ com.byzantine →
      ∀ call ∈ StateMachine.run cr cfg e.id (is e.id),
        OwnPorts cr com.set e.id call)
    (hgood : ∀ e ∈ com.set.entries, e.id ∉ com.byzantine →
      ∀ call ∈ StateMachine.run cr cfg e.id (is e.id),
        thinQc cr call = false ∧ staleVote cr call = false) :
    MacroAgreement cr cfg com is := by
  intro e he e' he' hid hid' cp cp' hcp hcp' hheight
  obtain ⟨hbuilt, A, hA, hcA, hsigned⟩ := run_agreement hsound (hports e he hid)
    (fun c hc => (hgood e he hid c hc).1) (mem_persistedCheckpoints hcp)
  obtain ⟨hbuilt', B, hB, hcB, hsigned'⟩ := run_agreement hsound (hports e' he' hid')
    (fun c hc => (hgood e' he' hid' c hc).1) (mem_persistedCheckpoints hcp')
  obtain ⟨i, hiA, hiB, w, hw, hwid⟩ := com.common_honest hA hB hcA hcB
  obtain ⟨q, -, hq, hsig⟩ := hsigned i hiA
  obtain ⟨q', -, hq', hsig'⟩ := hsigned' i hiB
  have hvote := hsig.of_honest hunf hw hwid
  have hvote' := hsig'.of_honest hunf hw hwid
  have hlock := run_lock cr cfg w.id (is w.id)
    (fun c hc => (hgood w (List.mem_of_getElem? hw) hwid c hc).2)
  rw [← hq, ← hq']
  exact hlock.2.once cp.height q.hash q'.hash ⟨q, hvote, vote_height hinj hbuilt hq hvote, rfl⟩
    ⟨q', hvote', (vote_height hinj hbuilt' hq' hvote').trans hheight.symm, rfl⟩

section Devnet
open Devnet

def leaderlessRecords : List Record := proposedBy 0 a0 :: partialsBy [0, 1, 2] a0

def leaderlessScript (i : Nat) : List (Round × Event) :=
  [closesWave 1, (5, .timerFired (if i = 1 then 1 else 0)), qcReceived [0, 1, 2] a0.hash]

theorem macro_agreement_leaderless :
    MacroAgreement (crypto (recordedIn leaderlessRecords)) config committee
      fun v => script v.val (leaderlessScript v.val) := by
  refine macro_agreement _ (hashInjective _) (soundAggregates _) _ _ _
    (unforgeable (by decide)) ?_ (by decide)
  intro e he hid
  have hlt : e.id.val < 4 := by
    revert e
    decide
  refine ownPorts hlt ?_
  revert e
  decide

def splitRecords : List Record := partialsBy [3] a0 ++ partialsBy [3] b0

def splitInputs (v : ValidatorId) : List StateMachine.Input :=
  if v = ⟨1⟩ then script 1 [closesWave 1, qcReceived [3] a0.hash]
  else if v = ⟨2⟩ then script 2 [closesWave 2, qcReceived [3] b0.hash]
  else []

theorem macro_disagreement :
    HashInjective (crypto (recordedIn splitRecords)) ∧
      SoundAggregates (crypto (recordedIn splitRecords)) ∧
      Unforgeable (crypto (recordedIn splitRecords)) committee
        (fun v => StateMachine.signLog (crypto (recordedIn splitRecords)) config v
          (splitInputs v)) ∧
      ¬ MacroAgreement (crypto (recordedIn splitRecords)) config committee splitInputs := by
  refine ⟨hashInjective _, soundAggregates _, unforgeable (by decide), ?_⟩
  intro h
  have heq := h (entry 1) (by decide) (entry 2) (by decide) (by decide) (by decide) a0 b0
    (by decide) (by decide) rfl
  exact absurd heq (by decide)

end Devnet
end LuaDag
