import LuaDag.NetworkCertificates
import LuaDag.Shadow
import LuaDag.WorldTimers

/-! A world whose validators propose their own vertices is a run of the network: the message bus
only delays, repeats or loses what the machines sent, and every step calls one of them. So the DAG
that the validators share is one that honest nodes certify. -/
namespace LuaDag

theorem VirtualNet.carriedBy_of_wireEvent {a : Action} {e : Event} (h : wireEvent a = some e) :
    Network.carriedBy e = some a := by
  cases a <;> cases h <;> rfl

theorem VertexCert.genesisPropose_started (cr : Crypto) (call : NodeCall) (book : VertexBook) :
    (genesisPropose cr call.pre.cfg call.ctx book).state.started = true := by
  unfold genesisPropose
  split
  · rename_i hst
    exact hst
  · let started : VertexBook := { book with started := true }
    have hdef : proposeRound cr call.pre.cfg call.ctx 0 [] started =
        (announce cr call.pre.cfg call.ctx 0 [] started).andThen
          (tryFinalize cr call.pre.cfg call.ctx (ownVertex cr call.ctx started 0 []).hash) := rfl
    rw [hdef, Outcome.andThen_of_ok rfl]
    have htry := @tryFinalizeWith_moves cr call _ maybeAdvance_moves
      (ownVertex cr call.ctx started 0 []).hash
      (announce cr call.pre.cfg call.ctx 0 [] started).state
    have hseeded : (announce cr call.pre.cfg call.ctx 0 [] started).state.started = true := rfl
    have htried := bookSteady_started htry hseeded
    exact htried

theorem validatorIdForIndex_inj {i j : Nat} (h : validatorIdForIndex i = validatorIdForIndex j) :
    i = j := by
  have hval : i * 2 ^ 224 = j * 2 ^ 224 := congrArg ValidatorId.val h
  exact Nat.eq_of_mul_eq_mul_right (by decide) hval

namespace Network
variable {cr : Crypto} {cfg : Config} {ds : List Delivery}

theorem reached_snoc (d : Delivery) :
    reached cr cfg (ds ++ [d]) = (exec cr d (reached cr cfg ds)).state := by
  rw [reached, Trace.final_append]
  rfl

theorem run_snoc (d : Delivery) :
    run cr cfg (ds ++ [d]) = run cr cfg ds ++ [⟨reached cr cfg ds, d⟩] := by
  rw [run, Trace.calls_append]
  rfl

theorem sent_append (es : List Delivery) {a : Action} (h : a ∈ (reached cr cfg ds).sent) :
    a ∈ (reached cr cfg (ds ++ es)).sent := by
  induction es using List.reverseRecOn with
  | nil => rwa [List.append_nil]
  | append_singleton es d ih =>
    rw [← List.append_assoc, reached_snoc]
    exact List.mem_append_left _ ih

theorem reached_uncalled {v : ValidatorId} (h : ∀ d ∈ ds, d.1 ≠ v) :
    (reached cr cfg ds).nodes v = StateMachine.new cfg v := by
  have hnone : (ds.filter fun d => d.1 = v) = [] :=
    List.filter_eq_nil_iff.mpr fun d hd => by simpa using h d hd
  rw [reached_node, hnone]
  rfl

end Network

namespace SimWorld
open Shadow (Leads)
variable {ρ : Type}

def valsetOf (sim : Sim ρ) (n : Nat) : ValidatorSet :=
  ⟨0, (List.range n).map (entry sim), n * 1000⟩

def Returned (cr : Crypto) (call : NetworkCall) : Prop :=
  ∃ acts, (StateMachine.exec cr call.input.2 (call.pre.nodes call.input.1)).result = .ok acts

/-- Deliveries that a world makes: to its own validators, with their own ports, of what has been
sent. All calls return but perhaps the last. -/
structure Played (sim : Sim ρ) (n : Nat) (cfg : Config) (ds : List Delivery) : Prop where
  authentic : ∀ call ∈ Network.run sim.cr cfg ds,
    NetworkCall.authentic (valsetOf sim n) call = true
  ports : ∀ d ∈ ds, ∃ i < n, d.1 = validatorIdForIndex i ∧ d.2.2.signBls = sim.ring.signBls i ∧
    activeSet d.2.2 = .ok (valsetOf sim n)
  returned : ∀ call ∈ (Network.run sim.cr cfg ds).dropLast, Returned sim.cr call

/-- A world and a run of the network that has come to the same. -/
structure Mirrors (sim : Sim ρ) (n : Nat) (cfg : Config) (ds : List Delivery) (w : SimWorld ρ) :
    Prop where
  size : w.machines.length = n
  valset : w.valset = valsetOf sim n
  distributed : w.distributedVertices = true
  machines : ∀ i sm, w.machines[i]? = some sm →
    sm = (Network.reached sim.cr cfg ds).nodes (validatorIdForIndex i)
  pending : ∀ m ∈ w.net.pending, ∃ a ∈ (Network.reached sim.cr cfg ds).sent,
    VirtualNet.wireEvent a = some m.event
  dag : ∃ vs, w.dag = LiveDag.of vs ∧
    ∀ cv ∈ vs, Action.broadcastCertifiedVertex cv ∈ (Network.reached sim.cr cfg ds).sent
  played : Played sim n cfg ds

/-- Nothing has failed so far. The first `k` validators have been started and no others called,
and the certificates that have been sent are in the DAG, but for those of the actions `todo`. -/
structure Going (sim : Sim ρ) (cfg : Config) (k round : Nat) (todo : List Action)
    (ds : List Delivery) (w : SimWorld ρ) : Prop where
  round : w.virtualRound = round
  returned : ∀ call ∈ Network.run sim.cr cfg ds, Returned sim.cr call
  started : ∀ i < k,
    ((Network.reached sim.cr cfg ds).nodes (validatorIdForIndex i)).vertices.started = true
  called : ∀ d ∈ ds, ∃ i < k, d.1 = validatorIdForIndex i
  filed : ∀ cv, Action.broadcastCertifiedVertex cv ∈ (Network.reached sim.cr cfg ds).sent →
    cv ∈ w.dag.byRound[cv.vertex.round]?.getD [] ∨ Action.broadcastCertifiedVertex cv ∈ todo

section Step
variable {sim : Sim ρ} {n : Nat} {cfg : Config} {k round idx now : Nat} {todo : List Action}
  {ds : List Delivery} {w : SimWorld ρ}

theorem activeSet_context (h : Mirrors sim n cfg ds w) (idx : Nat) :
    activeSet (w.context sim idx) = .ok (valsetOf sim n) := by
  simp only [activeSet, context, setFor, h.valset, valsetOf, if_true]

/-- One more call of the network, made by the world. -/
theorem Mirrors.call (h : Mirrors sim n cfg ds w)
    (hret : ∀ call ∈ Network.run sim.cr cfg ds, Returned sim.cr call) {sm : StateMachine}
    (hsm : w.machines[idx]? = some sm) (req : StateMachine.Request)
    (hauth : NetworkCall.authentic (valsetOf sim n) ⟨Network.reached sim.cr cfg ds,
      validatorIdForIndex idx, req, w.context sim idx⟩ = true) :
    Mirrors sim n cfg (ds ++ [(validatorIdForIndex idx, req, w.context sim idx)])
      { w with
        machines := w.machines.set idx
          (StateMachine.exec sim.cr (req, w.context sim idx) sm).state } := by
  obtain ⟨hlt, -⟩ := List.getElem?_eq_some_iff.mp hsm
  have hnode := h.machines idx sm hsm
  refine ⟨by rw [List.length_set, h.size], h.valset, h.distributed, ?_, ?_, ?_, ?_, ?_, ?_⟩
  · intro i sm' hi
    rw [Network.reached_snoc]
    by_cases heq : idx = i
    · subst heq
      rw [List.getElem?_set_self hlt] at hi
      cases hi
      simp only [Network.exec, Function.update_self, ← hnode]
    · rw [List.getElem?_set_ne heq] at hi
      have hne : validatorIdForIndex i ≠ validatorIdForIndex idx :=
        fun hid => heq (validatorIdForIndex_inj hid).symm
      simp only [Network.exec, Function.update_of_ne hne]
      exact h.machines i sm' hi
  · intro m hm
    obtain ⟨a, ha, hwire⟩ := h.pending m hm
    exact ⟨a, Network.sent_append _ ha, hwire⟩
  · obtain ⟨vs, hdag, hvs⟩ := h.dag
    exact ⟨vs, hdag, fun cv hcv => Network.sent_append _ (hvs cv hcv)⟩
  · intro c hc
    rw [Network.run_snoc] at hc
    cases List.mem_append.mp hc with
    | inl hold => exact h.played.authentic c hold
    | inr hnew =>
      cases List.mem_singleton.mp hnew
      exact hauth
  · intro d hd
    cases List.mem_append.mp hd with
    | inl hold => exact h.played.ports d hold
    | inr hnew =>
      cases List.mem_singleton.mp hnew
      exact ⟨idx, h.size ▸ hlt, rfl, rfl, activeSet_context h idx⟩
  · rw [Network.run_snoc, List.dropLast_concat]
    exact hret

/-- An action other than a certificate is done. -/
theorem Going.drop {a : Action} (h : Going sim cfg k round (a :: todo) ds w)
    (ha : ∀ cv, a ≠ .broadcastCertifiedVertex cv) : Going sim cfg k round todo ds w := by
  refine { h with filed := fun cv hcv => (h.filed cv hcv).imp_right fun hin => ?_ }
  cases List.mem_cons.mp hin with
  | inl heq => exact absurd heq.symm (ha cv)
  | inr hrest => exact hrest

/-- The call has returned `acts`, which are to be applied. -/
theorem Going.call (h : Going sim cfg k round todo ds w) (hm : Mirrors sim n cfg ds w)
    {sm : StateMachine} (hsm : w.machines[idx]? = some sm) (req : StateMachine.Request)
    {acts : List Action}
    (hok : (StateMachine.exec sim.cr (req, w.context sim idx) sm).result = .ok acts) {k' : Nat}
    (hstarted : ∀ i < k', i < k ∨ i = idx ∧
      (StateMachine.exec sim.cr (req, w.context sim idx) sm).state.vertices.started = true)
    (hle : k ≤ k') (hidx : idx < k') (journal : List StateMachine) :
    Going sim cfg k' round (acts ++ todo)
      (ds ++ [(validatorIdForIndex idx, req, w.context sim idx)])
      { w with machines := journal } := by
  have hnode := hm.machines idx sm hsm
  let call : NodeCall := ⟨sm, req, w.context sim idx⟩
  have hbook : (StateMachine.exec sim.cr (req, w.context sim idx) sm).state.vertices =
      (call.vertexOutcome sim.cr).state := (exec_fromVertices sim.cr call).book
  refine ⟨h.round, ?_, ?_, ?_, ?_⟩
  · intro c hc
    rw [Network.run_snoc] at hc
    cases List.mem_append.mp hc with
    | inl hold => exact h.returned c hold
    | inr hnew =>
      cases List.mem_singleton.mp hnew
      exact ⟨acts, by rw [← hnode]; exact hok⟩
  · intro i hi
    rw [Network.reached_snoc]
    by_cases heq : i = idx
    · subst heq
      simp only [Network.exec, Function.update_self, ← hnode]
      cases hstarted i hi with
      | inl hlt =>
        rw [hbook]
        refine VertexCert.bookSteady_started (vertexOutcome_moves sim.cr call) ?_
        have hst := h.started i hlt
        rwa [← hnode] at hst
      | inr hnew => exact hnew.2
    · have hne : validatorIdForIndex i ≠ validatorIdForIndex idx :=
        fun hid => heq (validatorIdForIndex_inj hid)
      simp only [Network.exec, Function.update_of_ne hne]
      cases hstarted i hi with
      | inl hlt => exact h.started i hlt
      | inr hnew => exact absurd hnew.1 heq
  · intro d hd
    cases List.mem_append.mp hd with
    | inl hold =>
      obtain ⟨i, hi, hid⟩ := h.called d hold
      exact ⟨i, Nat.lt_of_lt_of_le hi hle, hid⟩
    | inr hnew =>
      cases List.mem_singleton.mp hnew
      exact ⟨idx, hidx, rfl⟩
  · intro cv hcv
    rw [Network.reached_snoc] at hcv
    cases List.mem_append.mp hcv with
    | inl hold => exact (h.filed cv hold).imp_right fun hin => List.mem_append_right _ hin
    | inr hnew =>
      refine Or.inr (List.mem_append_left _ ?_)
      rw [← hnode] at hnew
      have hactions : Action.broadcastCertifiedVertex cv ∈
          (StateMachine.exec sim.cr (req, w.context sim idx) sm).actions := hnew
      rwa [Outcome.actions, hok] at hactions

/- Actions. -/

theorem send_leads {a : Action} (h : Mirrors sim n cfg ds w)
    (hg : Going sim cfg k round todo ds w) (ha : a ∈ (Network.reached sim.cr cfg ds).sent) :
    Leads (Mirrors sim n cfg) (Going sim cfg k round todo) ds (send sim idx a now w) := by
  unfold send
  split
  · exact Leads.fail h _
  · rename_i net rng hsent
    refine Leads.stay ⟨h.size, h.valset, h.distributed, h.machines, ?_, h.dag, h.played⟩
      ⟨hg.round, hg.returned, hg.started, hg.called, hg.filed⟩
    intro m hm
    unfold VirtualNet.enqueueFromAction at hsent
    split at hsent
    · cases hsent
      exact h.pending m hm
    · rename_i event hwire
      cases VirtualNet.sendToAll_adds hsent m hm with
      | inl hold => exact h.pending m hold
      | inr hnew => exact ⟨a, ha, by rw [hnew]; exact hwire⟩

def NetworkSteps (sim : Sim ρ) (n : Nat) (cfg : Config) (k : Nat)
    (stepV : Nat → Event → Nat → SimWorld ρ → SimResult ρ) : Prop :=
  ∀ idx (event : Event) now round todo ds w, (idx < n → idx < k) → Mirrors sim n cfg ds w →
    Going sim cfg k round todo ds w →
    (∀ a, Network.carriedBy event = some a → a ∈ (Network.reached sim.cr cfg ds).sent) →
    Leads (Mirrors sim n cfg) (Going sim cfg k round todo) ds (stepV idx event now w)

section Apply
variable {stepV : Nat → Event → Nat → SimWorld ρ → SimResult ρ}

theorem applyAction_leads (hstep : NetworkSteps sim n cfg k stepV) (hidx : idx < n → idx < k)
    {a : Action} (ha : a ∈ (Network.reached sim.cr cfg ds).sent) (h : Mirrors sim n cfg ds w)
    (hg : Going sim cfg k round (a :: todo) ds w) :
    Leads (Mirrors sim n cfg) (Going sim cfg k round todo) ds
      (applyAction sim stepV idx now a w) := by
  cases a with
  | broadcastMacroProposal p =>
    have hdone := hg.drop (by simp)
    unfold applyAction
    dsimp only
    split
    · exact Leads.stay h hdone
    · have hseen : Leads (Mirrors sim n cfg) (Going sim cfg k round todo) ds
          (if MacroFin.modeAActive (MacroFin.computeKe w.config w.machines.length) then
            stepV idx (.macroProposalReceived p) now w
          else .quiet w) := by
        split
        · refine hstep idx _ now round todo ds w hidx h hdone ?_
          intro a hcarried
          cases hcarried
          exact ha
        · exact Leads.stay h hdone
      exact hseen.andThen fun js h' hg' => send_leads h' hg' (Network.sent_append js ha)
  | persistMacroQc qc =>
    have hdone := hg.drop (by simp)
    unfold applyAction
    dsimp only
    split
    · exact Leads.stay h hdone
    · exact Leads.stay
        ⟨h.size, h.valset, h.distributed, h.machines, h.pending, h.dag, h.played⟩
        ⟨hdone.round, hdone.returned, hdone.started, hdone.called, hdone.filed⟩
  | scheduleTimer id delayNanos =>
    have hdone := hg.drop (by simp)
    exact Leads.stay
      ⟨h.size, h.valset, h.distributed, h.machines, h.pending, h.dag, h.played⟩
      ⟨hdone.round, hdone.returned, hdone.started, hdone.called, hdone.filed⟩
  | cancelTimer id =>
    have hdone := hg.drop (by simp)
    exact Leads.stay
      ⟨h.size, h.valset, h.distributed, h.machines, h.pending, h.dag, h.played⟩
      ⟨hdone.round, hdone.returned, hdone.started, hdone.called, hdone.filed⟩
  | broadcastCertifiedVertex cv =>
    obtain ⟨vs, hdag, hvs⟩ := h.dag
    have hingested : w.dag.ingest cv = LiveDag.of (vs ++ [cv]) := by
      rw [LiveDag.of_append, hdag]
    have hfiled : Mirrors sim n cfg ds { w with dag := w.dag.ingest cv } := by
      refine ⟨h.size, h.valset, h.distributed, h.machines, h.pending, ⟨_, hingested, ?_⟩, h.played⟩
      intro cv' hcv'
      cases List.mem_append.mp hcv' with
      | inl hold => exact hvs cv' hold
      | inr hnew =>
        cases List.mem_singleton.mp hnew
        exact ha
    have hdone : Going sim cfg k round todo ds { w with dag := w.dag.ingest cv } := by
      refine ⟨hg.round, hg.returned, hg.started, hg.called, ?_⟩
      intro cv' hcv'
      have hround : cv' ∈ w.dag.byRound[cv'.vertex.round]?.getD [] ∨ cv' = cv →
          cv' ∈ (w.dag.ingest cv).byRound[cv'.vertex.round]?.getD [] := by
        rw [hingested, hdag, LiveDag.byRound_of, LiveDag.byRound_of]
        simp [List.mem_filter]
      cases hg.filed cv' hcv' with
      | inl hold => exact Or.inl (hround (Or.inl hold))
      | inr hin =>
        cases List.mem_cons.mp hin with
        | inl heq =>
          cases heq
          exact Or.inl (hround (Or.inr rfl))
        | inr hrest => exact Or.inr hrest
    have hseen := hstep idx (.certifiedVertexReceived cv) now round todo ds _ hidx hfiled hdone
      (by
        intro a hcarried
        cases hcarried
        exact ha)
    exact hseen.andThen fun js h' hg' => send_leads h' hg' (Network.sent_append js ha)
  | persistMacroCheckpoint cp => exact Leads.stay h (hg.drop (by simp))
  | updateBlobStatus blob status => exact Leads.stay h (hg.drop (by simp))
  | notifyInactivityLeak windows bps => exact Leads.stay h (hg.drop (by simp))
  | broadcastMicroQc qc => exact send_leads h (hg.drop (by simp)) ha
  | broadcastBlsPartial bp => exact send_leads h (hg.drop (by simp)) ha
  | broadcastSubnetAggregate a => exact send_leads h (hg.drop (by simp)) ha
  | broadcastMacroQc qc => exact send_leads h (hg.drop (by simp)) ha
  | emitSlashEvidence offender evidence => exact send_leads h (hg.drop (by simp)) ha
  | broadcastVertexProposal p => exact send_leads h (hg.drop (by simp)) ha
  | broadcastVertexPartial bp => exact send_leads h (hg.drop (by simp)) ha

theorem applyActions_leads (hstep : NetworkSteps sim n cfg k stepV) (hidx : idx < n → idx < k)
    {actions : List Action} (hacts : ∀ a ∈ actions, a ∈ (Network.reached sim.cr cfg ds).sent)
    (h : Mirrors sim n cfg ds w) (hg : Going sim cfg k round (actions ++ todo) ds w) :
    Leads (Mirrors sim n cfg) (Going sim cfg k round todo) ds
      (applyActions sim stepV idx now actions w) := by
  induction actions generalizing ds w with
  | nil => exact Leads.stay h hg
  | cons a rest ih =>
    have hfirst := hacts a (List.mem_cons_self ..)
    exact (applyAction_leads hstep hidx hfirst h hg).andThen fun js h' hg' =>
      ih (fun a' ha' => Network.sent_append js (hacts a' (List.mem_cons_of_mem _ ha'))) h' hg'

theorem enter_leads (hstep : NetworkSteps sim n cfg k stepV) (hidx : idx < n → idx < k)
    {d : Delivery} {o : Result StateMachine} {journal : List TimerEvent}
    (h : Mirrors sim n cfg (ds ++ [d]) { w with machines := w.machines.set idx o.state })
    (hsent : ∀ a ∈ o.actions, a ∈ (Network.reached sim.cr cfg (ds ++ [d])).sent)
    (hg : ∀ acts, o.result = .ok acts → Going sim cfg k round (acts ++ todo) (ds ++ [d])
      { w with machines := w.machines.set idx o.state }) :
    Leads (Mirrors sim n cfg) (Going sim cfg k round todo) ds
      (enter sim stepV idx o journal now w) := by
  let entered : SimWorld ρ := { w with machines := w.machines.set idx o.state }
  refine Leads.after [d] ?_
  unfold enter
  refine Leads.andThen (G := fun es v => es = ds ++ [d] ∧ v = entered)
    (Leads.stay h ⟨rfl, rfl⟩) ?_
  rintro js - ⟨hjs, -⟩
  rw [hjs]
  cases hr : o.result with
  | error e => exact Leads.fail h e
  | ok acts =>
    refine applyActions_leads hstep hidx ?_ h (hg acts hr)
    intro a ha
    exact hsent a (by rwa [Outcome.actions, hr])

end Apply

/- Validators. -/

/-- A machine may be called with what has been sent, once it has been started. -/
theorem authentic_event (h : Mirrors sim n cfg ds w) (hg : Going sim cfg k round todo ds w)
    {sm : StateMachine} (hsm : w.machines[idx]? = some sm) (hidx : idx < n → idx < k)
    {event : Event} (hsent : ∀ a, Network.carriedBy event = some a →
      a ∈ (Network.reached sim.cr cfg ds).sent) :
    NetworkCall.authentic (valsetOf sim n) ⟨Network.reached sim.cr cfg ds,
      validatorIdForIndex idx, .event event, w.context sim idx⟩ = true := by
  obtain ⟨hlt, -⟩ := List.getElem?_eq_some_iff.mp hsm
  rw [h.size] at hlt
  have hmember : validatorIdForIndex idx ∈ (valsetOf sim n).entries.map (·.id) :=
    List.mem_map.mpr ⟨_, List.mem_map.mpr ⟨idx, List.mem_range.mpr hlt, rfl⟩, rfl⟩
  have hst := hg.started idx (hidx hlt)
  cases hcarried : Network.carriedBy event with
  | none => simp [NetworkCall.authentic, NetworkCall.node, hmember, hst, hcarried]
  | some a =>
    simp [NetworkCall.authentic, NetworkCall.node, hmember, hst, hcarried, hsent a hcarried]

theorem sent_call (h : Mirrors sim n cfg ds w) {sm : StateMachine}
    (hsm : w.machines[idx]? = some sm) (req : StateMachine.Request) :
    ∀ a ∈ (StateMachine.exec sim.cr (req, w.context sim idx) sm).actions,
      a ∈ (Network.reached sim.cr cfg
        (ds ++ [(validatorIdForIndex idx, req, w.context sim idx)])).sent := by
  intro a ha
  rw [Network.reached_snoc]
  refine List.mem_append_right _ ?_
  rwa [← h.machines idx sm hsm]

theorem stepValidator_leads (depth : Nat) :
    NetworkSteps sim n cfg k (stepValidator sim depth) := by
  induction depth with
  | zero => exact fun _ _ _ _ _ _ w _ h _ _ => Leads.fail h _
  | succ depth ih =>
    intro idx event now round todo ds w hidx h hg hsent
    unfold stepValidator
    split
    · exact Leads.stay h hg
    split
    · exact Leads.fail h _
    · rename_i sm hsm
      obtain ⟨hlt, -⟩ := List.getElem?_eq_some_iff.mp hsm
      rw [h.size] at hlt
      have hcall := h.call hg.returned hsm (.event event) (authentic_event h hg hsm hidx hsent)
      refine enter_leads ih hidx hcall (sent_call h hsm (.event event)) ?_
      intro acts hok
      exact hg.call h hsm (.event event) hok (fun i hi => Or.inl hi) (Nat.le_refl k) (hidx hlt) _

theorem stepEach_leads {event : Event} (hsent : ∀ a, Network.carriedBy event = some a →
      a ∈ (Network.reached sim.cr cfg ds).sent) (idxs : List Nat)
    (h : Mirrors sim n cfg ds w) (hg : Going sim cfg n round todo ds w) :
    Leads (Mirrors sim n cfg) (Going sim cfg n round todo) ds
      (stepEach sim event now idxs w) := by
  induction idxs generalizing ds w with
  | nil => exact Leads.stay h hg
  | cons idx rest ih =>
    have hfirst := stepValidator_leads sim.depth idx event now round todo ds w (fun hi => hi) h hg
      hsent
    exact hfirst.andThen fun js h' hg' =>
      ih (fun a ha => Network.sent_append js (hsent a ha)) h' hg'

theorem deliver_leads {msgs : List InFlight}
    (hsent : ∀ m ∈ msgs, ∃ a ∈ (Network.reached sim.cr cfg ds).sent,
      VirtualNet.wireEvent a = some m.event)
    (h : Mirrors sim n cfg ds w) (hg : Going sim cfg n round todo ds w) :
    Leads (Mirrors sim n cfg) (Going sim cfg n round todo) ds (deliver sim now msgs w) := by
  induction msgs generalizing ds w with
  | nil => exact Leads.stay h hg
  | cons m rest ih =>
    obtain ⟨a, ha, hwire⟩ := hsent m (List.mem_cons_self ..)
    have hfirst := stepValidator_leads sim.depth m.recipient m.event now round todo ds w
      (fun hi => hi) h hg (by
        intro a' ha'
        rw [VirtualNet.carriedBy_of_wireEvent hwire] at ha'
        cases ha'
        exact ha)
    refine hfirst.andThen fun js h' hg' => ih ?_ h' hg'
    intro m' hm'
    obtain ⟨a', ha', hwire'⟩ := hsent m' (List.mem_cons_of_mem _ hm')
    exact ⟨a', Network.sent_append js ha', hwire'⟩

theorem Mirrors.drained (h : Mirrors sim n cfg ds w) :
    Mirrors sim n cfg ds { w with net := (w.net.drainDue now).2 } :=
  ⟨h.size, h.valset, h.distributed, h.machines,
    fun m hm => h.pending m (VirtualNet.mem_popDue (.inr hm)), h.dag, h.played⟩

theorem drainNetAndApply_leads (h : Mirrors sim n cfg ds w)
    (hg : Going sim cfg n round todo ds w) :
    Leads (Mirrors sim n cfg) (Going sim cfg n round todo) ds
      (drainNetAndApply sim now w) :=
  deliver_leads (fun m hm => h.pending m (VirtualNet.mem_popDue (.inl hm))) h.drained
    ⟨hg.round, hg.returned, hg.started, hg.called, hg.filed⟩

theorem fireAll_leads {ids : List TimerId} (h : Mirrors sim n cfg ds w)
    (hg : Going sim cfg n round todo ds w) :
    Leads (Mirrors sim n cfg) (Going sim cfg n round todo) ds (fireAll sim now ids w) := by
  induction ids generalizing ds w with
  | nil => exact Leads.stay h hg
  | cons id rest ih =>
    have hnothing : ∀ a, Network.carriedBy (.timerFired id) = some a →
        a ∈ (Network.reached sim.cr cfg ds).sent := by simp [Network.carriedBy]
    exact (stepEach_leads hnothing (List.range w.machines.length) h hg).andThen fun js h' hg' =>
      ih h' hg'

theorem drainTimersAndApply_leads (h : Mirrors sim n cfg ds w)
    (hg : Going sim cfg n round todo ds w) :
    Leads (Mirrors sim n cfg) (Going sim cfg n round todo) ds
      (drainTimersAndApply sim now w) := by
  have hdrained : Leads (Mirrors sim n cfg) (Going sim cfg n round todo) ds
      (⟨{ w with timer := (w.timer.drainDue now).2 }, [.begins now], .ok []⟩ : SimResult ρ) :=
    Leads.stay ⟨h.size, h.valset, h.distributed, h.machines, h.pending, h.dag, h.played⟩
      ⟨hg.round, hg.returned, hg.started, hg.called, hg.filed⟩
  have hfired := hdrained.andThen fun js h' hg' =>
    @fireAll_leads ρ sim n cfg round now todo _ _ (w.timer.drainDue now).1 h' hg'
  exact hfired.andThen fun js h' hg' => Leads.stay h' hg'

/- The bootstrap. -/

theorem genesisPropose_leads (hk : k < n) (h : Mirrors sim n cfg ds w)
    (hg : Going sim cfg k round [] ds w) :
    Leads (Mirrors sim n cfg) (Going sim cfg (k + 1) round []) ds
      (genesisPropose sim now k w) := by
  unfold genesisPropose
  split
  · exact Leads.fail h _
  · rename_i sm hsm
    have hfresh : sm = StateMachine.new cfg (validatorIdForIndex k) := by
      rw [h.machines k sm hsm]
      refine Network.reached_uncalled fun d hd heq => ?_
      obtain ⟨i, hi, hid⟩ := hg.called d hd
      exact absurd (validatorIdForIndex_inj (hid.symm.trans heq)) (Nat.ne_of_lt hi)
    have hmember : validatorIdForIndex k ∈ (valsetOf sim n).entries.map (·.id) :=
      List.mem_map.mpr ⟨_, List.mem_map.mpr ⟨k, List.mem_range.mpr hk, rfl⟩, rfl⟩
    have hauth : NetworkCall.authentic (valsetOf sim n) ⟨Network.reached sim.cr cfg ds,
        validatorIdForIndex k, .genesis, w.context sim k⟩ = true := by
      have hidle : (StateMachine.new cfg (validatorIdForIndex k)).vertices.started = false := rfl
      simp [NetworkCall.authentic, NetworkCall.node, hmember, ← h.machines k sm hsm, hfresh, hidle]
    have hstarted := VertexCert.genesisPropose_started sim.cr
      ⟨sm, .genesis, w.context sim k⟩ sm.vertices
    refine enter_leads (k := k + 1) (stepValidator_leads sim.depth) (fun _ => Nat.lt_succ_self k)
      (h.call hg.returned hsm .genesis hauth) (sent_call h hsm .genesis) ?_
    intro acts hok
    refine hg.call h hsm .genesis hok (fun i hi => ?_) (Nat.le_succ k)
      (Nat.lt_succ_self k) _
    cases Nat.lt_succ_iff_lt_or_eq.mp hi with
    | inl hlt => exact Or.inl hlt
    | inr heq => exact Or.inr ⟨heq, hstarted⟩

theorem genesisProposeAll_leads (m : Nat) (hm : k + m = n) (h : Mirrors sim n cfg ds w)
    (hg : Going sim cfg k round [] ds w) :
    Leads (Mirrors sim n cfg) (Going sim cfg n round []) ds
      (genesisProposeAll sim now (List.range' k m) w) := by
  induction m generalizing k ds w with
  | zero =>
    rw [Nat.add_zero] at hm
    subst hm
    exact Leads.stay h hg
  | succ m ih =>
    have hk : k < n := by omega
    exact (genesisPropose_leads hk h hg).andThen fun js h' hg' =>
      ih (by omega) h' hg'

/- Ticks. -/

/-- Before the first tick nobody has been called; after it everybody has been started. -/
def Phase (sim : Sim ρ) (n : Nat) (cfg : Config) (ds : List Delivery) (w : SimWorld ρ) : Prop :=
  Going sim cfg 0 0 [] ds w ∨ ∃ round, 0 < round ∧ Going sim cfg n round [] ds w

theorem advance_cases (w : SimWorld ρ) : (∃ e, advance w = .fail w e) ∨
    ∃ clock, advance w = .quiet { w with clock := clock, virtualRound := w.virtualRound + 1 } := by
  unfold advance
  dsimp only
  split
  · exact Or.inl ⟨_, rfl⟩
  · exact Or.inr ⟨_, rfl⟩

theorem advance_leads (h : Mirrors sim n cfg ds w) (hg : Going sim cfg n round [] ds w) :
    Leads (Mirrors sim n cfg) (Phase sim n cfg) ds (advance w) := by
  obtain ⟨e, heq⟩ | ⟨clock, heq⟩ := advance_cases w
  · rw [heq]
    exact Leads.fail h e
  · rw [heq]
    refine Leads.stay ⟨h.size, h.valset, h.distributed, h.machines, h.pending, h.dag, h.played⟩
      (Or.inr ⟨round + 1, Nat.succ_pos _, ?_, hg.returned, hg.started, hg.called, hg.filed⟩)
    exact congrArg (· + 1) hg.round

theorem bus_empty (h : Mirrors sim n cfg ds w) (hg : Going sim cfg 0 round todo ds w) :
    w.net.pending = [] := by
  refine List.eq_nil_iff_forall_not_mem.mpr fun m hm => ?_
  obtain ⟨a, ha, -⟩ := h.pending m hm
  cases ds with
  | nil => cases ha
  | cons d ds =>
    obtain ⟨i, hi, -⟩ := hg.called d (List.mem_cons_self ..)
    exact absurd hi (Nat.not_lt_zero i)

theorem vertexTick_leads (h : Mirrors sim n cfg ds w) (hp : Phase sim n cfg ds w) :
    Leads (Mirrors sim n cfg) (fun es v => ∃ round, Going sim cfg n round [] es v) ds
      ((drainNetAndApply sim now w).andThen (vertexTick sim now)) := by
  cases hp with
  | inl hg =>
    have hnone : drainNetAndApply sim now w = .quiet { w with net := (w.net.drainDue now).2 } := by
      simp only [drainNetAndApply, VirtualNet.drainDue, bus_empty h hg, VirtualNet.popDue, deliver]
    rw [hnone, Outcome.quiet_andThen]
    unfold vertexTick
    rw [if_pos (by exact h.distributed), if_pos (by exact hg.round)]
    have hsize : List.range w.machines.length = List.range' 0 n := by
      rw [h.size, List.range_eq_range']
    rw [hsize]
    have hall := @genesisProposeAll_leads ρ sim n cfg 0 0 now ds _ n (Nat.zero_add n)
      (@Mirrors.drained ρ sim n cfg now ds w h)
      ⟨hg.round, hg.returned, hg.started, hg.called, hg.filed⟩
    exact hall.mono fun js _ hg' => ⟨0, hg'⟩
  | inr hlater =>
    obtain ⟨round, hpos, hg⟩ := hlater
    refine (drainNetAndApply_leads h hg).andThen fun js h' hg' => ?_
    unfold vertexTick
    rw [if_pos h'.distributed, if_neg (by rw [hg'.round]; omega)]
    exact Leads.stay h' ⟨round, hg'⟩

theorem tickRound_leads (h : Mirrors sim n cfg ds w) (hp : Phase sim n cfg ds w) :
    Leads (Mirrors sim n cfg) (Phase sim n cfg) ds (tickRound sim w) := by
  have htimers : Leads (Mirrors sim n cfg) (fun es v => ∃ round, Going sim cfg n round [] es v) ds
      (((drainNetAndApply sim w.clock w).andThen (vertexTick sim w.clock)).andThen
        (drainTimersAndApply sim w.clock)) := by
    refine (vertexTick_leads h hp).andThen fun js h' hg' => ?_
    obtain ⟨round, hr⟩ := hg'
    exact (drainTimersAndApply_leads h' hr).mono fun ks _ hr' => ⟨round, hr'⟩
  refine htimers.andThen fun js h' hg' => ?_
  obtain ⟨round, hr⟩ := hg'
  exact advance_leads h' hr

def Op.OnBus : Op → Prop
  | .deliverProposal _ _ _ | .enqueue _ => False
  | _ => True

theorem exec_leads {op : Op} (hop : op.OnBus) (h : Mirrors sim n cfg ds w)
    (hp : Phase sim n cfg ds w) :
    Leads (Mirrors sim n cfg) (Phase sim n cfg) ds (exec sim op w) := by
  cases op with
  | tickRound => exact tickRound_leads h hp
  | enableDistributedVertices =>
    refine Leads.stay ⟨h.size, h.valset, rfl, h.machines, h.pending, h.dag, h.played⟩ ?_
    exact hp.imp (fun hg => ⟨hg.round, hg.returned, hg.started, hg.called, hg.filed⟩)
      fun ⟨r, hr, hg⟩ => ⟨r, hr, hg.round, hg.returned, hg.started, hg.called, hg.filed⟩
  | deliverProposal recipient event now => exact hop.elim
  | enqueue msg => exact hop.elim
  | _ =>
    refine Leads.stay ⟨h.size, h.valset, h.distributed, h.machines, h.pending, h.dag, h.played⟩ ?_
    exact hp.imp (fun hg => ⟨hg.round, hg.returned, hg.started, hg.called, hg.filed⟩)
      fun ⟨r, hr, hg⟩ => ⟨r, hr, hg.round, hg.returned, hg.started, hg.called, hg.filed⟩

theorem run_leads {ops : List Op} (hops : ∀ op ∈ ops, op.OnBus) (h : Mirrors sim n cfg ds w)
    (hp : Phase sim n cfg ds w) :
    Leads (Mirrors sim n cfg) (Phase sim n cfg) ds (run sim ops w) := by
  induction ops generalizing ds w with
  | nil => exact Leads.stay h hp
  | cons op rest ih =>
    exact (exec_leads (hops op (List.mem_cons_self ..)) h hp).andThen fun js h' hp' =>
      ih (fun op' hop => hops op' (List.mem_cons_of_mem _ hop)) h' hp'

end Step

def distributedRun (sim : Sim ρ) (n : Nat) (seed : ρ) (cfg : Config) (ops : List Op) :
    SimResult ρ :=
  run sim (.enableDistributedVertices :: ops) (SimWorld.new sim n seed cfg)

section Scenario
variable {sim : Sim ρ} {n : Nat} {seed : ρ} {cfg : Config} {ops : List Op} {ds : List Delivery}

theorem mirrors_new (sim : Sim ρ) (n : Nat) (seed : ρ) (cfg : Config) :
    Mirrors sim n cfg [] { SimWorld.new sim n seed cfg with distributedVertices := true } := by
  refine ⟨by simp [SimWorld.new], rfl, rfl, ?_, ?_, ⟨[], rfl, by simp⟩, ?_⟩
  · intro i sm hi
    simp only [SimWorld.new, List.getElem?_map, Option.map_eq_some_iff] at hi
    obtain ⟨j, hj, rfl⟩ := hi
    obtain ⟨hlt, hij⟩ := List.getElem?_eq_some_iff.mp hj
    rw [List.getElem_range] at hij
    rw [hij]
    rfl
  · simp [SimWorld.new, VirtualNet.new]
  · exact ⟨by simp [Network.run, Trace.calls], by simp, by simp [Network.run, Trace.calls]⟩

theorem going_new (sim : Sim ρ) (n : Nat) (seed : ρ) (cfg : Config) :
    Going sim cfg 0 0 [] [] { SimWorld.new sim n seed cfg with distributedVertices := true } :=
  ⟨rfl, by simp [Network.run, Trace.calls], by simp, by simp,
    by simp [Network.reached, Trace.final, Network.new]⟩

theorem distributedRun_leads (hops : ∀ op ∈ ops, op.OnBus) :
    ∃ ds, Mirrors sim n cfg ds (distributedRun sim n seed cfg ops).state ∧
      ((∃ as, (distributedRun sim n seed cfg ops).result = .ok as) →
        Phase sim n cfg ds (distributedRun sim n seed cfg ops).state) := by
  have hrun : distributedRun sim n seed cfg ops =
      run sim ops { SimWorld.new sim n seed cfg with distributedVertices := true } :=
    Outcome.quiet_andThen _ _
  rw [hrun]
  obtain ⟨ds, hm, hp⟩ := run_leads hops (mirrors_new sim n seed cfg)
    (Or.inl (going_new sim n seed cfg))
  exact ⟨ds, by simpa using hm, by simpa using hp⟩

/-- In every scenario in which the validators propose their own vertices and nobody else makes up
messages, under any network conditions, partitions and muted proposals, the world is a run of the
network: its machines are those that the network reaches by deliveries of what has been sent, to
members with ports of their own, and what is on the bus and in the shared DAG has been sent. -/
theorem world_runs_network (sim : Sim ρ) (n : Nat) (seed : ρ) (cfg : Config) (ops : List Op)
    (hops : ∀ op ∈ ops, op.OnBus) :
    ∃ ds, Mirrors sim n cfg ds (distributedRun sim n seed cfg ops).state ∧
      ((∃ as, (distributedRun sim n seed cfg ops).result = .ok as) →
        Phase sim n cfg ds (distributedRun sim n seed cfg ops).state) :=
  distributedRun_leads hops

theorem Played.complete (h : Played sim n cfg ds) : ∃ es,
    (Network.reached sim.cr cfg es).sent = (Network.reached sim.cr cfg ds).sent ∧
      Played sim n cfg es ∧ ∀ call ∈ Network.run sim.cr cfg es, Returned sim.cr call := by
  induction ds using List.reverseRecOn with
  | nil => exact ⟨[], rfl, h, by simp [Network.run, Trace.calls]⟩
  | append_singleton ds d _ =>
    have hret := h.returned
    rw [Network.run_snoc, List.dropLast_concat] at hret
    cases hr : (StateMachine.exec sim.cr d.2
      ((Network.reached sim.cr cfg ds).nodes d.1)).result with
    | ok acts =>
      refine ⟨ds ++ [d], rfl, h, ?_⟩
      intro call hcall
      rw [Network.run_snoc] at hcall
      cases List.mem_append.mp hcall with
      | inl hold => exact hret call hold
      | inr hnew =>
        cases List.mem_singleton.mp hnew
        exact ⟨acts, hr⟩
    | error e =>
      refine ⟨ds, ?_, ⟨?_, ?_, ?_⟩, hret⟩
      · rw [Network.reached_snoc]
        simp [Network.exec, Outcome.actions, hr]
      · intro call hcall
        refine h.authentic call ?_
        rw [Network.run_snoc]
        exact List.mem_append_left _ hcall
      · exact fun d' hd' => h.ports d' (List.mem_append_left _ hd')
      · exact fun call hcall => hret call (List.mem_of_mem_dropLast hcall)

/-- In every such scenario the DAG that the validators share holds verified certificates only, at
most one vertex for each round and author, and, unless the scenario has panicked, the parents of
each vertex: none at round 0, and above it a quorum of entries, each one round below. -/
theorem shared_dag_certified (sim : Sim ρ) (n : Nat) (seed : ρ) (cfg : Config) (ops : List Op)
    (hops : ∀ op ∈ ops, op.OnBus) :
    ∃ vs, (distributedRun sim n seed cfg ops).state.dag = LiveDag.of vs ∧
      (∀ cv ∈ vs, verifyCertifiedVertex sim.cr cv (valsetOf sim n) = .ok ()) ∧
      (∀ cv ∈ vs, ∀ cv' ∈ vs, cv.vertex.round = cv'.vertex.round →
        cv.vertex.author = cv'.vertex.author → cv.vertex = cv'.vertex) ∧
      ((∃ as, (distributedRun sim n seed cfg ops).result = .ok as) →
        ∀ cv ∈ vs, Grounds vs (quorumThreshold n) cv.vertex) := by
  obtain ⟨ds, hm, hp⟩ := @distributedRun_leads ρ sim n seed cfg ops hops
  obtain ⟨vs, hdag, hvs⟩ := hm.dag
  obtain ⟨es, hsent, hplayed, hret⟩ := hm.played.complete
  have hreached : Network.reached sim.cr cfg es = Network.upTo sim.cr cfg es es.length := by
    rw [Network.upTo, List.take_length]
  have hvouched := Network.vouched hplayed.authentic
    (fun d hd => (hplayed.ports d hd).elim fun i hi => hi.2.2.2) hret es.length ⟨0⟩
  have hone := @Network.one_vertex_sent sim.cr cfg es es.length _ hplayed.authentic
  rw [← hreached, hsent] at hvouched hone
  refine ⟨vs, hdag, ?_, ?_, ?_⟩
  · intro cv hcv
    exact (hvouched.certificates cv (mem_certifiedIn.mpr (hvs cv hcv))).1
  · intro cv hcv cv' hcv' hround hauthor
    obtain ⟨-, p, hp, heq⟩ := hvouched.certificates cv (mem_certifiedIn.mpr (hvs cv hcv))
    obtain ⟨-, p', hp', heq'⟩ := hvouched.certificates cv' (mem_certifiedIn.mpr (hvs cv' hcv'))
    have hsame : p = p' := hone p p' hp hp' (by rw [heq, heq', hauthor]) (by rw [heq, heq', hround])
    rw [← heq, ← heq', hsame]
  · intro hok cv hcv
    have hfiled : ∀ cv ∈ certifiedIn (Network.reached sim.cr cfg ds).sent, cv ∈ vs := by
      intro cv hcv
      have hin : cv ∈ (distributedRun sim n seed cfg ops).state.dag.byRound[cv.vertex.round]?.getD
          [] := by
        obtain hg | ⟨round, -, hg⟩ := hp hok
        · exact (hg.filed cv (mem_certifiedIn.mp hcv)).resolve_right (by simp)
        · exact (hg.filed cv (mem_certifiedIn.mp hcv)).resolve_right (by simp)
      rw [hdag, LiveDag.byRound_of] at hin
      exact List.mem_of_mem_filter hin
    obtain ⟨-, p, hp, heq⟩ := hvouched.certificates cv (mem_certifiedIn.mpr (hvs cv hcv))
    have hground := hvouched.proposals p hp
    have hquorum : quorumThreshold (valsetOf sim n).entries.length = quorumThreshold n := by
      simp [valsetOf]
    rw [heq, hquorum] at hground
    refine hground.imp_right fun habove => ⟨habove.1, habove.2.1, ?_⟩
    intro x hx
    obtain ⟨w, hw, hrest⟩ := habove.2.2 x hx
    exact ⟨w, hfiled w hw, hrest⟩

end Scenario
end SimWorld

namespace Devnet
open SimWorld

def cutOff : List Op :=
  List.replicate 4 .tickRound ++ .setPartition [0, 1, 2] [3] :: List.replicate 3 .tickRound

theorem cutOff_onBus : ∀ op ∈ cutOff, op.OnBus := by
  intro op hop
  simp only [cutOff, List.mem_append, List.mem_cons, List.mem_replicate] at hop
  obtain ⟨-, rfl⟩ | rfl | ⟨-, rfl⟩ := hop <;> trivial

theorem cutOff_run :
    (distributedRun sim 4 () Config.defaultTable171 cutOff).result.isOk = true ∧
    ((distributedRun sim 4 () Config.defaultTable171 cutOff).state.dag.byRound[1]?.getD []).length =
      3 := by
  decide +kernel

theorem world_runs_network_cutOff : ∃ ds,
    Mirrors sim 4 Config.defaultTable171 ds
      (distributedRun sim 4 () Config.defaultTable171 cutOff).state ∧
    Phase sim 4 Config.defaultTable171 ds
      (distributedRun sim 4 () Config.defaultTable171 cutOff).state := by
  obtain ⟨ds, hm, hp⟩ := world_runs_network sim 4 () Config.defaultTable171 cutOff cutOff_onBus
  exact ⟨ds, hm, hp (Outcome.exists_of_isOk cutOff_run.1)⟩

theorem shared_dag_certified_cutOff : ∃ vs,
    (vs.filter fun cv => decide (cv.vertex.round = 1)).length = 3 ∧
      ∀ cv ∈ vs, Grounds vs 3 cv.vertex := by
  obtain ⟨vs, hdag, -, -, hground⟩ :=
    shared_dag_certified sim 4 () Config.defaultTable171 cutOff cutOff_onBus
  have hthree := cutOff_run.2
  rw [hdag, LiveDag.byRound_of] at hthree
  exact ⟨vs, hthree, hground (Outcome.exists_of_isOk cutOff_run.1)⟩

end Devnet
end LuaDag
