import LuaDag.FlatVotes

/-! Mode 0: who assembles the macro QC. A node tries only when a partial arrives, and only if
it is the smallest signer it knows of, itself included once it has voted. Whether anyone does
depends on the order in which the proposal and the partials reach the nodes. -/
namespace LuaDag
open MacroFin

/- One node. -/

/-- Node `v` pursues the checkpoint of `p` in Mode 0 and has the partials of `heard` on
record; its own vote is among them once it has seen the proposal. -/
structure Hears (cr : Crypto) (set : ValidatorSet) (p : MacroProposal) (v : ValidatorId)
    (heard : Finset ValidatorId) (sm : StateMachine) : Prop where
  node : ∃ cfg is, sm = StateMachine.reached cr cfg v is
  candidate : sm.macros.candidate[p.checkpoint.height]? = some p.checkpoint
  fresh : p.checkpoint.hash ∉ sm.macros.emittedMacroQc
  mode : activeMode sm.macros sm.cfg set p.checkpoint.height = .ok .mode0Flat
  beacon : ∃ b, sm.macros.candidateBeacon[p.checkpoint.height]? = some b
  signers : sm.macros.signersOf p.checkpoint.hash = heard
  stored : ∀ u ∈ heard, ∃ sig, sm.macros.partialSigs[toLex (p.checkpoint.hash, u)]? = some sig ∧
    SignedBy cr set p.checkpoint u sig
  willing : v ∉ heard → v ≠ p.proposer → ∀ ctx, activeSet ctx = .ok set →
    accepts cr sm.cfg ctx p sm.macros = true
  voted : v ∈ heard →
    sm.macros.proposalsSeen[toLex (p.checkpoint.height, p.proposer)]? = some [p]

section Node
variable {cr : Crypto} {set : ValidatorSet} {p : MacroProposal} {v : ValidatorId}

theorem Hears.pursues {heard : Finset ValidatorId} {sm : StateMachine}
    (h : Hears cr set p v heard sm) : Pursues cr set p v heard sm := by
  have hsize : set.entries.length < 2 ^ 32 := by
    have hmode := h.mode
    unfold activeMode toU32 at hmode
    split at hmode
    · cases hmode
    split at hmode
    · cases hmode
    · rename_i n hn
      by_contra hbig
      rw [if_neg hbig] at hn
      cases hn
  exact ⟨⟨h.node, hsize, .mode0Flat, h.mode, by decide⟩, h.candidate, h.fresh, h.beacon, h.signers,
    h.stored, h.willing⟩

/- A partial arrives. -/

theorem Hears.keeps_partial (hinj : HashInjective cr) {heard : Finset ValidatorId}
    {sm : StateMachine} (h : Hears cr set p v heard sm) {ctx : HostContext}
    (hset : activeSet ctx = .ok set) {bp : BlsPartial} (hsubnet : bp.subnet = 0)
    (hver : verifyPartial cr set bp p.checkpoint = true) (hother : bp.validator ≠ v)
    (hno : assembles set v (insert bp.validator heard) = false) :
    (StateMachine.exec cr (.event (.blsPartialReceived bp), ctx) sm).actions = [] ∧
      Hears cr set p v (insert bp.validator heard)
        (StateMachine.exec cr (.event (.blsPartialReceived bp), ctx) sm).state := by
  obtain ⟨hexec, hnext⟩ := h.pursues.records hinj hset hsubnet hver hno
  rw [hexec]
  refine ⟨rfl, hnext.flat.node, hnext.candidate, hnext.fresh, h.mode, hnext.beacon, hnext.signers,
    hnext.stored, hnext.willing, ?_⟩
  intro hv
  cases Finset.mem_insert.mp hv with
  | inl heq => exact absurd heq.symm hother
  | inr hold => exact h.voted hold

/-- A partial that completes a quorum of which this node is the smallest is answered with
the QC. -/
theorem Hears.assembles_qc (hinj : HashInjective cr) (hany : AggregatesAnyOrder cr)
    {heard : Finset ValidatorId} {sm : StateMachine} (h : Hears cr set p v heard sm)
    {ctx : HostContext} (hset : activeSet ctx = .ok set) {bp : BlsPartial}
    (hsubnet : bp.subnet = 0) (hver : verifyPartial cr set bp p.checkpoint = true)
    (hyes : assembles set v (insert bp.validator heard) = true) :
    ∃ qc, Action.broadcastMacroQc qc ∈
        (StateMachine.exec cr (.event (.blsPartialReceived bp), ctx) sm).actions ∧
      qc.checkpointHash = p.checkpoint.hash := by
  obtain ⟨qc, hover, heq⟩ := h.pursues.finishes hinj hany hset hsubnet hver hyes
  obtain ⟨acts, hacts, -⟩ := finishMacroQcAdoption_sends sm.cfg p.checkpoint.height p.checkpoint qc
    (insert bp.validator heard) (sm.macros.collected bp)
  refine ⟨qc, ?_, hover.1⟩
  change _ ∈ (onBlsPartial cr sm.cfg ctx bp sm.macros).actions
  rw [heq, hacts]
  exact List.mem_cons_self

/- The proposal arrives. -/

/-- The first time a node sees the proposal it votes. -/
theorem Hears.votes {heard : Finset ValidatorId} {sm : StateMachine}
    (h : Hears cr set p v heard sm) {ctx : HostContext} (hset : activeSet ctx = .ok set)
    (hkey : SignsCheckpoints cr set v ctx) (hother : v ≠ p.proposer) (hnew : v ∉ heard) :
    (∀ a ∈ (StateMachine.exec cr (.event (.macroProposalReceived p), ctx) sm).actions,
        a.isFlatVote cr set p.checkpoint) ∧
      Hears cr set p v (insert v heard)
        (StateMachine.exec cr (.event (.macroProposalReceived p), ctx) sm).state := by
  have hacc := h.willing hnew hother ctx hset
  obtain ⟨beacon, locks, hexec, hacts⟩ := h.pursues.flat.votes hset hkey hacc
  have hnext := h.pursues.votes hset hkey hacc
  rw [hexec] at hnext ⊢
  refine ⟨hacts, hnext.flat.node, hnext.candidate, hnext.fresh, h.mode, hnext.beacon,
    hnext.signers, hnext.stored, hnext.willing, ?_⟩
  intro _
  simp [MacroBook.votedOn, MacroBook.seeing, recordVote, addSigner]

theorem Hears.ignores {heard : Finset ValidatorId} {sm : StateMachine}
    (h : Hears cr set p v heard sm) {ctx : HostContext} (hset : activeSet ctx = .ok set)
    (hold : v ∈ heard) :
    (StateMachine.exec cr (.event (.macroProposalReceived p), ctx) sm).actions = [] ∧
      Hears cr set p v heard
        (StateMachine.exec cr (.event (.macroProposalReceived p), ctx) sm).state := by
  obtain ⟨b, hb⟩ := h.beacon
  have hquiet : ∃ n, onMacroProposal cr sm.cfg ctx p sm.macros =
      .quiet { freezeBeacon p.checkpoint.height b sm.macros with rejectedCrypto := n } := by
    have hbeacon : beaconForHeight sm.macros ctx p.checkpoint.height = .ok b := by
      simp only [beaconForHeight, hb]
    have hseen : (freezeBeacon p.checkpoint.height b sm.macros).proposalsSeen[
        toLex (p.checkpoint.height, p.proposer)]?.getD [] = [p] := by
      simp only [freezeBeacon, h.voted hold, Option.getD_some]
    unfold onMacroProposal
    rw [hset]
    dsimp only
    rw [hbeacon]
    dsimp only
    rw [hseen]
    split
    · exact ⟨_, rfl⟩
    · refine ⟨sm.macros.rejectedCrypto, ?_⟩
      dsimp only
      rw [if_neg (by simp)]
      rfl
  obtain ⟨n, hn⟩ := hquiet
  have hexec : StateMachine.exec cr (.event (.macroProposalReceived p), ctx) sm =
      .quiet { sm with macros :=
        { freezeBeacon p.checkpoint.height b sm.macros with rejectedCrypto := n } } := by
    change sm.onMacros (onMacroProposal cr sm.cfg ctx p) = _
    rw [StateMachine.onMacros, hn]
    rfl
  refine ⟨by rw [hexec]; rfl, ?_⟩
  have hnode := (h.pursues.flat.next (.event (.macroProposalReceived p), ctx)
    (by rw [hexec]; rfl)).node
  rw [hexec] at hnode ⊢
  refine ⟨hnode, h.candidate, h.fresh, h.mode, ⟨b, ?_⟩, h.signers, h.stored, ?_, h.voted⟩
  · simp [freezeBeacon]
  · intro hv
    exact absurd hold hv

theorem Hears.sees {heard : Finset ValidatorId} {sm : StateMachine}
    (h : Hears cr set p v heard sm) {ctx : HostContext} (hset : activeSet ctx = .ok set)
    (hkey : SignsCheckpoints cr set v ctx) (hother : v ≠ p.proposer) :
    (∀ a ∈ (StateMachine.exec cr (.event (.macroProposalReceived p), ctx) sm).actions,
        a.isFlatVote cr set p.checkpoint) ∧
      Hears cr set p v (insert v heard)
        (StateMachine.exec cr (.event (.macroProposalReceived p), ctx) sm).state := by
  by_cases hin : v ∈ heard
  · obtain ⟨hnil, hnext⟩ := h.ignores hset hin
    rw [Finset.insert_eq_of_mem hin]
    refine ⟨?_, hnext⟩
    intro a ha
    rw [hnil] at ha
    cases ha
  · exact h.votes hset hkey hother hin

end Node

/- The network. -/

/-- The signer that a delivery lets node `v` know of: itself, when it sees the proposal, or
the sender of a partial. -/
def heardBy (v : ValidatorId) (d : Delivery) : Finset ValidatorId :=
  if d.1 = v then
    match d.2.1 with
    | .event (.macroProposalReceived _) => {v}
    | .event (.blsPartialReceived bp) => {bp.validator}
    | _ => ∅
  else ∅

def heard (v : ValidatorId) : List Delivery → Finset ValidatorId
  | [] => ∅
  | d :: ds => heardBy v d ∪ heard v ds

theorem heard_snoc (v : ValidatorId) (ds : List Delivery) (d : Delivery) :
    heard v (ds ++ [d]) = heardBy v d ∪ heard v ds := by
  induction ds with
  | nil => rfl
  | cons e ds ih =>
    rw [List.cons_append, heard, heard, ih]
    exact Finset.union_left_comm _ _ _

/-- A partial arrives after which its receiver knows of a quorum, of which it is itself the
smallest member. -/
def completes (set : ValidatorSet) (before : List Delivery) (d : Delivery) : Bool :=
  match d.2.1 with
  | .event (.blsPartialReceived _) => assembles set d.1 (heard d.1 (before ++ [d]))
  | _ => false

/-- The call delivers the proposal, or a partial on its checkpoint, to another node than the
one that sent it. -/
def gossiped (p : MacroProposal) (call : NetworkCall) : Bool :=
  match call.node.event with
  | some (.macroProposalReceived q) =>
    decide (q = p) && decide (Action.broadcastMacroProposal q ∈ call.pre.sent) &&
      decide (call.input.1 ≠ q.proposer)
  | some (.blsPartialReceived bp) =>
    decide (bp.checkpointHash = p.checkpoint.hash) &&
      decide (Action.broadcastBlsPartial bp ∈ call.pre.sent) &&
      decide (call.input.1 ≠ bp.validator)
  | _ => false

/-- The receiver is a member that is served the set and signs with its own key. -/
structure Gossip (cr : Crypto) (set : ValidatorSet) (p : MacroProposal) (call : NetworkCall) :
    Prop where
  member : call.input.1 ∈ set.entries.map (·.id)
  serves : activeSet call.node.ctx = .ok set
  key : SignsCheckpoints cr set call.input.1 call.node.ctx
  carries : gossiped p call = true

/-- Some node has sent a QC for `cp`. -/
def QcFormed (cp : MacroCheckpoint) (sent : List Action) : Prop :=
  ∃ qc, Action.broadcastMacroQc qc ∈ sent ∧ qc.checkpointHash = cp.hash

/-- All members pursue the checkpoint of `p` and have heard what `ds` brought them; what
partials on it were sent are valid, and no QC was. -/
structure Pending (cr : Crypto) (set : ValidatorSet) (p : MacroProposal) (ds : List Delivery)
    (w : Network) : Prop where
  nodes : ∀ v ∈ set.entries.map (·.id), Hears cr set p v (heard v ds) (w.nodes v)
  partials : ∀ bp, Action.broadcastBlsPartial bp ∈ w.sent →
    bp.checkpointHash = p.checkpoint.hash →
      bp.subnet = 0 ∧ verifyPartial cr set bp p.checkpoint = true
  unformed : ¬ QcFormed p.checkpoint w.sent

section Network
variable {cr : Crypto} {set : ValidatorSet} {p : MacroProposal}

/-- A delivery after which its receiver has heard one more signer and has sent its vote at
most. -/
theorem Pending.advance {ds : List Delivery} {w : Network} (h : Pending cr set p ds w)
    (d : Delivery) (hnode : Hears cr set p d.1 (heard d.1 (ds ++ [d]))
      (StateMachine.exec cr d.2 (w.nodes d.1)).state)
    (hacts : ∀ a ∈ (StateMachine.exec cr d.2 (w.nodes d.1)).actions,
      a.isFlatVote cr set p.checkpoint) :
    Pending cr set p (ds ++ [d]) (Network.exec cr d w).state := by
  refine ⟨?_, ?_, ?_⟩
  · intro v hv
    by_cases heq : v = d.1
    · subst heq
      simpa [Network.exec] using hnode
    · have hsame : heard v (ds ++ [d]) = heard v ds := by
        rw [heard_snoc, heardBy, if_neg (Ne.symm heq), Finset.empty_union]
      rw [hsame]
      simpa [Network.exec, Function.update_of_ne heq] using h.nodes v hv
  · intro bp hbp hhash
    cases List.mem_append.mp hbp with
    | inl hold => exact h.partials bp hold hhash
    | inr hnew => exact hacts _ hnew
  · rintro ⟨qc, hqc, hhash⟩
    cases List.mem_append.mp hqc with
    | inl hold => exact h.unformed ⟨qc, hold, hhash⟩
    | inr hnew => exact hacts _ hnew

theorem Pending.proposal {ds : List Delivery} {w : Network} (h : Pending cr set p ds w)
    {v : ValidatorId} {ctx : HostContext} (hmember : v ∈ set.entries.map (·.id))
    (hset : activeSet ctx = .ok set) (hkey : SignsCheckpoints cr set v ctx)
    (hother : v ≠ p.proposer) :
    Pending cr set p (ds ++ [(v, .event (.macroProposalReceived p), ctx)])
      (Network.exec cr (v, .event (.macroProposalReceived p), ctx) w).state := by
  obtain ⟨hacts, hnext⟩ := (h.nodes v hmember).sees hset hkey hother
  refine h.advance _ ?_ hacts
  rw [heard_snoc, heardBy, if_pos rfl, ← Finset.insert_eq]
  exact hnext

/-- A partial arrives: a completing one is answered with the QC, any other is put on record. -/
theorem Pending.partial_step (hinj : HashInjective cr) (hany : AggregatesAnyOrder cr)
    {ds : List Delivery} {w : Network} (h : Pending cr set p ds w) {v : ValidatorId}
    {ctx : HostContext} {bp : BlsPartial} (hmember : v ∈ set.entries.map (·.id))
    (hset : activeSet ctx = .ok set) (hsent : Action.broadcastBlsPartial bp ∈ w.sent)
    (hhash : bp.checkpointHash = p.checkpoint.hash) (hother : bp.validator ≠ v) :
    let d : Delivery := (v, .event (.blsPartialReceived bp), ctx)
    (completes set ds d = true → QcFormed p.checkpoint (Network.exec cr d w).state.sent) ∧
      (completes set ds d = false → Pending cr set p (ds ++ [d]) (Network.exec cr d w).state) := by
  intro d
  have hnode := h.nodes v hmember
  obtain ⟨hsubnet, hver⟩ := h.partials bp hsent hhash
  have hheard : heard v (ds ++ [d]) = insert bp.validator (heard v ds) := by
    rw [heard_snoc, heardBy, if_pos rfl, Finset.insert_eq]
  have hc : completes set ds d = assembles set v (insert bp.validator (heard v ds)) := by
    rw [← hheard]
    rfl
  rw [hc]
  refine ⟨?_, ?_⟩
  · intro hyes
    obtain ⟨qc, hqc, hqhash⟩ := hnode.assembles_qc hinj hany hset hsubnet hver hyes
    exact ⟨qc, List.mem_append_right _ hqc, hqhash⟩
  · intro hno
    obtain ⟨hnil, hnext⟩ := hnode.keeps_partial hinj hset hsubnet hver hother hno
    refine h.advance d ?_ ?_
    · rw [hheard]
      exact hnext
    · intro a ha
      rw [hnil] at ha
      cases ha

/-- One delivery: a completing one forms the QC, any other leaves it pending. -/
theorem pending_step (hinj : HashInjective cr) (hany : AggregatesAnyOrder cr)
    {ds : List Delivery} {w : Network} {d : Delivery} (h : Pending cr set p ds w)
    (hg : Gossip cr set p ⟨w, d⟩) :
    (completes set ds d = true → QcFormed p.checkpoint (Network.exec cr d w).state.sent) ∧
      (completes set ds d = false → Pending cr set p (ds ++ [d]) (Network.exec cr d w).state) := by
  obtain ⟨v, req, ctx⟩ := d
  have hcarries := hg.carries
  cases req with
  | genesis => cases hcarries
  | event e =>
    cases e with
    | macroProposalReceived q =>
      simp only [gossiped, NetworkCall.node, NodeCall.event, Bool.and_eq_true,
        decide_eq_true_eq] at hcarries
      obtain ⟨⟨rfl, -⟩, hother⟩ := hcarries
      refine ⟨fun hc => absurd hc (by simp [completes]), fun _ => ?_⟩
      exact h.proposal hg.member hg.serves hg.key hother
    | blsPartialReceived bp =>
      simp only [gossiped, NetworkCall.node, NodeCall.event, Bool.and_eq_true,
        decide_eq_true_eq] at hcarries
      obtain ⟨⟨hhash, hsent⟩, hother⟩ := hcarries
      exact h.partial_step hinj hany hg.member hg.serves hsent hhash hother.symm
    | _ => cases hcarries

theorem gossip_of_inputs {w : Network} {ds : List Delivery}
    (hinputs : ∀ d ∈ ds, d.1 ∈ set.entries.map (·.id) ∧ activeSet d.2.2 = .ok set ∧
      SignsCheckpoints cr set d.1 d.2.2)
    (hcarries : ∀ call ∈ Trace.calls (Network.exec cr) w ds, gossiped p call = true) :
    ∀ call ∈ Trace.calls (Network.exec cr) w ds, Gossip cr set p call := by
  intro call hcall
  have hin : call.input ∈ ds := by
    rw [← Trace.map_input (Network.exec cr) w ds]
    exact List.mem_map_of_mem hcall
  obtain ⟨hmember, hset, hkey⟩ := hinputs _ hin
  exact ⟨hmember, hset, hkey, hcarries call hcall⟩

end Network

/-- Some delivery of `ds` completes a quorum. -/
def Completed (set : ValidatorSet) (ds : List Delivery) : Prop :=
  ∃ before d, before ++ [d] <+: ds ∧ completes set before d = true

theorem completed_snoc (set : ValidatorSet) (ds : List Delivery) (d : Delivery) :
    Completed set (ds ++ [d]) ↔ Completed set ds ∨ completes set ds d = true := by
  constructor
  · rintro ⟨before, e, hpre, hc⟩
    cases List.prefix_concat_iff.mp hpre with
    | inl heq =>
      obtain ⟨rfl, he⟩ := List.append_inj' heq rfl
      cases he
      exact Or.inr hc
    | inr hold => exact Or.inl ⟨before, e, hold, hc⟩
  · intro h
    cases h with
    | inl hold =>
      obtain ⟨before, e, hpre, hc⟩ := hold
      exact ⟨before, e, hpre.trans (List.prefix_append ds [d]), hc⟩
    | inr hc => exact ⟨ds, d, List.prefix_refl _, hc⟩

/-- Mode 0 QC formation. Whatever the order in which the proposal and the partials on its
checkpoint reach the members, a QC is sent exactly when some partial completes a quorum at a
receiver that has voted and is the smallest signer it knows of. -/
theorem mode0_qc_formation (cr : Crypto) (hinj : HashInjective cr) (hany : AggregatesAnyOrder cr)
    (set : ValidatorSet) (p : MacroProposal) (w : Network) (hstart : Pending cr set p [] w)
    (ds : List Delivery)
    (hgossip : ∀ call ∈ Trace.calls (Network.exec cr) w ds, Gossip cr set p call) :
    QcFormed p.checkpoint (Trace.final (Network.exec cr) w ds).sent ↔ Completed set ds := by
  have hinv := Trace.invariant (Network.exec cr) (Gossip cr set p)
    (fun hist w' => (QcFormed p.checkpoint w'.sent ∧ Completed set (hist.map (·.input))) ∨
      (Pending cr set p (hist.map (·.input)) w' ∧ ¬ Completed set (hist.map (·.input)))) w
    (Or.inr ⟨hstart, ?_⟩) ?_ ds hgossip
  · rw [Trace.map_input] at hinv
    cases hinv with
    | inl h => exact ⟨fun _ => h.2, fun _ => h.1⟩
    | inr h => exact ⟨fun hf => absurd hf h.1.unformed, fun hc => absurd hc h.2⟩
  · rintro ⟨before, d, hpre, -⟩
    simp at hpre
  · intro hist w' d hinv hg
    rw [List.map_append, List.map_singleton, completed_snoc]
    cases hinv with
    | inl h =>
      obtain ⟨⟨qc, hqc, hhash⟩, hc⟩ := h
      exact Or.inl ⟨⟨qc, List.mem_append_left _ hqc, hhash⟩, Or.inl hc⟩
    | inr h =>
      obtain ⟨hpend, hnot⟩ := h
      have hstep := pending_step hinj hany hpend hg
      cases hcase : completes set (hist.map (·.input)) d with
      | true => exact Or.inl ⟨hstep.1 hcase, Or.inr rfl⟩
      | false => exact Or.inr ⟨hstep.2 hcase, by simp [hnot]⟩

section Devnet
open Devnet

def firstProposal : MacroProposal := ⟨a0, ⟨0⟩, ⟨0⟩, sigOf ⟨0⟩⟩

def windowOut : List Delivery :=
  (List.range 4).map fun i => deliver i (closesWave 1).2 (closesWave 1).1

def messageTo (m : Nat × Option Nat) : Delivery :=
  match m.2 with
  | none => deliver m.1 (.macroProposalReceived firstProposal) 5
  | some j => deliver m.1 (.blsPartialReceived ⟨0, ⟨j⟩, a0.hash, sigOf ⟨j⟩⟩) 5

def proposalFirst : List (Nat × Option Nat) :=
  [(1, none), (2, none), (3, none), (1, some 2), (1, some 3), (0, some 1), (0, some 2),
    (0, some 3), (2, some 1), (2, some 3), (3, some 1), (3, some 2)]

def proposalLate : List (Nat × Option Nat) :=
  [(2, none), (3, none), (1, some 2), (1, some 3), (0, some 2), (0, some 3), (2, some 3),
    (3, some 2), (1, none), (0, some 1), (2, some 1), (3, some 1)]

def AwaitsFirst (set : ValidatorSet) (book : MacroBook) : Prop :=
  book.candidate[a0.height]? = some a0 ∧ a0.hash ∉ book.emittedMacroQc ∧
    activeMode book config set a0.height = .ok .mode0Flat ∧
    book.candidateBeacon[a0.height]? = some ⟨0⟩ ∧ book.signersOf a0.hash = ∅ ∧
    verifyProposal openCrypto set firstProposal (vrfAlpha ⟨0⟩ a0.height ⟨0⟩) = true ∧
    book.proposalsSeen[toLex (a0.height, firstProposal.proposer)]?.getD [] = [] ∧
    vrfSortition openCrypto ⟨0⟩ set a0.height book.reputation = .ok ⟨0, ⟨0⟩, ⟨1⟩⟩ ∧
    a0.parent = book.lastMacroHash ∧ matchesCandidate book a0 = true ∧
    (book.locks.tryLock book.selfId a0.height a0.hash).isOk = true

theorem AwaitsFirst.hears {set : ValidatorSet} {v : ValidatorId} {i : StateMachine.Input}
    (h : AwaitsFirst set (StateMachine.reached openCrypto config v [i]).macros) :
    Hears openCrypto set firstProposal v ∅ (StateMachine.reached openCrypto config v [i]) := by
  obtain ⟨hcand, hfresh, hmode, hbeacon, hsigners, hverify, hseen, hsched, hparent, hmatch,
    hlock⟩ := h
  have hcfg : (StateMachine.reached openCrypto config v [i]).cfg = config :=
    exec_cfg openCrypto ⟨StateMachine.new config v, i⟩
  refine ⟨⟨config, [i], rfl⟩, hcand, hfresh, ?_, ⟨⟨0⟩, hbeacon⟩, hsigners, by simp, ?_, by simp⟩
  · rw [hcfg]
    exact hmode
  · intro _ _ ctx hset
    rw [hcfg]
    obtain ⟨locks, hl⟩ := Outcome.exists_of_isOk hlock
    have hb : beaconForHeight (StateMachine.reached openCrypto config v [i]).macros ctx a0.height =
        .ok ⟨0⟩ := by
      simp only [beaconForHeight, hbeacon]
    exact accepts_of_checks hset hb hverify hseen hsched hmode (by decide) hparent hmatch hl

theorem hears_window {i : Nat} (hi : i < 4) :
    Hears openCrypto validators firstProposal ⟨i⟩ ∅
      (StateMachine.reached openCrypto config ⟨i⟩ (script i [closesWave 1])) := by
  refine AwaitsFirst.hears ?_
  revert i
  unfold AwaitsFirst
  decide

def Action.isMacroVote : Action → Bool
  | .broadcastMacroQc _ | .broadcastBlsPartial _ => true
  | _ => false

theorem pending_window : Pending openCrypto validators firstProposal []
    (Network.reached openCrypto config windowOut) := by
  have hsent : ∀ a ∈ (Network.reached openCrypto config windowOut).sent,
      a.isMacroVote = false := by
    decide
  refine ⟨?_, ?_, ?_⟩
  · intro v hv
    have hlt : v.val < 4 ∧ (windowOut.filter (·.1 = v)).map (·.2) =
        script v.val [closesWave 1] := by
      simp only [validators, entry, List.map_cons, List.map_nil, List.mem_cons, List.not_mem_nil,
        or_false] at hv
      obtain rfl | rfl | rfl | rfl := hv <;> exact ⟨by decide, rfl⟩
    rw [Network.reached_node, hlt.2]
    exact hears_window hlt.1
  · intro bp hbp _
    exact absurd (hsent _ hbp) (by simp [Action.isMacroVote])
  · rintro ⟨qc, hqc, -⟩
    exact absurd (hsent _ hqc) (by simp [Action.isMacroVote])

theorem signsCheckpoints_open {set : ValidatorSet} {i : Nat} {ctx : HostContext}
    (hpk : VertexCert.pkFor openCrypto set ⟨i⟩ = some ⟨i⟩)
    (hsign : ctx.signBls = fun _ _ => sigOf ⟨i⟩) :
    SignsCheckpoints openCrypto set ⟨i⟩ ctx := by
  intro cp
  exact ⟨⟨i⟩, hpk, by simp [openCrypto, crypto, hsign]⟩

theorem gossip_devnet {order : List (Nat × Option Nat)} (hlt : ∀ m ∈ order, m.1 < 4)
    (hcarries : ∀ call ∈ Trace.calls (Network.exec openCrypto)
      (Network.reached openCrypto config windowOut) (order.map messageTo),
      gossiped firstProposal call = true) :
    ∀ call ∈ Trace.calls (Network.exec openCrypto)
      (Network.reached openCrypto config windowOut) (order.map messageTo),
      Gossip openCrypto validators firstProposal call := by
  refine gossip_of_inputs ?_ hcarries
  intro d hd
  obtain ⟨m, hm, rfl⟩ := List.mem_map.mp hd
  have hmember : ∀ j < 4, (⟨j⟩ : ValidatorId) ∈ validators.entries.map (·.id) := by decide
  have hinput : (messageTo m).1 = ⟨m.1⟩ ∧ (messageTo m).2.2 = ports m.1 5 := by
    obtain ⟨i, from'⟩ := m
    cases from' <;> exact ⟨rfl, rfl⟩
  rw [hinput.1, hinput.2]
  exact ⟨hmember _ (hlt m hm), rfl, signsCheckpoints_open (pkFor_member _ (hlt m hm)) rfl⟩

theorem mode0_qc_formation_devnet :
    QcFormed a0 (Trace.final (Network.exec openCrypto)
      (Network.reached openCrypto config windowOut) (proposalFirst.map messageTo)).sent :=
  (mode0_qc_formation openCrypto (hashInjective _) (aggregatesAnyOrder _) validators firstProposal
    _ pending_window _ (gossip_devnet (by decide) (by decide))).mpr
    ⟨(proposalFirst.take 4).map messageTo, messageTo (1, some 3),
      (List.take_prefix 5 proposalFirst).map messageTo, by decide⟩

/-- The proposal reaches every member but the proposer once, and the partial of every member
but the proposer reaches every other member once. -/
def DeliveredOnce (set : ValidatorSet) (p : MacroProposal) (ds : List Delivery) : Prop :=
  let events (v : ValidatorId) := (ds.filter fun d => d.1 = v).map (·.2.1)
  ∀ v ∈ set.entries.map (·.id),
    (v ≠ p.proposer → (events v).count (.event (.macroProposalReceived p)) = 1) ∧
    ∀ u ∈ set.entries.map (·.id), u ≠ p.proposer → u ≠ v →
      (events v).countP (fun
        | .event (.blsPartialReceived bp) =>
          decide (bp.validator = u) && decide (bp.checkpointHash = p.checkpoint.hash)
        | _ => false) = 1

/-- All is delivered and no QC is sent: the smallest voter has its own vote last, and nobody
else is the smallest signer it knows of with a quorum. -/
theorem mode0_qc_never_formed :
    4 ≤ validators.entries.length ∧
      Pending openCrypto validators firstProposal []
        (Network.reached openCrypto config windowOut) ∧
      (∀ call ∈ Trace.calls (Network.exec openCrypto)
        (Network.reached openCrypto config windowOut) (proposalLate.map messageTo),
        Gossip openCrypto validators firstProposal call) ∧
      DeliveredOnce validators firstProposal (proposalLate.map messageTo) ∧
      ¬ QcFormed a0 (Trace.final (Network.exec openCrypto)
        (Network.reached openCrypto config windowOut) (proposalLate.map messageTo)).sent := by
  refine ⟨by decide, pending_window, gossip_devnet (by decide) (by decide), ?_, ?_⟩
  · unfold DeliveredOnce
    decide
  · rintro ⟨qc, hqc, -⟩
    have hsent : ∀ a ∈ (Trace.final (Network.exec openCrypto)
        (Network.reached openCrypto config windowOut) (proposalLate.map messageTo)).sent,
        a.isAdoption = false := by
      decide
    exact absurd (hsent _ hqc) (by simp [Action.isAdoption])

end Devnet
end LuaDag
