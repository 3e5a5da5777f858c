import LuaDag.HonestMacros

/-! Nobody is slashed in a network of honest nodes: what each node keeps to holds after
every delivery, for the node that was called and for the others. -/
namespace LuaDag

structure NetworkHonest (cr : Crypto) (w : Network) : Prop where
  vertices : ∀ v, VertexHonest v w.sent w.sent (w.nodes v).vertices.core
  macros : ∀ v, MacroHonest cr v w.sent w.sent (w.nodes v).macros.core

theorem NetworkHonest.one_vertex {cr : Crypto} {w : Network} (h : NetworkHonest cr w) :
    OneVertexPerRound w.sent := by
  intro p q hp hq ha hr
  exact (h.vertices p.vertex.author).once p q (Or.inl ⟨hp, rfl⟩) (Or.inl ⟨hq, ha.symm⟩) hr

theorem NetworkHonest.one_proposal {cr : Crypto} {w : Network} (h : NetworkHonest cr w) :
    OneProposalPerHeight w.sent := by
  intro p q hp hq ha hh
  exact (h.macros p.proposer).once p q hp hq rfl ha.symm hh

section Rebase
variable {cr : Crypto} {v : ValidatorId} {sent as as' : List Action}

/-- After the call: what the node really sent joins the network. -/
theorem VertexHonest.rebase {c : VertexCore} (h : VertexHonest v sent as c)
    (hsub : ∀ a ∈ as', a ∈ as) (hold : ∀ a ∈ sent, a ∈ as') : VertexHonest v as' as' c := by
  have hiss : ∀ p, Issued v as' c p → Issued v as c p := by
    intro p hp
    cases hp with
    | inl hl => exact Or.inl ⟨hsub _ hl.1, hl.2⟩
    | inr hr => exact Or.inr hr
  exact ⟨h.selfId, fun p hp => h.bound p (hiss p hp),
    fun p q hp hq => h.once p q (hiss p hp) (hiss q hq),
    fun k q hq hk => ⟨hold _ (h.seen k q hq hk).1, (h.seen k q hq hk).2⟩, fun _ hp => Or.inl hp,
    fun o ev hmem => h.clean o ev (hsub _ hmem)⟩

theorem MacroHonest.rebase {c : MacroCore} (h : MacroHonest cr v sent as c)
    (hsub : ∀ a ∈ as', a ∈ as) (hold : ∀ a ∈ sent, a ∈ as') : MacroHonest cr v as' as' c :=
  { h with
    own := fun p hp => h.own p (hsub _ hp)
    once := fun p q hp hq => h.once p q (hsub _ hp) (hsub _ hq)
    seen := fun k q hq => ⟨hold _ (h.seen k q hq).1, (h.seen k q hq).2⟩
    grounded := fun p hp => h.grounded p (hsub _ hp)
    fresh := fun _ hp => Or.inl hp
    clean := fun o ev hmem => h.clean o ev (hsub _ hmem) }

/-- For a node that was not called, nothing of its own was sent. -/
theorem VertexHonest.bystander {c : VertexCore} (h : VertexHonest v sent sent c)
    (hold : ∀ a ∈ sent, a ∈ as)
    (hnew : ∀ p, Action.broadcastVertexProposal p ∈ as →
      Action.broadcastVertexProposal p ∈ sent ∨ p.vertex.author ≠ v)
    (hclean : ∀ o ev, Action.emitSlashEvidence o (.vertexEquivocation ev) ∉ as) :
    VertexHonest v as as c := by
  have hiss : ∀ p, Issued v as c p → Issued v sent c p := by
    intro p hp
    cases hp with
    | inl hl =>
      cases hnew p hl.1 with
      | inl hs => exact Or.inl ⟨hs, hl.2⟩
      | inr hne => exact absurd hl.2 hne
    | inr hr => exact Or.inr hr
  exact ⟨h.selfId, fun p hp => h.bound p (hiss p hp),
    fun p q hp hq => h.once p q (hiss p hp) (hiss q hq),
    fun k q hq hk => ⟨hold _ (h.seen k q hq hk).1, (h.seen k q hq hk).2⟩, fun _ hp => Or.inl hp,
    hclean⟩

theorem MacroHonest.bystander {c : MacroCore} (h : MacroHonest cr v sent sent c)
    (hold : ∀ a ∈ sent, a ∈ as)
    (hnew : ∀ p, Action.broadcastMacroProposal p ∈ as →
      Action.broadcastMacroProposal p ∈ sent ∨ p.proposer ≠ v)
    (hground : ∀ p, Action.broadcastMacroProposal p ∈ as → Grounded cr p.checkpoint)
    (hclean : ∀ o ev, Action.emitSlashEvidence o ev ∈ as → ∃ e, ev = .vertexEquivocation e) :
    MacroHonest cr v as as c := by
  have hown : ∀ p, Action.broadcastMacroProposal p ∈ as → p.proposer = v →
      Action.broadcastMacroProposal p ∈ sent := by
    intro p hp hpv
    cases hnew p hp with
    | inl hs => exact hs
    | inr hne => exact absurd hpv hne
  exact { h with
    own := fun p hp hpv => h.own p (hown p hp hpv) hpv
    once := fun p q hp hq hpv hqv => h.once p q (hown p hp hpv) (hown q hq hqv) hpv hqv
    seen := fun k q hq => ⟨hold _ (h.seen k q hq).1, (h.seen k q hq).2⟩
    grounded := hground
    fresh := fun _ hp => Or.inl hp
    clean := hclean }

end Rebase

section Called
variable {cr : Crypto} {set : ValidatorSet} {call : NetworkCall}

theorem called_vertices (hauth : call.authentic set = true) (h : NetworkHonest cr call.pre) :
    ∃ acts, (∀ a ∈ (StateMachine.exec cr call.input.2 (call.pre.nodes call.input.1)).actions,
        a ∈ acts) ∧
      VertexHonest call.input.1 call.pre.sent (call.pre.sent ++ acts)
        (StateMachine.exec cr call.input.2 (call.pre.nodes call.input.1)).state.vertices.core := by
  obtain ⟨acts, hpath, hacts⟩ := (exec_vertices cr call.node).actions
  refine ⟨acts, hacts, ?_⟩
  refine hpath.invariant (P := fun _ as c => VertexHonest call.input.1 call.pre.sent as c)
    (R := fun _ => True) ?_ (fun _ _ => trivial) [] call.pre.sent (h.vertices call.input.1)
  intro _ as c sg acts' d _ hm hc
  cases hm with
  | own hmove =>
    exact vertexHonest_move (fun p hev => sent_of_authentic hauth hev rfl) h.one_vertex hmove hc
  | other _ hnews => exact hc.quiet _ fun a ha => not_vertexIssue_of_not_news (hnews a ha)

theorem called_macros (hinj : HashInjective cr) (hzero : HashNonzero cr)
    (hauth : call.authentic set = true) (hpaced : call.node.wellPaced cr = true)
    (h : NetworkHonest cr call.pre) :
    ∃ acts, (∀ a ∈ (StateMachine.exec cr call.input.2 (call.pre.nodes call.input.1)).actions,
        a ∈ acts) ∧
      MacroHonest cr call.input.1 call.pre.sent (call.pre.sent ++ acts)
        (StateMachine.exec cr call.input.2 (call.pre.nodes call.input.1)).state.macros.core := by
  have hwalk : ∀ {c d : MacroCore} {sg : List SignReq} {acts : List Action},
      Simulation.Moves (NodeMove cr call.node) c sg acts d →
      MacroHonest cr call.input.1 call.pre.sent call.pre.sent c →
      MacroHonest cr call.input.1 call.pre.sent (call.pre.sent ++ acts) d := by
    intro c d sg acts hpath hc
    refine hpath.invariant (P := fun _ as c => MacroHonest cr call.input.1 call.pre.sent as c)
      (R := fun _ => True) ?_ (fun _ _ => trivial) [] call.pre.sent hc
    intro _ as c sg acts' d _ hm hc
    cases hm with
    | own hmove =>
      exact macroHonest_move hinj hzero hpaced (fun p hev => sent_of_authentic hauth hev rfl)
        h.one_proposal (h.macros call.input.1).grounded hmove hc
    | other _ hacts => exact hc.quiet _ fun a ha => not_macroNews_of_not_decision (hacts a ha)
  cases exec_handled cr call.node with
  | inl hs =>
    obtain ⟨acts, hpath, hacts⟩ := hs.actions
    exact ⟨acts, hacts, hwalk hpath (h.macros call.input.1)⟩
  | inr ha =>
    obtain ⟨acts, d, acts', hpath, hadopt, hres⟩ := ha
    refine ⟨acts ++ acts', ?_, ?_⟩
    · intro a ha
      have heq : (StateMachine.exec cr call.input.2 (call.pre.nodes call.input.1)).actions =
          acts ++ acts' := by
        have hr : (StateMachine.exec cr call.input.2 (call.pre.nodes call.input.1)).result =
            .ok (acts ++ acts') := hres
        simp [Outcome.actions, hr]
      rwa [heq] at ha
    · rw [← List.append_assoc]
      exact macroHonest_adopt hadopt (hwalk hpath (h.macros call.input.1))

end Called

theorem networkHonest_exec {cr : Crypto} {set : ValidatorSet} {call : NetworkCall}
    (hinj : HashInjective cr) (hzero : HashNonzero cr) (hauth : call.authentic set = true)
    (hpaced : call.node.wellPaced cr = true) (h : NetworkHonest cr call.pre) :
    NetworkHonest cr (Network.exec cr call.input call.pre).state := by
  obtain ⟨vacts, hvsub, hv⟩ := called_vertices hauth h
  obtain ⟨macts, hmsub, hm⟩ := called_macros hinj hzero hauth hpaced h
  have hold : ∀ a ∈ call.pre.sent, a ∈ call.pre.sent ++
      (StateMachine.exec cr call.input.2 (call.pre.nodes call.input.1)).actions :=
    fun a ha => List.mem_append_left _ ha
  have hgrow : ∀ {acts : List Action},
      (∀ a ∈ (StateMachine.exec cr call.input.2 (call.pre.nodes call.input.1)).actions, a ∈ acts) →
      ∀ a ∈ call.pre.sent ++
        (StateMachine.exec cr call.input.2 (call.pre.nodes call.input.1)).actions,
        a ∈ call.pre.sent ++ acts := by
    intro acts hsub a ha
    cases List.mem_append.mp ha with
    | inl hl => exact List.mem_append_left _ hl
    | inr hr => exact List.mem_append_right _ (hsub a hr)
  have hv' := hv.rebase (hgrow hvsub) hold
  have hm' := hm.rebase (hgrow hmsub) hold
  refine ⟨fun u => ?_, fun u => ?_⟩
  · by_cases hu : u = call.input.1
    · subst hu
      simpa [Network.exec] using hv'
    · have hby := (h.vertices u).bystander hold (fun p hp => ?_) hv'.clean
      · simpa [Network.exec, Function.update_of_ne hu] using hby
      · cases hv.fresh p (hgrow hvsub _ hp) with
        | inl hs => exact Or.inl hs
        | inr ha => exact Or.inr (fun heq => hu (heq.symm.trans ha))
  · by_cases hu : u = call.input.1
    · subst hu
      simpa [Network.exec] using hm'
    · have hby := (h.macros u).bystander hold (fun p hp => ?_) hm'.grounded hm'.clean
      · simpa [Network.exec, Function.update_of_ne hu] using hby
      · cases hm.fresh p (hgrow hmsub _ hp) with
        | inl hs => exact Or.inl hs
        | inr ha => exact Or.inr (fun heq => hu (heq.symm.trans ha))

theorem networkHonest_init (cr : Crypto) (cfg : Config) :
    NetworkHonest cr (Network.new cfg) := by
  refine ⟨fun v => ?_, fun v => ?_⟩
  · refine ⟨rfl, ?_, ?_, ?_, ?_, ?_⟩ <;>
      simp [Network.new, Issued, StateMachine.new, VertexBook.new, VertexBook.core]
  · refine ⟨rfl, ⟨[], chainInv_init v⟩, rfl, ?_, lockInv_init v ?_, ?_, ?_, ?_, ?_, ?_, ?_, ?_⟩ <;>
      simp [Network.new, StateMachine.new, MacroBook.new, MacroBook.core, VoteBook.votesOf,
        VoteBook.HasVote]

/-- Nobody is slashed: no evidence was sent, and none could be built from the proposals
that were. -/
def NoSlashing (sent : List Action) : Prop :=
  (∀ o ev, Action.emitSlashEvidence o ev ∉ sent) ∧ OneProposalPerHeight sent ∧
    OneVertexPerRound sent

/-- In a network of honest nodes nobody is slashed, as long as no primary closes a window
on a height for which a proposal has been seen. -/
theorem honest_never_slashed (cr : Crypto) (hinj : HashInjective cr) (hzero : HashNonzero cr)
    (cfg : Config) (set : ValidatorSet) (ds : List Delivery)
    (hauth : ∀ call ∈ Network.run cr cfg ds, NetworkCall.authentic set call = true)
    (hpaced : ∀ call ∈ Network.run cr cfg ds,
      (NetworkCall.node call).wellPaced cr = true) :
    NoSlashing (Network.reached cr cfg ds).sent := by
  have hinv : NetworkHonest cr (Network.reached cr cfg ds) := by
    refine Trace.invariant (Network.exec cr)
      (fun call => NetworkCall.authentic set call = true ∧
        (NetworkCall.node call).wellPaced cr = true)
      (fun _ w => NetworkHonest cr w) (Network.new cfg) (networkHonest_init cr cfg) ?_ ds
      (fun call hcall => ⟨hauth call hcall, hpaced call hcall⟩)
    intro _ w d hw hg
    exact @networkHonest_exec cr set ⟨w, d⟩ hinj hzero hg.1 hg.2 hw
  refine ⟨?_, hinv.one_proposal, hinv.one_vertex⟩
  intro o ev hmem
  obtain ⟨e, rfl⟩ := (hinv.macros o).clean o ev hmem
  exact (hinv.vertices o).clean o e hmem

/- Three of the four validators, round by round. -/
namespace Devnet

def deliver (i : Nat) (e : Event) (top : Round) : Delivery := (⟨i⟩, .event e, ports i top)

def votesOfRound (r : Round) : List Delivery :=
  let pairs : List (Nat × Nat) := [(0, 1), (0, 2), (1, 0), (1, 2), (2, 0), (2, 1)]
  (pairs.map fun (a, i) => deliver i
    (.vertexProposalReceived ⟨(vertexAt r a).vertex, sigOf ⟨a⟩⟩) (r - 1)) ++
  pairs.map fun (a, i) => deliver a
    (.vertexPartialReceived ⟨vertexHash r a, r, ⟨a⟩, ⟨i⟩, sigOf ⟨i⟩⟩) (r - 1)

def certsOfRound (r : Round) : List Delivery :=
  (List.range 3).flatMap fun i =>
    (List.range 3).map fun a => deliver i (.certifiedVertexReceived (vertexAt r a)) r

def rounds (k : Nat) : List Delivery :=
  ((List.range 3).map fun i => (⟨i⟩, .genesis, ports i 0)) ++
    (List.range k).flatMap fun r => votesOfRound r ++ certsOfRound r

end Devnet

section Devnet
open Devnet

/-- Six rounds, after which the primary has closed a window; the others receive its
proposal and vote on it. -/
def proposedOut : List Delivery :=
  rounds 6 ++ [deliver 1 (proposal 0 a0).2 5, deliver 2 (proposal 0 a0).2 5]

theorem honest_never_slashed_first_window :
    NoSlashing (Network.reached openCrypto config proposedOut).sent := by
  -- one evaluation of the run for both conditions
  have hrun : (Network.run openCrypto config proposedOut).all (fun call =>
      NetworkCall.authentic validators call && (NetworkCall.node call).wellPaced openCrypto) =
        true := by
    decide +kernel
  have hboth : ∀ call ∈ Network.run openCrypto config proposedOut,
      NetworkCall.authentic validators call = true ∧
        (NetworkCall.node call).wellPaced openCrypto = true := by
    intro call hcall
    exact (Bool.and_eq_true _ _).mp (List.all_eq_true.mp hrun call hcall)
  exact honest_never_slashed openCrypto (hashInjective _) (hashNonzero _) config validators
    proposedOut (fun call hcall => (hboth call hcall).1) fun call hcall => (hboth call hcall).2

/-- Ten rounds, after which the primary has closed two windows; then a second node
receives its two proposals. -/
def pacedOut : List Delivery :=
  rounds 10 ++ [deliver 1 (proposal 0 a0).2 9, deliver 1 (proposal 0 b0).2 9]

def Action.isSlashing : Action → Bool
  | .emitSlashEvidence _ _ => true
  | _ => false

/-- The primary replaced its unfinished candidate and proposed for the same height
again. -/
theorem honest_primary_slashed :
    4 ≤ validators.entries.length ∧
    (∀ call ∈ Network.run openCrypto config pacedOut,
      NetworkCall.authentic validators call = true) ∧
    ¬ NoSlashing (Network.reached openCrypto config pacedOut).sent := by
  have hrun : ((Network.run openCrypto config pacedOut).all (NetworkCall.authentic validators) &&
      (Network.reached openCrypto config pacedOut).sent.any Action.isSlashing) = true := by
    decide +kernel
  rw [Bool.and_eq_true, List.all_eq_true, List.any_eq_true] at hrun
  refine ⟨by decide, hrun.1, ?_⟩
  intro h
  obtain ⟨a, ha, hs⟩ := hrun.2
  cases a with
  | emitSlashEvidence o ev => exact h.1 o ev ha
  | _ => cases hs

end Devnet
end LuaDag
