import LuaDag.NodeRun
import Mathlib.Logic.Function.Basic

/-! A network in which every node runs the state machine and the network only delays,
reorders, repeats or loses what the nodes sent; its vertex proposals. -/
namespace LuaDag

abbrev Delivery := ValidatorId × StateMachine.Input

structure Network where
  nodes : ValidatorId → StateMachine
  sent : List Action

abbrev NetworkCall := Call Delivery Network

namespace Network

def new (cfg : Config) : Network := ⟨StateMachine.new cfg, []⟩

def exec (cr : Crypto) (d : Delivery) (w : Network) : Result Network :=
  let o := StateMachine.exec cr d.2 (w.nodes d.1)
  ⟨⟨Function.update w.nodes d.1 o.state, w.sent ++ o.actions⟩, o.signed, o.result⟩

def carriedBy : Event → Option Action
  | .certifiedVertexReceived cv => some (.broadcastCertifiedVertex cv)
  | .microQcAssembled qc => some (.broadcastMicroQc qc)
  | .macroProposalReceived p => some (.broadcastMacroProposal p)
  | .blsPartialReceived bp => some (.broadcastBlsPartial bp)
  | .subnetAggregateReceived a => some (.broadcastSubnetAggregate a)
  | .macroQcReceived qc => some (.broadcastMacroQc qc)
  | .vertexProposalReceived p => some (.broadcastVertexProposal p)
  | .vertexPartialReceived bp => some (.broadcastVertexPartial bp)
  | .timerFired _ | .validatorSetUpdated _ _ | .slashEvidenceFound _ => none

section Runs
variable (cr : Crypto) (cfg : Config) (ds : List Delivery)

def run : List NetworkCall := Trace.calls (exec cr) (new cfg) ds
def reached : Network := Trace.final (exec cr) (new cfg) ds

end Runs

/-- Each node of the network runs on what is delivered to it. -/
theorem reached_node (cr : Crypto) (cfg : Config) (ds : List Delivery) (v : ValidatorId) :
    (reached cr cfg ds).nodes v =
      StateMachine.reached cr cfg v ((ds.filter fun d => d.1 = v).map (·.2)) := by
  have hrun : ∀ w : Network, (Trace.final (exec cr) w ds).nodes v =
      Trace.final (StateMachine.exec cr) (w.nodes v) ((ds.filter fun d => d.1 = v).map (·.2)) := by
    induction ds with
    | nil => exact fun w => rfl
    | cons d ds ih =>
      intro w
      rw [Trace.final, ih, exec]
      by_cases hd : d.1 = v
      · subst hd
        simp [Trace.final]
      · simp [hd, Function.update_of_ne (Ne.symm hd)]
  exact hrun (new cfg)

end Network

namespace NetworkCall

def node (call : NetworkCall) : NodeCall := ⟨call.pre.nodes call.input.1, call.input.2⟩

/-- A member is called, first with the bootstrap and then with messages that have
been sent. -/
def authentic (set : ValidatorSet) (call : NetworkCall) : Bool :=
  decide (call.input.1 ∈ set.entries.map (·.id)) &&
    match call.input.2.1 with
    | .genesis => !call.node.pre.vertices.started
    | .event e => call.node.pre.vertices.started &&
      (Network.carriedBy e).all fun a => decide (a ∈ call.pre.sent)

end NetworkCall

theorem sent_of_authentic {set : ValidatorSet} {call : NetworkCall} {e : Event} {a : Action}
    (h : call.authentic set = true) (he : call.node.event = some e)
    (ha : Network.carriedBy e = some a) : a ∈ call.pre.sent := by
  obtain ⟨w, v, req, ctx⟩ := call
  cases req with
  | genesis => cases he
  | event e' =>
    cases he
    simp only [NetworkCall.authentic, ha, Option.all_some, Bool.and_eq_true,
      decide_eq_true_eq] at h
    exact h.2.2

/- Vertex proposals. -/

def Issued (v : ValidatorId) (as : List Action) (c : VertexCore) (p : VertexProposal) : Prop :=
  Action.broadcastVertexProposal p ∈ as ∧ p.vertex.author = v ∨
    ∃ h : Hash32, c.myProposals[h]? = some p

/-- L1 of node `v` in a network that had sent `sent` before the call, and has sent
`as` now. -/
structure VertexHonest (v : ValidatorId) (sent as : List Action) (c : VertexCore) : Prop where
  selfId : c.selfId = v
  bound : ∀ p, Issued v as c p →
    p.vertex.author = v ∧ c.started = true ∧ p.vertex.round ≤ c.currentRound
  once : ∀ p q, Issued v as c p → Issued v as c q → p.vertex.round = q.vertex.round → p = q
  seen : ∀ (k : Round ×ₗ ValidatorId) (q : VertexProposal), q ∈ c.proposalsSeen[k]?.getD [] →
    (ofLex k).2 ≠ v → Action.broadcastVertexProposal q ∈ sent ∧
      k = toLex (q.vertex.round, q.vertex.author)
  fresh : ∀ p, Action.broadcastVertexProposal p ∈ as →
    Action.broadcastVertexProposal p ∈ sent ∨ p.vertex.author = v
  clean : ∀ o ev, Action.emitSlashEvidence o (.vertexEquivocation ev) ∉ as

def OneVertexPerRound (sent : List Action) : Prop :=
  ∀ p q, Action.broadcastVertexProposal p ∈ sent → Action.broadcastVertexProposal q ∈ sent →
    p.vertex.author = q.vertex.author → p.vertex.round = q.vertex.round → p = q

def Action.isVertexIssue : Action → Bool
  | .broadcastVertexProposal _ => true
  | .emitSlashEvidence _ (.vertexEquivocation _) => true
  | _ => false

theorem not_vertexIssue_of_not_news {a : Action} (h : a.isVertexNews = false) :
    a.isVertexIssue = false := by
  cases a with
  | emitSlashEvidence o ev => cases ev <;> simp_all [Action.isVertexNews, Action.isVertexIssue]
  | _ => simp_all [Action.isVertexNews, Action.isVertexIssue]

section Vertices
variable {v : ValidatorId} {sent as : List Action} {c : VertexCore}

/-- Actions without proposals and evidence change nothing. -/
theorem VertexHonest.quiet (h : VertexHonest v sent as c) (acts : List Action)
    (hacts : ∀ a ∈ acts, a.isVertexIssue = false) : VertexHonest v sent (as ++ acts) c := by
  have hold : ∀ p, Action.broadcastVertexProposal p ∈ as ++ acts →
      Action.broadcastVertexProposal p ∈ as := by
    intro p hp
    cases List.mem_append.mp hp with
    | inl hl => exact hl
    | inr hr => exact absurd (hacts _ hr) (by simp [Action.isVertexIssue])
  have hiss : ∀ p, Issued v (as ++ acts) c p → Issued v as c p := by
    intro p hp
    cases hp with
    | inl hl => exact Or.inl ⟨hold p hl.1, hl.2⟩
    | inr hr => exact Or.inr hr
  refine ⟨h.selfId, fun p hp => h.bound p (hiss p hp),
    fun p q hp hq => h.once p q (hiss p hp) (hiss q hq), h.seen, fun p hp => h.fresh p (hold p hp),
    ?_⟩
  intro o ev hmem
  cases List.mem_append.mp hmem with
  | inl hl => exact h.clean o ev hl
  | inr hr => exact absurd (hacts _ hr) (by simp [Action.isVertexIssue])

def VertexCore.proposed (c : VertexCore) (p : VertexProposal)
    (voted : Finset (Round × ValidatorId)) : VertexCore :=
  { c with
    started := true
    currentRound := p.vertex.round
    voted := voted
    proposalsSeen := c.proposalsSeen.insert (toLex (p.vertex.round, c.selfId))
      (c.proposalsSeen[toLex (p.vertex.round, c.selfId)]?.getD [] ++ [p])
    myProposals := c.myProposals.insert p.vertex.hash p }

theorem sent_or_new {p q : VertexProposal} {acts : List Action}
    (hacts : ∀ a ∈ acts, a.isCertTraffic = true)
    (hq : Action.broadcastVertexProposal q ∈ as ++ (acts ++ [.broadcastVertexProposal p])) :
    Action.broadcastVertexProposal q ∈ as ∨ q = p := by
  cases List.mem_append.mp hq with
  | inl hl => exact Or.inl hl
  | inr hr =>
    cases List.mem_append.mp hr with
    | inl ha => exact absurd (hacts _ ha) (by simp [Action.isCertTraffic])
    | inr hp =>
      cases List.mem_singleton.mp hp
      exact Or.inr rfl

theorem Issued.of_proposed {p q : VertexProposal} {acts : List Action}
    (hacts : ∀ a ∈ acts, a.isCertTraffic = true) {voted : Finset (Round × ValidatorId)}
    (hq : Issued v (as ++ (acts ++ [.broadcastVertexProposal p])) (c.proposed p voted) q) :
    Issued v as c q ∨ q = p := by
  cases hq with
  | inl hl =>
    cases sent_or_new hacts hl.1 with
    | inl hold => exact Or.inl (Or.inl ⟨hold, hl.2⟩)
    | inr heq => exact Or.inr heq
  | inr hr =>
    obtain ⟨x, hx⟩ := hr
    simp only [VertexCore.proposed, Maps.get_insert] at hx
    split at hx
    · cases hx
      exact Or.inr rfl
    · exact Or.inl (Or.inr ⟨x, hx⟩)

theorem VertexHonest.issued_before (h : VertexHonest v sent as c) {r : Round}
    (hround : c.started = false ∧ r = 0 ∨ c.started = true ∧ r = c.currentRound + 1)
    {q : VertexProposal} (hq : Issued v as c q) : q.vertex.round < r := by
  obtain ⟨-, hst, hle⟩ := h.bound q hq
  cases hround with
  | inl hz =>
    rw [hz.1] at hst
    cases hst
  | inr hs =>
    rw [hs.2]
    exact Nat.lt_succ_of_le hle

theorem VertexHonest.propose (h : VertexHonest v sent as c) {p : VertexProposal}
    {acts : List Action} (hself : p.vertex.author = c.selfId)
    (hround : c.started = false ∧ p.vertex.round = 0 ∨
      c.started = true ∧ p.vertex.round = c.currentRound + 1)
    (hacts : ∀ a ∈ acts, a.isCertTraffic = true) (voted : Finset (Round × ValidatorId)) :
    VertexHonest v sent (as ++ (acts ++ [.broadcastVertexProposal p])) (c.proposed p voted) := by
  have hauthor : p.vertex.author = v := hself.trans h.selfId
  refine ⟨h.selfId, ?_, ?_, ?_, ?_, ?_⟩
  · intro q hq
    cases hq.of_proposed hacts with
    | inl hold => exact ⟨(h.bound q hold).1, rfl, (h.issued_before hround hold).le⟩
    | inr heq =>
      subst heq
      exact ⟨hauthor, rfl, Nat.le_refl _⟩
  · intro q q' hq hq' hr
    cases hq.of_proposed hacts with
    | inl hold =>
      cases hq'.of_proposed hacts with
      | inl hold' => exact h.once q q' hold hold' hr
      | inr heq' =>
        subst heq'
        exact absurd hr (Nat.ne_of_lt (h.issued_before hround hold))
    | inr heq =>
      subst heq
      cases hq'.of_proposed hacts with
      | inl hold' => exact absurd hr.symm (Nat.ne_of_lt (h.issued_before hround hold'))
      | inr heq' => exact heq'.symm
  · intro k q hq hk
    simp only [VertexCore.proposed, Maps.get_insert] at hq
    split at hq
    · rename_i heq
      rw [← heq] at hk
      exact absurd h.selfId hk
    · exact h.seen k q hq hk
  · intro q hq
    cases sent_or_new hacts hq with
    | inl hold => exact h.fresh q hold
    | inr heq =>
      subst heq
      exact Or.inr hauthor
  · intro o ev hmem
    cases List.mem_append.mp hmem with
    | inl hl => exact h.clean o ev hl
    | inr hr =>
      cases List.mem_append.mp hr with
      | inl ha => exact absurd (hacts _ ha) (by simp [Action.isCertTraffic])
      | inr hp => simp at hp

theorem VertexHonest.repeatOwn (h : VertexHonest v sent as c) {x : Hash32} {p : VertexProposal}
    (hp : c.myProposals[x]? = some p) :
    VertexHonest v sent (as ++ [.broadcastVertexProposal p]) c := by
  have hsent : ∀ q, Action.broadcastVertexProposal q ∈ as ++ [.broadcastVertexProposal p] →
      Action.broadcastVertexProposal q ∈ as ∨ q = p := by
    intro q hq
    cases List.mem_append.mp hq with
    | inl hl => exact Or.inl hl
    | inr hr =>
      cases List.mem_singleton.mp hr
      exact Or.inr rfl
  have hmine : Issued v as c p := Or.inr ⟨x, hp⟩
  have hiss : ∀ q, Issued v (as ++ [.broadcastVertexProposal p]) c q → Issued v as c q := by
    intro q hq
    cases hq with
    | inl hl =>
      cases hsent q hl.1 with
      | inl hold => exact Or.inl ⟨hold, hl.2⟩
      | inr heq => exact heq ▸ hmine
    | inr hr => exact Or.inr hr
  refine ⟨h.selfId, fun q hq => h.bound q (hiss q hq),
    fun q q' hq hq' => h.once q q' (hiss q hq) (hiss q' hq'), h.seen, ?_, ?_⟩
  · intro q hq
    cases hsent q hq with
    | inl hold => exact h.fresh q hold
    | inr heq =>
      rw [heq]
      exact Or.inr (h.bound p hmine).1
  · intro o ev hmem
    cases List.mem_append.mp hmem with
    | inl hl => exact h.clean o ev hl
    | inr hr => simp at hr

theorem VertexHonest.forget (h : VertexHonest v sent as c) (voted : Finset (Round × ValidatorId))
    (f : Round ×ₗ ValidatorId → List VertexProposal → Bool)
    (g : Hash32 → VertexProposal → Bool) :
    VertexHonest v sent as { c with
      voted := voted
      proposalsSeen := c.proposalsSeen.filter f
      myProposals := c.myProposals.filter g } := by
  have hiss : ∀ q, Issued v as { c with
      voted := voted
      proposalsSeen := c.proposalsSeen.filter f
      myProposals := c.myProposals.filter g } q → Issued v as c q := by
    intro q hq
    cases hq with
    | inl hl => exact Or.inl hl
    | inr hr =>
      obtain ⟨x, hx⟩ := hr
      exact Or.inr ⟨x, Maps.get_of_filter hx⟩
  refine ⟨h.selfId, fun q hq => h.bound q (hiss q hq),
    fun q q' hq hq' => h.once q q' (hiss q hq) (hiss q' hq'), ?_, h.fresh, h.clean⟩
  intro k q hq hk
  cases hget : (c.proposalsSeen.filter f)[k]? with
  | none => simp [hget] at hq
  | some qs =>
    apply h.seen k q ?_ hk
    rw [Maps.get_of_filter hget]
    simpa [hget] using hq

theorem vertexHonest_move {call : NodeCall} {d : VertexCore} {sg : List SignReq}
    {acts : List Action}
    (hdel : ∀ p, call.event = some (.vertexProposalReceived p) →
      Action.broadcastVertexProposal p ∈ sent)
    (huniq : OneVertexPerRound sent) (hm : VertexMove call c sg acts d)
    (h : VertexHonest v sent as c) : VertexHonest v sent (as ++ acts) d := by
  cases hm with
  | traffic acts hacts =>
    apply h.quiet acts
    intro a ha
    have ht := hacts a ha
    cases a <;> simp_all [Action.isCertTraffic, Action.isVertexIssue]
  | see p hev =>
    rw [List.append_nil]
    refine ⟨h.selfId, h.bound, h.once, ?_, h.fresh, h.clean⟩
    intro k q hq hk
    simp only [Maps.get_insert] at hq
    split at hq
    · rename_i heq
      rw [Option.getD_some, List.mem_singleton] at hq
      subst hq
      exact ⟨hdel q hev, heq.symm⟩
    · exact h.seen k q hq hk
  | accuse p q ev hev hself hq hne =>
    have hk : (ofLex (toLex (p.vertex.round, p.vertex.author))).2 ≠ v := by
      rw [← h.selfId]
      exact hself
    obtain ⟨hqs, hkey⟩ := h.seen _ q hq hk
    have hpair := toLex.injective hkey
    simp only [Prod.mk.injEq] at hpair
    have hsame := huniq q p hqs (hdel p hev) hpair.2.symm hpair.1.symm
    exact absurd (congrArg (·.vertex.hash) hsame) hne
  | vote p sig hev hself hwin hnew =>
    have hq := h.quiet [.broadcastVertexPartial
      ⟨p.vertex.hash, p.vertex.round, p.vertex.author, c.selfId, sig⟩]
      (by simp [Action.isVertexIssue])
    exact ⟨hq.selfId, hq.bound, hq.once, hq.seen, hq.fresh, hq.clean⟩
  | propose p acts hself hround hacts => exact h.propose hself hround hacts _
  | repeatOwn x p hp => exact h.repeatOwn hp
  | prune =>
    rw [List.append_nil]
    exact h.forget _ _ _

end Vertices

end LuaDag
