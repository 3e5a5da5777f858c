import LuaDag.Devnet
import LuaDag.VertexMoves

/-! Which proposals get a vote, and what their parents amount to. The quorum of parents is
counted over the list as signed, in which a vertex can stand twice. -/
namespace LuaDag
open VertexCert

/-- Everything `on_vertex_proposal` looks at before it votes. -/
structure Votable (cr : Crypto) (set : ValidatorSet) (b : VertexBook) (p : VertexProposal) :
    Prop where
  ok : Admissible cr set b p
  single : ∀ ps, b.proposalsSeen[toLex (p.vertex.round, p.vertex.author)]? = some ps →
    ∀ q ∈ ps, q.vertex.hash = p.vertex.hash
  pass : ParentsPass set b p.vertex
  fresh : (p.vertex.round, p.vertex.author) ∉ b.voted

def voteFor (ctx : HostContext) (b : VertexBook) (p : VertexProposal) : VertexPartial :=
  ⟨p.vertex.hash, p.vertex.round, p.vertex.author, b.selfId,
    ctx.signBls .vertexCert (signingBytes p.vertex)⟩

namespace VertexCert
section Votes
variable {cr : Crypto} {set : ValidatorSet} {p : VertexProposal} {ctx : HostContext}
  {bp : VertexPartial}

theorem vote_sends {b : VertexBook} :
    Action.broadcastVertexPartial bp ∈ (vote b p ctx).actions ↔
      (p.vertex.round, p.vertex.author) ∉ b.voted ∧ bp = voteFor ctx b p := by
  unfold vote
  dsimp only
  split
  · rename_i hvoted
    simp [hvoted]
  · rename_i hfresh
    simp [hfresh, Outcome.actions, voteFor]

theorem checkParentsAndVote_sends {b : VertexBook} :
    Action.broadcastVertexPartial bp ∈ (checkParentsAndVote set p ctx b).actions ↔
      ParentsPass set b p.vertex ∧ (p.vertex.round, p.vertex.author) ∉ b.voted ∧
        bp = voteFor ctx b p := by
  unfold checkParentsAndVote ParentsPass
  by_cases hround : 0 < p.vertex.round
  · rw [if_pos hround]
    have hne : p.vertex.round ≠ 0 := Nat.pos_iff_ne_zero.mp hround
    cases hneed : quorumNeed set with
    | error e => simp [hne]
    | ok need =>
      dsimp only
      split
      · rename_i hknown
        rw [vote_sends]
        simp [hne, hround, hknown]
      · rename_i hknown
        simp [hne, hknown]
  · rw [if_neg hround]
    have hzero : p.vertex.round = 0 := Nat.eq_zero_of_not_pos hround
    split
    · rename_i hempty
      rw [vote_sends]
      simp [hzero, List.isEmpty_iff.mp hempty]
    · rename_i hparents
      rw [List.isEmpty_iff] at hparents
      simp [hzero, hparents]

theorem checkParentsAndVote_votable {b d : VertexBook} (hok : Admissible cr set b p)
    (hsingle : ∀ ps, b.proposalsSeen[toLex (p.vertex.round, p.vertex.author)]? = some ps →
      ∀ q ∈ ps, q.vertex.hash = p.vertex.hash)
    (hcert : d.certifiedByRound = b.certifiedByRound) (hvoted : d.voted = b.voted)
    (hself : d.selfId = b.selfId) :
    Action.broadcastVertexPartial bp ∈ (checkParentsAndVote set p ctx d).actions ↔
      Votable cr set b p ∧ bp = voteFor ctx b p := by
  have hpass : ParentsPass set d p.vertex ↔ ParentsPass set b p.vertex := by
    simp only [ParentsPass, parentsKnown, hcert]
  have hvote : voteFor ctx d p = voteFor ctx b p := by
    simp only [voteFor, hself]
  rw [checkParentsAndVote_sends, hpass, hvoted, hvote]
  constructor
  · rintro ⟨hp, hfresh, hbp⟩
    exact ⟨⟨hok, hsingle, hp, hfresh⟩, hbp⟩
  · rintro ⟨hv, hbp⟩
    exact ⟨hv.pass, hv.fresh, hbp⟩

/-- The only votes are those for votable proposals. -/
theorem onVertexProposal_sends {b : VertexBook} (hset : activeSet ctx = .ok set) :
    Action.broadcastVertexPartial bp ∈ (onVertexProposal cr p ctx b).actions ↔
      Votable cr set b p ∧ bp = voteFor ctx b p := by
  -- a proposal turned away before the parents are looked at
  have hno : ∀ o : Result VertexBook, Action.broadcastVertexPartial bp ∉ o.actions →
      ¬ Votable cr set b p → (Action.broadcastVertexPartial bp ∈ o.actions ↔
        Votable cr set b p ∧ bp = voteFor ctx b p) :=
    fun o hsent hv => ⟨fun h => absurd h hsent, fun h => absurd h.1 hv⟩
  unfold onVertexProposal
  rw [hset]
  dsimp only
  split
  · rename_i hhash
    exact hno _ (by simp) fun h => hhash h.ok.hash
  rename_i hhash
  split
  · rename_i hsigned
    exact hno _ (by simp) fun h => by simp [h.ok.signed] at hsigned
  rename_i hsigned
  split
  · rename_i hself
    exact hno _ (by simp) fun h => h.ok.foreign hself
  rename_i hself
  split
  · rename_i hwindow
    exact hno _ (by simp) fun h => by simp [roundInWindow, h.ok.window] at hwindow
  rename_i hwindow
  have hok : Admissible cr set b p :=
    ⟨not_not.mp hhash, by simpa using hsigned, hself, by simpa [roundInWindow] using hwindow⟩
  split
  · rename_i first rest hseen
    split
    · rename_i hother
      refine hno _ (by simp) fun h => ?_
      obtain ⟨q, hq, hne⟩ := List.any_eq_true.mp hother
      exact (of_decide_eq_true hne) (h.single _ hseen q hq)
    · rename_i hsame
      refine checkParentsAndVote_votable hok ?_ rfl rfl rfl
      intro ps hps
      cases hseen.symm.trans hps
      simpa using hsame
  · rename_i hseen
    refine checkParentsAndVote_votable hok ?_ rfl rfl rfl
    intro ps hps
    cases hseen.symm.trans hps
    simp
  · rename_i hseen
    refine checkParentsAndVote_votable hok ?_ rfl rfl rfl
    intro ps hps
    cases hseen.symm.trans hps

end Votes
end VertexCert

/- Parents. -/

def VertexBook.recorded (b : VertexBook) (r : Round) (h : Hash32) : Prop :=
  ∃ author : ValidatorId, (b.certifiedByRound[r]?.getD ∅)[author]? = some h

theorem parentsKnown_iff {b : VertexBook} {r : Round} {need : Nat} {parents : List Hash32} :
    parentsKnown b r need parents = true ↔
      need ≤ parents.length ∧ ∀ h ∈ parents, b.recorded (r - 1) h := by
  unfold parentsKnown VertexBook.recorded
  cases hprev : b.certifiedByRound[r - 1]? with
  | none => simp
  | some certs => simp [Maps.mem_values]

/-- The vertex references a quorum of different vertices on record at the round before. -/
def QuorumParents (set : ValidatorSet) (b : VertexBook) (v : Vertex) : Prop :=
  ∃ parents : Finset Hash32, quorumThreshold set.entries.length ≤ parents.card ∧
    ∀ h ∈ parents, h ∈ v.parents ∧ b.recorded (v.round - 1) h

/-- The call votes for the proposal. -/
def NodeCall.votesFor (cr : Crypto) (call : NodeCall) (p : VertexProposal) : Prop :=
  call.event = some (.vertexProposalReceived p) ∧
    ∃ bp, Action.broadcastVertexPartial bp ∈ (StateMachine.exec cr call.input call.pre).actions

theorem votesFor_iff {cr : Crypto} {call : NodeCall} {set : ValidatorSet}
    (hset : activeSet call.ctx = .ok set) {p : VertexProposal} :
    call.votesFor cr p ↔ call.event = some (.vertexProposalReceived p) ∧
      Votable cr set call.pre.vertices p := by
  refine and_congr_right ?_
  intro hev
  obtain ⟨sm, req, ctx⟩ := call
  cases req with
  | genesis => cases hev
  | event e =>
    cases hev
    constructor
    · rintro ⟨bp, hbp⟩
      exact ((onVertexProposal_sends hset).mp hbp).1
    · intro hv
      exact ⟨_, (onVertexProposal_sends hset).mpr ⟨hv, rfl⟩⟩

/-- The proposal is to be voted for and fills up its list of parents with repetitions. -/
def Padded (cr : Crypto) (call : NodeCall) : Prop :=
  ∃ p set, call.event = some (.vertexProposalReceived p) ∧ activeSet call.ctx = .ok set ∧
    Votable cr set call.pre.vertices p ∧ 0 < p.vertex.round ∧
    p.vertex.parents.toFinset.card < quorumThreshold set.entries.length

/-- A vote for such a proposal is the only one without a quorum of parents. -/
theorem quorumParents_iff {cr : Crypto} {set : ValidatorSet} {b : VertexBook} {p : VertexProposal}
    (hv : Votable cr set b p) (hround : 0 < p.vertex.round) :
    QuorumParents set b p.vertex ↔
      quorumThreshold set.entries.length ≤ p.vertex.parents.toFinset.card := by
  constructor
  · rintro ⟨parents, hcard, hmem⟩
    refine hcard.trans (Finset.card_le_card ?_)
    exact fun h hh => List.mem_toFinset.mpr (hmem h hh).1
  · intro hcard
    refine ⟨p.vertex.parents.toFinset, hcard, ?_⟩
    cases hv.pass with
    | inl hzero => exact absurd hzero.1 (Nat.pos_iff_ne_zero.mp hround)
    | inr habove =>
      obtain ⟨-, need, -, hknown⟩ := habove
      intro h hh
      have hin := List.mem_toFinset.mp hh
      exact ⟨hin, (parentsKnown_iff.mp hknown).2 h hin⟩

/-- In every run, the vertices a node votes for above round 0 have a quorum of different
parents on record iff no padded proposal comes up for a vote. -/
theorem voted_parents_quorum (cr : Crypto) (cfg : Config) (self : ValidatorId)
    (is : List StateMachine.Input) :
    (∀ call : NodeCall, call ∈ StateMachine.run cr cfg self is → ∀ p set, call.votesFor cr p →
      activeSet call.ctx = .ok set → 0 < p.vertex.round →
        QuorumParents set call.pre.vertices p.vertex) ↔
      ∀ call : NodeCall, call ∈ StateMachine.run cr cfg self is → ¬ Padded cr call := by
  constructor
  · rintro h call hcall ⟨p, set, hev, hset, hv, hround, hfew⟩
    have hquorum := h call hcall p set ((votesFor_iff hset).mpr ⟨hev, hv⟩) hset hround
    exact absurd ((quorumParents_iff hv hround).mp hquorum) (Nat.not_le_of_lt hfew)
  · intro h call hcall p set hvote hset hround
    obtain ⟨hev, hv⟩ := (votesFor_iff hset).mp hvote
    refine (quorumParents_iff hv hround).mpr (Nat.le_of_not_lt fun hfew => ?_)
    exact h call hcall ⟨p, set, hev, hset, hv, hround, hfew⟩

section Devnet
open Devnet

def paddedProposal : VertexProposal :=
  ⟨⟨1, ⟨2⟩, List.replicate 3 (vertexHash 0 1), [], vertexHash 1 2⟩, sigOf ⟨2⟩⟩

def paddedRun : List StateMachine.Input :=
  (.genesis, ports 0 0) :: script 0
    [(0, .certifiedVertexReceived (vertexAt 0 1)), (0, .vertexProposalReceived paddedProposal)]

def paddedCall : NodeCall :=
  ⟨StateMachine.reached openCrypto config ⟨0⟩ (paddedRun.take 2),
    .event (.vertexProposalReceived paddedProposal), ports 0 0⟩

/-- It gets the vote all the same. -/
theorem voted_parents_padded : ¬ ∀ (cr : Crypto) (cfg : Config) (self : ValidatorId)
    (is : List StateMachine.Input) (call : NodeCall), call ∈ StateMachine.run cr cfg self is →
    ∀ p set, call.votesFor cr p → activeSet call.ctx = .ok set → 0 < p.vertex.round →
      QuorumParents set call.pre.vertices p.vertex := by
  intro h
  have hcall : paddedCall ∈ StateMachine.run openCrypto config ⟨0⟩ paddedRun :=
    List.mem_cons_of_mem _ (List.mem_cons_of_mem _ List.mem_cons_self)
  have hsent : Action.broadcastVertexPartial ⟨vertexHash 1 2, 1, ⟨2⟩, ⟨0⟩, sigOf ⟨0⟩⟩ ∈
      (StateMachine.exec openCrypto paddedCall.input paddedCall.pre).actions := by
    decide +kernel
  obtain ⟨parents, hcard, hmem⟩ := h openCrypto config ⟨0⟩ paddedRun paddedCall hcall
    paddedProposal validators ⟨rfl, _, hsent⟩ rfl (by decide)
  have hone : parents.card ≤ 1 := by
    refine (Finset.card_le_card ?_).trans_eq (Finset.card_singleton (vertexHash 0 1))
    intro x hx
    exact Finset.mem_singleton.mpr (List.eq_of_mem_replicate (hmem x hx).1)
  exact absurd (hcard.trans hone) (by decide)

end Devnet
end LuaDag
