import LuaDag.ParentVotes
import LuaDag.VertexMemory

/-! Which proposals of the window a node can still vote for. The certificates on record are the
last ones of their slots, from the round before the current one on; the parents of a proposal of
that round are a round further back. -/
namespace LuaDag
open VertexCert

/-- The certificates that come with an outcome of the call: the one the call delivers, or those
of own vertices. -/
def NodeCall.recordingsOf (call : NodeCall) (o : Result VertexBook) : List CertifiedVertex :=
  match call.event with
  | some (.certifiedVertexReceived cv) => [cv]
  | _ => certifiedIn o.actions

def NodeCall.recordings (cr : Crypto) (call : NodeCall) : List CertifiedVertex :=
  call.recordingsOf (call.vertexOutcome cr)

theorem recordingsOf_delivered {call : NodeCall} {o : Result VertexBook} {cv : CertifiedVertex}
    (hev : call.event = some (.certifiedVertexReceived cv)) : call.recordingsOf o = [cv] := by
  simp only [NodeCall.recordingsOf, hev]

theorem recordingsOf_own {call : NodeCall} {o : Result VertexBook}
    (hev : ∀ cv, call.event ≠ some (.certifiedVertexReceived cv)) :
    call.recordingsOf o = certifiedIn o.actions := by
  unfold NodeCall.recordingsOf
  split
  · rename_i cv heq
    exact absurd heq (hev cv)
  · rfl

def lastFor (log : List CertifiedVertex) (r : Round) (a : ValidatorId) : Option Hash32 :=
  (log.reverse.find? fun cv => cv.vertex.round = r ∧ cv.vertex.author = a).map (·.vertex.hash)

theorem lastFor_snoc (log : List CertifiedVertex) (cv : CertifiedVertex) (r : Round)
    (a : ValidatorId) : lastFor (log ++ [cv]) r a =
      if cv.vertex.round = r ∧ cv.vertex.author = a then some cv.vertex.hash
      else lastFor log r a := by
  unfold lastFor
  rw [List.reverse_append, List.reverse_singleton, List.singleton_append, List.find?_cons]
  by_cases hslot : cv.vertex.round = r ∧ cv.vertex.author = a
  · simp [hslot]
  · simp [hslot]

def certsAt (m : Std.TreeMap Round (Std.TreeMap ValidatorId Hash32)) (r : Round) :
    Std.TreeMap ValidatorId Hash32 := m[r]?.getD ∅

def recordIn (m : Std.TreeMap Round (Std.TreeMap ValidatorId Hash32)) (v : Vertex) :
    Std.TreeMap Round (Std.TreeMap ValidatorId Hash32) :=
  m.insert v.round ((certsAt m v.round).insert v.author v.hash)

theorem recordIn_get (m : Std.TreeMap Round (Std.TreeMap ValidatorId Hash32)) (v : Vertex)
    (r : Round) (a : ValidatorId) : (certsAt (recordIn m v) r)[a]? =
      if v.round = r ∧ v.author = a then some v.hash else (certsAt m r)[a]? := by
  unfold recordIn
  by_cases hround : v.round = r
  · subst hround
    simp [certsAt]
  · simp [certsAt, hround]

theorem prune_certs (b : VertexBook) (r : Round) : certsAt (prune b).certifiedByRound r =
    if b.currentRound ≤ r + 1 then certsAt b.certifiedByRound r else ∅ := by
  have hget : (prune b).certifiedByRound[r]? =
      if b.currentRound ≤ r + 1 then b.certifiedByRound[r]? else none := by
    apply Option.ext
    intro certs
    rw [prune, Maps.get_filter_iff, decide_eq_true_eq, Nat.sub_le_iff_le_add]
    by_cases hlow : b.currentRound ≤ r + 1
    · simp [hlow]
    · simp [hlow]
  unfold certsAt
  rw [hget]
  by_cases hlow : b.currentRound ≤ r + 1
  · rw [if_pos hlow, if_pos hlow]
  · rw [if_neg hlow, if_neg hlow]
    rfl

/- The record. -/

/-- On record are the last certificates of their slots, from the round before the current one. -/
def Kept (log : List CertifiedVertex) (b : VertexBook) : Prop :=
  ∀ r a h, (certsAt b.certifiedByRound r)[a]? = some h ↔
    b.currentRound ≤ r + 1 ∧ lastFor log r a = some h

section Record
variable {cr : Crypto} {set : ValidatorSet} {call : NodeCall}

theorem ascend_certifiedIn {cfg : Config} {ctx : HostContext} {need : Nat} (k : Nat)
    (b : VertexBook) : certifiedIn (ascend cr cfg ctx need k b).actions = [] := by
  induction k generalizing b with
  | zero => rfl
  | succ k ih =>
    rw [ascend_actions, certifiedIn_append, certifiedIn_own, ih]
    rfl

structure Bare (call : NodeCall) (o : Result VertexBook) : Prop where
  none : call.recordingsOf o = []
  same : o.state.certifiedByRound = call.pre.vertices.certifiedByRound
  round : o.state.currentRound = call.pre.vertices.currentRound

structure Brings (call : NodeCall) (o : Result VertexBook) (cv : CertifiedVertex) : Prop where
  one : call.recordingsOf o = [cv]
  round : call.pre.vertices.currentRound ≤ o.state.currentRound
  kept : ∀ r, certsAt o.state.certifiedByRound r =
    if o.state.currentRound ≤ r + 1 then
      certsAt (recordIn call.pre.vertices.certifiedByRound cv.vertex) r
    else ∅

theorem recorded_delivered {cv : CertifiedVertex}
    (hev : call.event = some (.certifiedVertexReceived cv)) :
    call.recorded = recordIn call.pre.vertices.certifiedByRound cv.vertex := by
  simp only [NodeCall.recorded, hev]
  rfl

theorem recorded_completed {bp : VertexPartial} {p : VertexProposal}
    (hev : call.event = some (.vertexPartialReceived bp))
    (hmine : call.pre.vertices.myProposals[bp.vertexHash]? = some p) :
    call.recorded = recordIn call.pre.vertices.certifiedByRound p.vertex := by
  simp only [NodeCall.recorded, hev, hmine]
  rfl

theorem climbed_kept {cfg : Config} {ctx : HostContext} {need : Nat} {b : VertexBook}
    {o : Result VertexBook} (h : Climbed cr cfg ctx need b o)
    (hret : o.result ≠ .error .overflow) :
    (∃ acts, o.result = .ok acts ∧ certifiedIn acts = []) ∧
      b.currentRound ≤ o.state.currentRound ∧
      ∀ r, certsAt o.state.certifiedByRound r =
        if o.state.currentRound ≤ r + 1 then certsAt b.certifiedByRound r else ∅ := by
  cases h with
  | cut k hq =>
    rw [Outcome.andThen_of_ok (ascend_result k b)] at hret
    exact absurd rfl hret
  | done k hq hend =>
    rw [Outcome.andThen_of_ok (ascend_result k b)]
    refine ⟨⟨_, rfl, ?_⟩, ?_, ?_⟩
    · simpa using ascend_certifiedIn k b
    · change b.currentRound ≤ (ascend cr cfg ctx need k b).state.currentRound
      rw [ascend_round]
      exact Nat.le_add_right _ _
    · intro r
      change certsAt (prune (ascend cr cfg ctx need k b).state).certifiedByRound r = _
      rw [prune_certs, ascend_certified]
      rfl

theorem record_of_shape {o : Result VertexBook} (h : VertexShape cr set call o)
    (hidle : call.pre.vertices.started = false → call.pre.vertices.currentRound = 0)
    (hbig : set.entries.length < 2 ^ 32) (hret : o.result ≠ .error .overflow) :
    Bare call o ∨ ∃ cv, Brings call o cv := by
  cases h with
  | still o h hrest =>
    obtain ⟨hev, hcert⟩ | ⟨⟨cv, hev⟩, hcert, hwhy⟩ := hrest
    · refine Or.inl ⟨?_, hcert, h.same.round⟩
      rw [recordingsOf_own hev]
      refine List.eq_nil_iff_forall_not_mem.mpr ?_
      intro cv hcv
      exact h.uncertified cv (mem_certifiedIn.mp hcv)
    · refine Or.inr ⟨cv, recordingsOf_delivered hev, Nat.le_of_eq h.same.round.symm, ?_⟩
      have hzero : o.state.currentRound = 0 := by
        rw [h.same.round]
        cases hwhy with
        | inl hst => exact hidle hst
        | inr herror =>
          obtain ⟨e, he⟩ := herror
          exact absurd ((quorumNeed_of_lt hbig).symm.trans he) (by simp)
      intro r
      rw [if_pos (hzero ▸ Nat.zero_le _), hcert, recorded_delivered hev]
  | boot o hev hst ho =>
    have hno : ∀ cv, call.event ≠ some (.certifiedVertexReceived cv) := by
      intro cv hcv
      simp [NodeCall.event, hev] at hcv
    refine Or.inl ?_
    obtain rfl | ⟨e, rfl⟩ := ho
    · exact ⟨(recordingsOf_own hno).trans (certifiedIn_own _ _ _ _ _ _), rfl, (hidle hst).symm⟩
    · exact ⟨recordingsOf_own hno, rfl, (hidle hst).symm⟩
  | climb need b first o hneed hfoot hfirst hclimb =>
    rw [Outcome.andThen_of_ok rfl] at hret ⊢
    have hret' : o.result ≠ .error .overflow := by
      intro herror
      simp [herror, Except.map] at hret
    obtain ⟨⟨acts, hacts, hown⟩, hround, hkept⟩ := climbed_kept hclimb hret'
    rw [hfoot.round] at hround
    rw [hfoot.certified] at hkept
    refine Or.inr ?_
    cases hfirst with
    | delivered cv hev hemitted =>
      rw [recorded_delivered hev] at hkept
      exact ⟨cv, recordingsOf_delivered hev, hround, hkept⟩
    | completed bp p cv hev hvote hvertex hemitted =>
      rw [recorded_completed hev hvote.mine, ← hvertex] at hkept
      refine ⟨cv, ?_, hround, hkept⟩
      rw [recordingsOf_own fun cv hcv => by cases hev.symm.trans hcv]
      simp only [Outcome.actions, hacts, Except.map, certifiedIn_append, hown]
      rfl
  | again id delay stalled retries hev again hagain =>
    refine Or.inl ⟨?_, rfl, rfl⟩
    rw [recordingsOf_own fun cv hcv => by cases hev.symm.trans hcv]
    cases again with
    | none => rfl
    | some p => rfl

theorem kept_step {log : List CertifiedVertex} (h : Kept log call.pre.vertices)
    {o : Result VertexBook} (ho : Bare call o ∨ ∃ cv, Brings call o cv) :
    Kept (log ++ call.recordingsOf o) o.state := by
  intro r a x
  obtain hbare | ⟨cv, hbrings⟩ := ho
  · rw [hbare.none, List.append_nil, hbare.same, hbare.round]
    exact h r a x
  · rw [hbrings.one, lastFor_snoc, hbrings.kept]
    by_cases hlow : o.state.currentRound ≤ r + 1
    · rw [if_pos hlow, recordIn_get]
      by_cases hslot : cv.vertex.round = r ∧ cv.vertex.author = a
      · rw [if_pos hslot, if_pos hslot]
        exact ⟨fun hx => ⟨hlow, hx⟩, fun hx => hx.2⟩
      · rw [if_neg hslot, if_neg hslot, h r a x]
        exact and_congr_left fun _ => ⟨fun _ => hlow, fun _ => hbrings.round.trans hlow⟩
    · rw [if_neg hlow]
      constructor
      · intro hx
        simp at hx
      · exact fun hx => absurd hx.1 hlow

end Record

/- Votes. -/

def VotedSeen (b : VertexBook) : Prop :=
  ∀ r a, (r, a) ∈ b.voted → b.proposalsSeen[toLex (r, a)]? ≠ none

theorem votedSeen_seed {b : VertexBook} (h : VotedSeen b) (round : Round) (p : VertexProposal)
    (sig : BlsSig) : VotedSeen (seedProposal b round p sig) := by
  intro r a hv
  have hseen : ∀ k : Round ×ₗ ValidatorId, b.proposalsSeen[k]? ≠ none →
      (seedProposal b round p sig).proposalsSeen[k]? ≠ none := by
    intro k hk
    simp only [seedProposal, Maps.get_insert]
    by_cases heq : toLex (round, b.selfId) = k
    · simp [heq]
    · simpa [heq] using hk
  cases Finset.mem_insert.mp hv with
  | inl hnew =>
    cases hnew
    simp [seedProposal]
  | inr hold => exact hseen _ (h r a hold)

theorem votedSeen_move {cr : Crypto} {call : NodeCall} {b d : VertexBook} {sg : List SignReq}
    {acts : List Action} (hm : BookMove cr call b sg acts d) (h : VotedSeen b) : VotedSeen d := by
  cases hm with
  | see set p hev hset hok hnew =>
    intro r a hv
    simp only [Maps.get_insert]
    by_cases heq : toLex (p.vertex.round, p.vertex.author) = toLex (r, a)
    · simp [heq]
    · simpa [heq] using h r a hv
  | vote set p hev hset hok hpass hseen hnew =>
    intro r a hv
    cases Finset.mem_insert.mp hv with
    | inl heq =>
      cases heq
      obtain ⟨ps, hps, -⟩ := hseen
      simp [hps]
    | inr hold => exact h r a hold
  | genesis hst =>
    have hstarted : VotedSeen { b with started := true } := h
    exact votedSeen_seed hstarted _ _ _
  | propose set need certs hst hset hready => exact votedSeen_seed h _ _ _
  | prune hst =>
    intro r a hv
    obtain ⟨hvoted, hkeep⟩ := Finset.mem_filter.mp hv
    obtain ⟨ps, hps⟩ := Option.ne_none_iff_exists'.mp (h r a hvoted)
    intro hnone
    have hsome : (prune b).proposalsSeen[toLex (r, a)]? = some ps :=
      Maps.get_filter_iff.mpr ⟨hps, by simpa using hkeep⟩
    exact absurd (hnone.symm.trans hsome) (by simp)
  | _ => exact h

section Window
variable {cr : Crypto} {cfg : Config} {self : ValidatorId} {set : ValidatorSet}
  {is : List StateMachine.Input}

theorem votedSeen_run : VotedSeen (StateMachine.reached cr cfg self is).vertices :=
  book_invariant cr (fun _ => True) VotedSeen (fun _ _ _ _ _ _ hm h => votedSeen_move hm h) cfg
    self (by simp [VotedSeen, VertexBook.new]) is (fun _ _ => trivial)

def recordingsIn (cr : Crypto) (calls : List NodeCall) : List CertifiedVertex :=
  calls.flatMap (NodeCall.recordings cr)

theorem kept_run (hapart : RoundsHashApart cr) (hlen : 4 ≤ set.entries.length)
    (hbig : set.entries.length < 2 ^ 32) (hset : FixedSet set is)
    (hret : ∀ call : NodeCall, call ∈ StateMachine.run cr cfg self is →
      (call.vertexOutcome cr).result ≠ .error .overflow) :
    Kept (recordingsIn cr (StateMachine.run cr cfg self is))
      (StateMachine.reached cr cfg self is).vertices := by
  refine book_run cr (fun call => (VertexShape cr set call (call.vertexOutcome cr) ∧
    OwnBook cr self call.pre.vertices) ∧ (call.vertexOutcome cr).result ≠ .error .overflow)
    (fun hist b => Kept (recordingsIn cr hist) b) cfg self
    (by simp [Kept, recordingsIn, lastFor, certsAt, VertexBook.new]) ?_ is
    (fun call hcall => ⟨shape_run hapart hlen hset hcall, hret call hcall⟩)
  rintro hist call hkept ⟨⟨hshape, hown⟩, hroom⟩
  have hstep := kept_step hkept
    (record_of_shape hshape (fun hst => (hown.idle hst).1) hbig hroom)
  rwa [recordingsIn, List.flatMap_append, List.flatMap_singleton]

/-- A proposal that a node in the state `b` should vote for: sealed and signed by another member,
of a round next to the current one, the first one of its slot, on top of a quorum of different
vertices whose certificates have come in. -/
structure Expected (cr : Crypto) (set : ValidatorSet) (log : List CertifiedVertex)
    (b : VertexBook) (p : VertexProposal) : Prop where
  ok : Admissible cr set b p
  first : b.proposalsSeen[toLex (p.vertex.round, p.vertex.author)]? = none
  root : p.vertex.round = 0 → p.vertex.parents = []
  above : 0 < p.vertex.round → p.vertex.parents.Nodup ∧
    quorumThreshold set.entries.length ≤ p.vertex.parents.length ∧
    ∀ h ∈ p.vertex.parents, ∃ cv ∈ log, cv.vertex.round = p.vertex.round - 1 ∧ cv.vertex.hash = h

/-- The parents are still on record: the round before is not pruned, and no later certificate of
the same author and round has taken the place of one of them. -/
def Retained (set : ValidatorSet) (log : List CertifiedVertex) (b : VertexBook) (v : Vertex) :
    Prop :=
  set.entries.length < 2 ^ 32 ∧ b.currentRound ≤ v.round ∧
    ∀ h ∈ v.parents, ∃ author, lastFor log (v.round - 1) author = some h

/-- On top of such parents, the check of the parents comes down to what is still on record. -/
theorem expected_pass (hbig : set.entries.length < 2 ^ 32) {log : List CertifiedVertex}
    {b : VertexBook} {p : VertexProposal} (hkept : Kept log b) (hp : Expected cr set log b p)
    (hround : 0 < p.vertex.round) :
    ParentsPass set b p.vertex ↔ Retained set log b p.vertex := by
  obtain ⟨-, hquorum, -⟩ := hp.above hround
  have hpred : p.vertex.round - 1 + 1 = p.vertex.round := Nat.succ_pred_eq_of_pos hround
  constructor
  · intro hpass
    cases hpass with
    | inl hzero => exact absurd hzero.1 (Nat.pos_iff_ne_zero.mp hround)
    | inr habove =>
      obtain ⟨-, need, -, hknown⟩ := habove
      have hrec := (parentsKnown_iff.mp hknown).2
      have hlast : ∀ h ∈ p.vertex.parents, b.currentRound ≤ p.vertex.round ∧
          ∃ author, lastFor log (p.vertex.round - 1) author = some h := by
        intro h hh
        obtain ⟨author, ha⟩ := hrec h hh
        obtain ⟨hlow, hl⟩ := (hkept _ author h).mp ha
        exact ⟨hpred ▸ hlow, author, hl⟩
      have hne : p.vertex.parents ≠ [] := by
        intro hnil
        simp [hnil, quorumThreshold] at hquorum
      obtain ⟨h, hh⟩ := List.exists_mem_of_ne_nil _ hne
      exact ⟨hbig, (hlast h hh).1, fun h hh => (hlast h hh).2⟩
  · intro hret
    refine Or.inr ⟨hround, _, quorumNeed_of_lt hbig, parentsKnown_iff.mpr ⟨hquorum, ?_⟩⟩
    intro h hh
    obtain ⟨author, hl⟩ := hret.2.2 h hh
    exact ⟨author, (hkept _ author h).mpr ⟨hpred.symm ▸ hret.2.1, hl⟩⟩

/-- Window votes. In every state, a proposal that should get a vote gets it iff it is of round 0
or its parents are still on record. -/
theorem window_votes (cr : Crypto) (hapart : RoundsHashApart cr) (cfg : Config)
    (self : ValidatorId) (set : ValidatorSet) (hlen : 4 ≤ set.entries.length)
    (is : List StateMachine.Input) (hset : FixedSet set is)
    (hret : ∀ call : NodeCall, call ∈ StateMachine.run cr cfg self is →
      (call.vertexOutcome cr).result ≠ .error .overflow) :
    let sm := StateMachine.reached cr cfg self is
    let log := recordingsIn cr (StateMachine.run cr cfg self is)
    ∀ p ctx, activeSet ctx = .ok set → Expected cr set log sm.vertices p →
      (NodeCall.votesFor cr ⟨sm, .event (.vertexProposalReceived p), ctx⟩ p ↔
        p.vertex.round = 0 ∨ Retained set log sm.vertices p.vertex) := by
  intro sm log p ctx hserved hp
  have hfresh : (p.vertex.round, p.vertex.author) ∉ sm.vertices.voted :=
    fun hv => votedSeen_run _ _ hv hp.first
  have hvotes : NodeCall.votesFor cr ⟨sm, .event (.vertexProposalReceived p), ctx⟩ p ↔
      ParentsPass set sm.vertices p.vertex := by
    rw [@votesFor_iff cr ⟨sm, .event (.vertexProposalReceived p), ctx⟩ set hserved]
    refine ⟨fun hv => hv.2.pass, fun hpass => ⟨rfl, hp.ok, ?_, hpass, hfresh⟩⟩
    intro ps hps
    exact absurd (hp.first.symm.trans hps) (by simp)
  rw [hvotes]
  by_cases hround : 0 < p.vertex.round
  · have hne : p.vertex.round ≠ 0 := Nat.pos_iff_ne_zero.mp hround
    simp only [hne, false_or]
    by_cases hbig : set.entries.length < 2 ^ 32
    · exact expected_pass hbig (kept_run hapart hlen hbig hset hret) hp hround
    · refine iff_of_false ?_ fun h => hbig h.1
      rintro (hzero | ⟨-, need, hneed, -⟩)
      · exact hne hzero.1
      · simp only [quorumNeed, toU32, if_neg hbig] at hneed
        cases hneed
  · have hzero : p.vertex.round = 0 := Nat.eq_zero_of_not_pos hround
    exact iff_of_true (Or.inl ⟨hzero, hp.root hzero⟩) (Or.inl hzero)

end Window

section Devnet
open Devnet

/-- The three other validators certify rounds 0 and 1, and node 3 gets the first `k`
certificates. -/
def followRun (k : Nat) : List StateMachine.Input :=
  (.genesis, ports 3 0) :: script 3 (([vertexAt 0 0, vertexAt 0 1, vertexAt 0 2, vertexAt 1 0,
    vertexAt 1 1, vertexAt 1 2].take k).map fun cv => (0, .certifiedVertexReceived cv))

def lateProposal : VertexProposal := ⟨(vertexAt 1 0).vertex, sigOf ⟨0⟩⟩

theorem late_expected (k : Nat) (hk : k = 3 ∨ k = 6) :
    Expected openCrypto validators
      (recordingsIn openCrypto (StateMachine.run openCrypto config ⟨3⟩ (followRun k)))
      (StateMachine.reached openCrypto config ⟨3⟩ (followRun k)).vertices lateProposal := by
  obtain rfl | rfl := hk
  all_goals exact ⟨⟨by decide +kernel, by decide +kernel, by decide +kernel, by decide +kernel⟩,
    by decide +kernel, by decide, fun _ => by decide +kernel⟩

theorem window_votes_devnet :
    NodeCall.votesFor openCrypto ⟨StateMachine.reached openCrypto config ⟨3⟩ (followRun 3),
      .event (.vertexProposalReceived lateProposal), ports 3 0⟩ lateProposal := by
  have hall : (StateMachine.run openCrypto config ⟨3⟩ (followRun 3)).all
      (fun call => (NodeCall.vertexOutcome openCrypto call).result.isOk) = true := by
    decide +kernel
  have hlast : ∀ h ∈ lateProposal.vertex.parents, ∃ i ∈ [0, 1, 2], lastFor (recordingsIn openCrypto
      (StateMachine.run openCrypto config ⟨3⟩ (followRun 3))) 0 ⟨i⟩ = some h := by
    decide +kernel
  refine (window_votes openCrypto (roundsHashApart _) config ⟨3⟩ validators (by decide)
    (followRun 3) (fixedSet_script rfl 3 _) (room_of_all hall) lateProposal (ports 3 0) rfl
    (late_expected 3 (Or.inl rfl))).mpr (Or.inr ⟨by decide, by decide +kernel, ?_⟩)
  intro h hh
  obtain ⟨i, -, hi⟩ := hlast h hh
  exact ⟨⟨i⟩, hi⟩

/-- In round 2 it does not, though the window still admits the proposal. -/
theorem window_votes_edge :
    let sm := StateMachine.reached openCrypto config ⟨3⟩ (followRun 6)
    sm.vertices.started = true ∧ sm.vertices.currentRound = 2 ∧
      Expected openCrypto validators
        (recordingsIn openCrypto (StateMachine.run openCrypto config ⟨3⟩ (followRun 6))) sm.vertices
        lateProposal ∧
      ¬ NodeCall.votesFor openCrypto
        ⟨sm, .event (.vertexProposalReceived lateProposal), ports 3 0⟩ lateProposal := by
  refine ⟨by decide +kernel, by decide +kernel, late_expected 6 (Or.inr rfl), ?_⟩
  rintro ⟨-, bp, hbp⟩
  have hnone : (StateMachine.exec openCrypto
      (.event (.vertexProposalReceived lateProposal), ports 3 0)
      (StateMachine.reached openCrypto config ⟨3⟩ (followRun 6))).actions = [] := by
    decide +kernel
  rw [show (StateMachine.exec openCrypto _ _).actions = [] from hnone] at hbp
  cases hbp

end Devnet
end LuaDag
