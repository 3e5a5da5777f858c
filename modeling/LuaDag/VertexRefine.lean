import LuaDag.MacroCore
import LuaDag.Simulation

/-! L1 as an abstract protocol: votes, own proposals, rounds and pruning. The
certification handlers refine it; the three mutually recursive ones by induction on
the calls they may still make. -/
namespace LuaDag
open Simulation (Moves.single Moves.step Moves.refl Steady.move Steady.quiet Steady.fail
  Steady.prepend Steady.andThen)

structure VertexCore where
  selfId : ValidatorId
  currentRound : Round
  started : Bool
  voted : Finset (Round × ValidatorId)
  proposalsSeen : Std.TreeMap (Round ×ₗ ValidatorId) (List VertexProposal)
  myProposals : Std.TreeMap Hash32 VertexProposal

def VertexBook.core (b : VertexBook) : VertexCore :=
  ⟨b.selfId, b.currentRound, b.started, b.voted, b.proposalsSeen, b.myProposals⟩

def Action.isCertTraffic : Action → Bool
  | .scheduleTimer _ _ | .cancelTimer _ | .broadcastCertifiedVertex _ => true
  | _ => false

inductive VertexMove (call : NodeCall) :
    VertexCore → List SignReq → List Action → VertexCore → Prop
  | traffic (c : VertexCore) (acts : List Action) (h : ∀ a ∈ acts, a.isCertTraffic = true) :
      VertexMove call c [] acts c
  /-- First proposal of another author at this round. -/
  | see (c : VertexCore) (p : VertexProposal)
      (hev : call.event = some (.vertexProposalReceived p)) :
      VertexMove call c [] [] { c with
        proposalsSeen := c.proposalsSeen.insert (toLex (p.vertex.round, p.vertex.author)) [p] }
  | accuse (c : VertexCore) (p q : VertexProposal) (ev : VertexEquivocation)
      (hev : call.event = some (.vertexProposalReceived p))
      (hself : p.vertex.author ≠ c.selfId)
      (hq : q ∈ c.proposalsSeen[toLex (p.vertex.round, p.vertex.author)]?.getD [])
      (hne : q.vertex.hash ≠ p.vertex.hash) :
      VertexMove call c [] [.emitSlashEvidence p.vertex.author (.vertexEquivocation ev)] c
  /-- Vote for another author's vertex, inside the round window. -/
  | vote (c : VertexCore) (p : VertexProposal) (sig : BlsSig)
      (hev : call.event = some (.vertexProposalReceived p)) (hself : p.vertex.author ≠ c.selfId)
      (hwin : c.currentRound ≤ p.vertex.round + 1)
      (hnew : (p.vertex.round, p.vertex.author) ∉ c.voted) :
      VertexMove call c [(.vertexCert, signingBytes p.vertex)]
        [.broadcastVertexPartial
          ⟨p.vertex.hash, p.vertex.round, p.vertex.author, c.selfId, sig⟩]
        { c with voted := insert (p.vertex.round, p.vertex.author) c.voted }
  /-- Own vertex of a new round: signed as proposal and as vote. -/
  | propose (c : VertexCore) (p : VertexProposal) (acts : List Action)
      (hself : p.vertex.author = c.selfId)
      (hround : c.started = false ∧ p.vertex.round = 0 ∨
        c.started = true ∧ p.vertex.round = c.currentRound + 1)
      (hacts : ∀ a ∈ acts, a.isCertTraffic = true) :
      VertexMove call c
        [(.vertexProposal, signingBytes p.vertex), (.vertexCert, signingBytes p.vertex)]
        (acts ++ [.broadcastVertexProposal p])
        { c with
          started := true
          currentRound := p.vertex.round
          voted := insert (p.vertex.round, c.selfId) c.voted
          proposalsSeen := c.proposalsSeen.insert (toLex (p.vertex.round, c.selfId))
            (c.proposalsSeen[toLex (p.vertex.round, c.selfId)]?.getD [] ++ [p])
          myProposals := c.myProposals.insert p.vertex.hash p }
  /-- The round timer repeats a stored own proposal. -/
  | repeatOwn (c : VertexCore) (h : Hash32) (p : VertexProposal)
      (hp : c.myProposals[h]? = some p) :
      VertexMove call c [] [.broadcastVertexProposal p] c
  | prune (c : VertexCore) :
      VertexMove call c [] [] { c with
        voted := c.voted.filter (c.currentRound - 1 ≤ ·.1)
        proposalsSeen := c.proposalsSeen.filter
          fun k _ => decide (c.currentRound - 1 ≤ (ofLex k).1)
        myProposals := c.myProposals.filter
          fun _ p => decide (c.currentRound - 1 ≤ p.vertex.round) }

abbrev VertexSteady (call : NodeCall) (c : VertexCore) (o : Result VertexBook) : Prop :=
  Simulation.Steady (VertexMove call) VertexBook.core c o

namespace VertexCert
section Refine
variable {cr : Crypto} {call : NodeCall}

theorem steady_traffic (book : VertexBook) {acts : List Action}
    (h : ∀ a ∈ acts, a.isCertTraffic = true) : VertexSteady call book.core (.ok book acts) :=
  Steady.move (VertexMove.traffic book.core acts h)

/- Inbound proposals. -/

theorem checkParentsAndVote_steady (set : ValidatorSet) (p : VertexProposal) (book : VertexBook)
    (hev : call.event = some (.vertexProposalReceived p))
    (hself : p.vertex.author ≠ book.selfId) (hwin : book.currentRound ≤ p.vertex.round + 1) :
    VertexSteady call book.core (checkParentsAndVote set p call.ctx book) := by
  have hvote : VertexSteady call book.core (vote book p call.ctx) := by
    unfold vote
    dsimp only
    split
    · exact Steady.quiet book
    · rename_i hnew
      exact Steady.move (VertexMove.vote book.core p _ hev hself hwin hnew)
  unfold checkParentsAndVote
  split
  · split
    · exact Steady.fail book _
    · split
      · exact hvote
      · exact Steady.quiet book
  · split
    · exact hvote
    · exact Steady.quiet { book with rejectedCrypto := book.rejectedCrypto + 1 }

theorem onVertexProposal_steady (p : VertexProposal) (book : VertexBook)
    (hev : call.event = some (.vertexProposalReceived p)) :
    VertexSteady call book.core (onVertexProposal cr p call.ctx book) := by
  unfold onVertexProposal
  dsimp only
  split
  · exact Steady.fail book _
  split
  · exact Steady.quiet { book with rejectedCrypto := book.rejectedCrypto + 1 }
  split
  · exact Steady.quiet { book with rejectedCrypto := book.rejectedCrypto + 1 }
  split
  · exact Steady.quiet book
  rename_i hself
  split
  · exact Steady.quiet book
  rename_i hwindow
  have hwin : book.currentRound ≤ p.vertex.round + 1 := by
    simp only [roundInWindow, Bool.not_eq_true, Bool.not_eq_false', Bool.and_eq_true,
      decide_eq_true_eq] at hwindow
    exact hwindow.1
  split
  · rename_i first rest hseen
    split
    · rename_i hany
      obtain ⟨q, hq, hne⟩ := List.any_eq_true.mp hany
      refine Steady.move (VertexMove.accuse book.core p q _ hev hself ?_ (by simpa using hne))
      have hget : book.core.proposalsSeen[toLex (p.vertex.round, p.vertex.author)]? =
          some (first :: rest) := hseen
      rw [hget]
      exact hq
    · exact checkParentsAndVote_steady _ p book hev hself hwin
  · exact checkParentsAndVote_steady _ p book hev hself hwin
  · refine Steady.prepend (Moves.single (VertexMove.see book.core p hev)) ?_
    exact checkParentsAndVote_steady _ p
      { book with
        proposalsSeen := book.proposalsSeen.insert
          (toLex (p.vertex.round, p.vertex.author)) [p] } hev hself hwin

/- The recursive handlers. A book can only reach `maybe_advance` once started. -/

def Advances (call : NodeCall) (advance : VertexBook → Result VertexBook) : Prop :=
  ∀ book, VertexSteady call book.core (advance book)

theorem tryFinalizeWith_steady {advance : VertexBook → Result VertexBook}
    (hadv : Advances call advance) (hash : Hash32) (book : VertexBook) :
    VertexSteady call book.core (tryFinalizeWith cr call.ctx advance hash book) := by
  unfold tryFinalizeWith
  split
  · exact Steady.quiet book
  split
  · exact Steady.quiet book
  split
  · exact Steady.fail book _
  split
  · exact Steady.fail book _
  split
  · exact Steady.quiet book
  split
  · exact Steady.quiet book
  split
  · exact Steady.fail book _
  rename_i cv _
  split
  · exact Steady.fail book _
  exact Steady.andThen (steady_traffic
    (recordCert { book with emittedCerts := insert hash book.emittedCerts } cv)
    (by simp [Action.isCertTraffic])) fun _ _ => hadv _

theorem seedProposal_move (book : VertexBook) (cfg : Config) (round : Round)
    (p : VertexProposal) (sig : BlsSig) (hself : p.vertex.author = book.selfId)
    (hpr : p.vertex.round = round) (hst : book.started = true)
    (c : VertexCore) (hc : { c with started := true } = book.core)
    (hround : c.started = false ∧ round = 0 ∨ c.started = true ∧ round = c.currentRound + 1) :
    VertexMove call c
      [(.vertexProposal, signingBytes p.vertex), (.vertexCert, signingBytes p.vertex)]
      ((book.roundTimer.map Action.cancelTimer).toList ++
        [.scheduleTimer book.timers.allocate.1 (roundDelayNanos cfg 0),
          .broadcastVertexProposal p])
      (seedProposal book round p sig).core := by
  have hid : c.selfId = book.selfId := congrArg VertexCore.selfId hc
  have hmove := @VertexMove.propose call c p
    ((book.roundTimer.map Action.cancelTimer).toList ++
      [.scheduleTimer book.timers.allocate.1 (roundDelayNanos cfg 0)])
    (hself.trans hid.symm) (hpr ▸ hround) (by
      intro a ha
      cases List.mem_append.mp ha with
      | inl hl =>
        obtain ⟨id, -, rfl⟩ := Option.map_eq_some_iff.mp (Option.mem_toList.mp hl)
        rfl
      | inr hr =>
        rw [List.mem_singleton.mp hr]
        rfl)
  have hcore : (seedProposal book round p sig).core =
      { c with
        started := true
        currentRound := p.vertex.round
        voted := insert (p.vertex.round, c.selfId) c.voted
        proposalsSeen := c.proposalsSeen.insert (toLex (p.vertex.round, c.selfId))
          (c.proposalsSeen[toLex (p.vertex.round, c.selfId)]?.getD [] ++ [p])
        myProposals := c.myProposals.insert p.vertex.hash p } := by
    have hv : c.voted = book.voted := congrArg VertexCore.voted hc
    have hs : c.proposalsSeen = book.proposalsSeen := congrArg VertexCore.proposalsSeen hc
    have hm : c.myProposals = book.myProposals := congrArg VertexCore.myProposals hc
    rw [hid, hv, hs, hm, hpr]
    simp [seedProposal, VertexBook.core, hst]
  rw [hcore]
  simpa using hmove

theorem proposeRoundWith_steady (cfg : Config) {advance : VertexBook → Result VertexBook}
    (hadv : Advances call advance) (round : Round) (parents : List Hash32) (book : VertexBook)
    (hst : book.started = true) (c : VertexCore) (hc : { c with started := true } = book.core)
    (hround : c.started = false ∧ round = 0 ∨ c.started = true ∧ round = c.currentRound + 1) :
    VertexSteady call c (proposeRoundWith cr cfg call.ctx advance round parents book) := by
  unfold proposeRoundWith
  dsimp only
  refine Steady.andThen ?_ fun _ _ => tryFinalizeWith_steady hadv _ _
  exact Steady.move (seedProposal_move book cfg round
    ⟨ownVertex cr call.ctx book round parents, call.ctx.signBls .vertexProposal
      (signingBytes (ownVertex cr call.ctx book round parents))⟩
    (call.ctx.signBls .vertexCert (signingBytes (ownVertex cr call.ctx book round parents)))
    rfl rfl hst c hc hround)

theorem move_started {c d : VertexCore} {sg : List SignReq} {acts : List Action}
    (h : VertexMove call c sg acts d) (hst : c.started = true) : d.started = true := by
  cases h <;> first | exact hst | rfl

theorem steady_started {c : VertexCore} {o : Result VertexBook} (h : VertexSteady call c o)
    (hst : c.started = true) : o.state.started = true := by
  obtain ⟨acts, hpath, -⟩ := h
  exact hpath.keeps (P := fun d => d.started = true) (fun _ _ _ _ => move_started) hst

theorem maybeAdvanceWith_steady {loop : Nat → VertexBook → Result VertexBook}
    (hloop : ∀ need book, book.started = true → VertexSteady call book.core (loop need book)) :
    Advances call (maybeAdvanceWith call.ctx loop) := by
  intro book
  unfold maybeAdvanceWith
  split
  · exact Steady.quiet book
  rename_i hst
  simp only [Bool.not_eq_true, Bool.not_eq_false'] at hst
  split
  · exact Steady.fail book _
  split
  · exact Steady.fail book _
  refine Steady.andThen (hloop _ book hst) ?_
  intro _ _
  exact Steady.prepend (Moves.single (VertexMove.prune _)) (Steady.quiet (prune _))

theorem advanceLoop_steady (cfg : Config) (fuel : Nat) :
    ∀ need book, book.started = true →
      VertexSteady call book.core (advanceLoop cr cfg call.ctx fuel need book) := by
  induction fuel with
  | zero =>
    intro need book _
    exact Steady.fail book _
  | succ fuel ih =>
    intro need book hst
    unfold advanceLoop
    split
    · exact Steady.quiet book
    split
    · exact Steady.quiet book
    rename_i certs _ _
    have hpropose := @proposeRoundWith_steady cr call cfg _ (maybeAdvanceWith_steady ih)
      (book.currentRound + 1) (certs.values.take need) book hst book.core
      (by simp [VertexBook.core, hst]) (Or.inr ⟨hst, rfl⟩)
    exact Steady.andThen hpropose fun _ _ => ih need _ (steady_started hpropose hst)

theorem maybeAdvance_steady (cfg : Config) : Advances call (maybeAdvance cr cfg call.ctx) :=
  maybeAdvanceWith_steady (advanceLoop_steady cfg call.ctx.fuel)

/- The handlers of the state machine. -/

theorem onVertexPartial_steady (cfg : Config) (bp : VertexPartial) (book : VertexBook) :
    VertexSteady call book.core (onVertexPartial cr cfg call.ctx bp book) := by
  unfold onVertexPartial
  split
  · exact Steady.quiet book
  split
  · exact Steady.quiet book
  dsimp only
  let slot := book.collecting[bp.vertexHash]?.getD ∅
  let opened : VertexBook :=
    { book with collecting := book.collecting.insert bp.vertexHash slot }
  split
  · split
    · exact Steady.quiet { opened with partialConflicts := book.partialConflicts + 1 }
    · exact Steady.quiet opened
  split
  · exact Steady.fail opened _
  split
  · exact Steady.quiet { opened with rejectedCrypto := book.rejectedCrypto + 1 }
  exact tryFinalizeWith_steady (maybeAdvance_steady cfg) bp.vertexHash { opened with
    collecting := opened.collecting.insert bp.vertexHash (slot.insert bp.voter bp.sig) }

theorem genesisPropose_steady (cfg : Config) (book : VertexBook) :
    VertexSteady call book.core (genesisPropose cr cfg call.ctx book) := by
  unfold genesisPropose
  split
  · exact Steady.quiet book
  · rename_i hst
    simp only [Bool.not_eq_true] at hst
    exact proposeRoundWith_steady cfg (maybeAdvance_steady cfg) 0 []
      { book with started := true } rfl book.core rfl (Or.inl ⟨hst, rfl⟩)

theorem onCertifiedVertex_steady (cfg : Config) (cv : CertifiedVertex) (book : VertexBook) :
    VertexSteady call book.core (VertexCert.onCertifiedVertex cr cfg call.ctx cv book) :=
  maybeAdvance_steady cfg (recordCert book cv)

theorem onTimerFired_steady (cfg : Config) (id : TimerId) (book : VertexBook) :
    VertexSteady call book.core (VertexCert.onTimerFired cfg call.ctx id book) := by
  unfold VertexCert.onTimerFired
  split
  · exact Steady.quiet book
  dsimp only
  let cleared : VertexBook := { book with roundTimer := none }
  split
  · exact Steady.fail cleared _
  split
  · exact Steady.fail cleared _
  split
  · exact Steady.quiet cleared
  generalize hf : book.myProposals.toList.find? (·.2.vertex.round = book.currentRound) = found
  cases found with
  | none => exact steady_traffic _ (by simp [Action.isCertTraffic])
  | some e =>
    have hmine := (Maps.find_spec book.myProposals _ e.1 e.2 hf).1
    refine ⟨_, Moves.step (Moves.single (VertexMove.repeatOwn book.core e.1 e.2 hmine))
      (VertexMove.traffic _ [.scheduleTimer book.timers.allocate.1
        (roundDelayNanos cfg (min (book.timerRetries + 1) 8))]
        (by simp [Action.isCertTraffic])), ?_⟩
    intro as has
    cases has
    rfl

end Refine
end VertexCert
end LuaDag
