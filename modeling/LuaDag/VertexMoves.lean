import LuaDag.Layers
import LuaDag.NodeRun

/-! L1, write by write: every write an L1 handler makes on the vertex book, with the checks
that come before it. Handlers are sequences of such writes, and what all writes keep is
kept in every run. -/
namespace LuaDag
open Simulation (Moves.single Moves.step Moves.refl Steady.move Steady.quiet Steady.fail
  Steady.prepend Steady.andThen Steady.path)
open VertexCert

/- What a write relies on. -/

/-- A proposal of another member that is not rejected: content hash, proposer signature,
author and round. -/
structure Admissible (cr : Crypto) (set : ValidatorSet) (b : VertexBook) (p : VertexProposal) :
    Prop where
  hash : p.vertex.hash = contentHash cr p.vertex
  signed : verifyProposal cr set p = true
  foreign : p.vertex.author ≠ b.selfId
  window : b.currentRound ≤ p.vertex.round + 1 ∧ p.vertex.round ≤ b.currentRound + 1

def ParentsPass (set : ValidatorSet) (b : VertexBook) (v : Vertex) : Prop :=
  v.round = 0 ∧ v.parents = [] ∨
    0 < v.round ∧ ∃ need, quorumNeed set = .ok need ∧
      parentsKnown b v.round need v.parents = true

/-- The current round holds a quorum of certificates. -/
structure Ready (set : ValidatorSet) (b : VertexBook) (need : Nat)
    (certs : Std.TreeMap ValidatorId Hash32) : Prop where
  threshold : quorumNeed set = .ok need
  held : b.certifiedByRound[b.currentRound]? = some certs
  quorum : need ≤ certs.size

def ownProposal (cr : Crypto) (ctx : HostContext) (b : VertexBook) (round : Round)
    (parents : List Hash32) : VertexProposal :=
  let v := ownVertex cr ctx b round parents
  ⟨v, ctx.signBls .vertexProposal (signingBytes v)⟩

def seeded (cr : Crypto) (ctx : HostContext) (b : VertexBook) (round : Round)
    (parents : List Hash32) : VertexBook :=
  seedProposal b round (ownProposal cr ctx b round parents)
    (ctx.signBls .vertexCert (signingBytes (ownVertex cr ctx b round parents)))

def ownRequests (cr : Crypto) (ctx : HostContext) (b : VertexBook) (round : Round)
    (parents : List Hash32) : List SignReq :=
  let msg := signingBytes (ownVertex cr ctx b round parents)
  [(.vertexProposal, msg), (.vertexCert, msg)]

def ownActions (cr : Crypto) (cfg : Config) (ctx : HostContext) (b : VertexBook) (round : Round)
    (parents : List Hash32) : List Action :=
  (b.roundTimer.map Action.cancelTimer).toList ++
    [.scheduleTimer b.timers.allocate.1 (roundDelayNanos cfg 0),
      .broadcastVertexProposal (ownProposal cr ctx b round parents)]

inductive BookMove (cr : Crypto) (call : NodeCall) :
    VertexBook → List SignReq → List Action → VertexBook → Prop
  | count (b : VertexBook) (rejected conflicts : Nat) :
      BookMove cr call b [] []
        { b with rejectedCrypto := rejected, partialConflicts := conflicts }
  | accuse (b : VertexBook) (offender : ValidatorId) (ev : VertexEquivocation) :
      BookMove cr call b [] [.emitSlashEvidence offender (.vertexEquivocation ev)] b
  | see (b : VertexBook) (set : ValidatorSet) (p : VertexProposal)
      (hev : call.event = some (.vertexProposalReceived p)) (hset : activeSet call.ctx = .ok set)
      (hok : Admissible cr set b p)
      (hnew : b.proposalsSeen[toLex (p.vertex.round, p.vertex.author)]? = none) :
      BookMove cr call b [] [] { b with
        proposalsSeen := b.proposalsSeen.insert (toLex (p.vertex.round, p.vertex.author)) [p] }
  | vote (b : VertexBook) (set : ValidatorSet) (p : VertexProposal)
      (hev : call.event = some (.vertexProposalReceived p)) (hset : activeSet call.ctx = .ok set)
      (hok : Admissible cr set b p) (hpass : ParentsPass set b p.vertex)
      (hseen : ∃ ps, b.proposalsSeen[toLex (p.vertex.round, p.vertex.author)]? = some ps ∧
        ∀ q ∈ ps, q.vertex.hash = p.vertex.hash)
      (hnew : (p.vertex.round, p.vertex.author) ∉ b.voted) :
      BookMove cr call b [(.vertexCert, signingBytes p.vertex)]
        [.broadcastVertexPartial ⟨p.vertex.hash, p.vertex.round, p.vertex.author, b.selfId,
          call.ctx.signBls .vertexCert (signingBytes p.vertex)⟩]
        { b with voted := insert (p.vertex.round, p.vertex.author) b.voted }
  /-- The slot of an own vertex is opened by the first message that looks for it. -/
  | openSlot (b : VertexBook) (h : Hash32) (p : VertexProposal)
      (hmine : b.myProposals[h]? = some p) :
      BookMove cr call b [] [] { b with
        collecting := b.collecting.insert h (b.collecting[h]?.getD ∅) }
  | collect (b : VertexBook) (set : ValidatorSet) (bp : VertexPartial) (p : VertexProposal)
      (hev : call.event = some (.vertexPartialReceived bp)) (hset : activeSet call.ctx = .ok set)
      (hother : bp.voter ≠ b.selfId) (hmine : b.myProposals[bp.vertexHash]? = some p)
      (hnew : (b.collecting[bp.vertexHash]?.getD ∅)[bp.voter]? = none)
      (hok : verifyPartial cr set bp p.vertex = true) :
      BookMove cr call b [] [] { b with
        collecting := b.collecting.insert bp.vertexHash
          ((b.collecting[bp.vertexHash]?.getD ∅).insert bp.voter bp.sig) }
  | certify (b : VertexBook) (set : ValidatorSet) (need : Nat) (h : Hash32) (p : VertexProposal)
      (sigs : Std.TreeMap ValidatorId BlsSig) (cv : CertifiedVertex)
      (hset : activeSet call.ctx = .ok set) (hneed : quorumNeed set = .ok need)
      (hnew : h ∉ b.emittedCerts) (hmine : b.myProposals[h]? = some p)
      (hsigs : b.collecting[h]? = some sigs) (hquorum : need ≤ sigs.size)
      (hcv : assembleCert cr p.vertex set (contributors set sigs) = .ok cv)
      (hok : verifyCertifiedVertex cr cv set = .ok ()) :
      BookMove cr call b [] [.broadcastCertifiedVertex cv]
        (recordCert { b with emittedCerts := insert h b.emittedCerts } cv)
  | record (b : VertexBook) (cv : CertifiedVertex)
      (hev : call.event = some (.certifiedVertexReceived cv)) :
      BookMove cr call b [] [] (recordCert b cv)
  | genesis (b : VertexBook) (hst : b.started = false) :
      BookMove cr call b (ownRequests cr call.ctx b 0 [])
        (ownActions cr call.pre.cfg call.ctx b 0 [])
        (seeded cr call.ctx { b with started := true } 0 [])
  | propose (b : VertexBook) (set : ValidatorSet) (need : Nat)
      (certs : Std.TreeMap ValidatorId Hash32) (hst : b.started = true)
      (hset : activeSet call.ctx = .ok set) (hready : Ready set b need certs) :
      BookMove cr call b
        (ownRequests cr call.ctx b (b.currentRound + 1) (certs.values.take need))
        (ownActions cr call.pre.cfg call.ctx b (b.currentRound + 1) (certs.values.take need))
        (seeded cr call.ctx b (b.currentRound + 1) (certs.values.take need))
  | prune (b : VertexBook) (hst : b.started = true) : BookMove cr call b [] [] (prune b)
  | disarm (b : VertexBook) (id : TimerId) (hev : call.event = some (.timerFired id))
      (hid : b.roundTimer = some id) :
      BookMove cr call b [] [] { b with roundTimer := none }
  /-- The current proposal is sent again and the timer is armed anew. -/
  | rearm (b : VertexBook) (id : TimerId) (hev : call.event = some (.timerFired id))
      (stalled retries : Nat) (delay : Nat) (again : Option VertexProposal)
      (hagain : again = (b.myProposals.toList.find?
        (·.2.vertex.round = b.currentRound)).map (·.2)) :
      BookMove cr call b []
        ((again.map Action.broadcastVertexProposal).toList ++
          [.scheduleTimer b.timers.allocate.1 delay])
        { b with
          roundsStalled := stalled
          timerRetries := retries
          timers := b.timers.allocate.2
          roundTimer := some b.timers.allocate.1 }

abbrev BookSteady (cr : Crypto) (call : NodeCall) (b : VertexBook) (o : Result VertexBook) : Prop :=
  Simulation.Steady (BookMove cr call) (fun b => b) b o

/- The handlers. -/
namespace VertexCert
section Writes
variable {cr : Crypto} {call : NodeCall}

theorem count_steady {b d : VertexBook} (h : ∃ rejected conflicts,
    d = { b with rejectedCrypto := rejected, partialConflicts := conflicts }) :
    BookSteady cr call b (.quiet d) := by
  obtain ⟨rejected, conflicts, rfl⟩ := h
  exact Steady.move (BookMove.count b rejected conflicts)

theorem vote_moves {set : ValidatorSet} {p : VertexProposal} {book : VertexBook}
    (hev : call.event = some (.vertexProposalReceived p)) (hset : activeSet call.ctx = .ok set)
    (hok : Admissible cr set book p) (hpass : ParentsPass set book p.vertex)
    (hseen : ∃ ps, book.proposalsSeen[toLex (p.vertex.round, p.vertex.author)]? = some ps ∧
      ∀ q ∈ ps, q.vertex.hash = p.vertex.hash) :
    BookSteady cr call book (vote book p call.ctx) := by
  unfold vote
  dsimp only
  split
  · exact Steady.quiet book
  · rename_i hnew
    exact Steady.move (BookMove.vote book set p hev hset hok hpass hseen hnew)

theorem checkParentsAndVote_moves {set : ValidatorSet} {p : VertexProposal} {book : VertexBook}
    (hev : call.event = some (.vertexProposalReceived p)) (hset : activeSet call.ctx = .ok set)
    (hok : Admissible cr set book p)
    (hseen : ∃ ps, book.proposalsSeen[toLex (p.vertex.round, p.vertex.author)]? = some ps ∧
      ∀ q ∈ ps, q.vertex.hash = p.vertex.hash) :
    BookSteady cr call book (checkParentsAndVote set p call.ctx book) := by
  unfold checkParentsAndVote
  split
  · rename_i hround
    split
    · exact Steady.fail book _
    · rename_i need hneed
      split
      · rename_i hknown
        exact vote_moves hev hset hok (Or.inr ⟨hround, need, hneed, hknown⟩) hseen
      · exact Steady.quiet book
  · rename_i hround
    split
    · rename_i hempty
      exact vote_moves hev hset hok
        (Or.inl ⟨Nat.eq_zero_of_not_pos hround, List.isEmpty_iff.mp hempty⟩) hseen
    · exact count_steady ⟨_, book.partialConflicts, rfl⟩

theorem onVertexProposal_moves (p : VertexProposal) (book : VertexBook)
    (hev : call.event = some (.vertexProposalReceived p)) :
    BookSteady cr call book (onVertexProposal cr p call.ctx book) := by
  unfold onVertexProposal
  dsimp only
  split
  · exact Steady.fail book _
  rename_i set hset
  split
  · exact count_steady ⟨_, book.partialConflicts, rfl⟩
  rename_i hhash
  split
  · exact count_steady ⟨_, book.partialConflicts, rfl⟩
  rename_i hsigned
  split
  · exact Steady.quiet book
  rename_i hself
  split
  · exact Steady.quiet book
  rename_i hwindow
  have hok : Admissible cr set book p := by
    refine ⟨not_not.mp hhash, by simpa using hsigned, hself, ?_⟩
    simpa [roundInWindow] using hwindow
  split
  · rename_i first rest hseen
    split
    · exact Steady.move (BookMove.accuse book _ _)
    · rename_i hsame
      refine checkParentsAndVote_moves hev hset hok ⟨_, hseen, ?_⟩
      simpa using hsame
  · rename_i hseen
    exact checkParentsAndVote_moves hev hset hok ⟨_, hseen, by simp⟩
  · rename_i hnew
    refine Steady.prepend (Moves.single (BookMove.see book set p hev hset hok hnew)) ?_
    exact checkParentsAndVote_moves hev hset ⟨hok.hash, hok.signed, hok.foreign, hok.window⟩
      ⟨[p], by simp, by simp⟩

def Writes (cr : Crypto) (call : NodeCall) (advance : VertexBook → Result VertexBook) : Prop :=
  ∀ book, BookSteady cr call book (advance book)

theorem tryFinalizeWith_moves {advance : VertexBook → Result VertexBook}
    (hadv : Writes cr call advance) (hash : Hash32) (book : VertexBook) :
    BookSteady cr call book (tryFinalizeWith cr call.ctx advance hash book) := by
  unfold tryFinalizeWith
  split
  · exact Steady.quiet book
  rename_i hnew
  split
  · exact Steady.quiet book
  rename_i p hmine
  split
  · exact Steady.fail book _
  rename_i set hset
  split
  · exact Steady.fail book _
  rename_i need hneed
  split
  · exact Steady.quiet book
  rename_i sigs hsigs
  split
  · exact Steady.quiet book
  rename_i hsize
  split
  · exact Steady.fail book _
  rename_i cv hcv
  split
  · exact Steady.fail book _
  rename_i hver
  exact Steady.andThen (Steady.move (BookMove.certify book set need hash p sigs cv hset hneed hnew
    hmine hsigs (Nat.le_of_not_lt hsize) hcv hver)) fun _ _ => hadv _

theorem proposeRoundWith_moves {advance : VertexBook → Result VertexBook}
    (hadv : Writes cr call advance) {round : Round} {parents : List Hash32} {b book : VertexBook}
    (hmove : BookMove cr call b (ownRequests cr call.ctx book round parents)
      (ownActions cr call.pre.cfg call.ctx book round parents)
      (seeded cr call.ctx book round parents)) :
    BookSteady cr call b
      (proposeRoundWith cr call.pre.cfg call.ctx advance round parents book) := by
  unfold proposeRoundWith
  dsimp only
  exact Steady.andThen (Steady.move hmove) fun _ _ => tryFinalizeWith_moves hadv _ _

theorem maybeAdvanceWith_moves {loop : Nat → VertexBook → Result VertexBook}
    (hloop : ∀ set need book, activeSet call.ctx = .ok set → quorumNeed set = .ok need →
      book.started = true →
      BookSteady cr call book (loop need book) ∧ (loop need book).state.started = true) :
    Writes cr call (maybeAdvanceWith call.ctx loop) := by
  intro book
  unfold maybeAdvanceWith
  split
  · exact Steady.quiet book
  rename_i hst
  simp only [Bool.not_eq_true, Bool.not_eq_false'] at hst
  split
  · exact Steady.fail book _
  rename_i set hset
  split
  · exact Steady.fail book _
  rename_i need hneed
  obtain ⟨hsteady, hstarted⟩ := hloop set need book hset hneed hst
  refine Steady.andThen hsteady ?_
  intro _ _
  exact Steady.prepend (Moves.single (BookMove.prune _ hstarted)) (Steady.quiet (prune _))

theorem bookMove_started {b d : VertexBook} {sg : List SignReq} {acts : List Action}
    (h : BookMove cr call b sg acts d) (hst : b.started = true) : d.started = true := by
  cases h <;> first | exact hst | rfl

theorem bookSteady_started {b : VertexBook} {o : Result VertexBook} (h : BookSteady cr call b o)
    (hst : b.started = true) : o.state.started = true := by
  obtain ⟨acts, hpath, -⟩ := h
  exact hpath.keeps (P := fun d => d.started = true) (fun _ _ _ _ => bookMove_started) hst

theorem advanceLoop_moves (fuel : Nat) : ∀ set need book, activeSet call.ctx = .ok set →
    quorumNeed set = .ok need → book.started = true →
    BookSteady cr call book (advanceLoop cr call.pre.cfg call.ctx fuel need book) ∧
      (advanceLoop cr call.pre.cfg call.ctx fuel need book).state.started = true := by
  induction fuel with
  | zero =>
    intro set need book _ _ hst
    exact ⟨Steady.fail book _, hst⟩
  | succ fuel ih =>
    intro set need book hset hneed hst
    have hsteady : BookSteady cr call book
        (advanceLoop cr call.pre.cfg call.ctx (fuel + 1) need book) := by
      unfold advanceLoop
      split
      · exact Steady.quiet book
      rename_i certs hcerts
      split
      · exact Steady.quiet book
      rename_i hsize
      have hpropose := @proposeRoundWith_moves cr call _ (maybeAdvanceWith_moves ih)
        (book.currentRound + 1) (certs.values.take need) book book
        (BookMove.propose book set need certs hst hset ⟨hneed, hcerts, Nat.le_of_not_lt hsize⟩)
      exact Steady.andThen hpropose fun _ _ =>
        (ih set need _ hset hneed (bookSteady_started hpropose hst)).1
    exact ⟨hsteady, bookSteady_started hsteady hst⟩

theorem maybeAdvance_moves : Writes cr call (maybeAdvance cr call.pre.cfg call.ctx) :=
  maybeAdvanceWith_moves (advanceLoop_moves call.ctx.fuel)

theorem onVertexPartial_moves (bp : VertexPartial) (book : VertexBook)
    (hev : call.event = some (.vertexPartialReceived bp)) :
    BookSteady cr call book (onVertexPartial cr call.pre.cfg call.ctx bp book) := by
  unfold onVertexPartial
  split
  · exact Steady.quiet book
  rename_i hwho
  split
  · exact Steady.quiet book
  rename_i p hmine
  dsimp only
  let opened : VertexBook := { book with
    collecting := book.collecting.insert bp.vertexHash (book.collecting[bp.vertexHash]?.getD ∅) }
  have hopen : Simulation.Moves (BookMove cr call) book [] [] opened :=
    Moves.single (BookMove.openSlot book bp.vertexHash p hmine)
  have hslot : opened.collecting[bp.vertexHash]?.getD ∅ =
      book.collecting[bp.vertexHash]?.getD ∅ := by
    simp [opened]
  refine Steady.prepend hopen ?_
  split
  · split
    · exact count_steady ⟨book.rejectedCrypto, _, rfl⟩
    · exact Steady.quiet opened
  rename_i hnew
  split
  · exact Steady.fail opened _
  rename_i set hset
  split
  · exact count_steady ⟨_, book.partialConflicts, rfl⟩
  rename_i hver
  have hcollect := @BookMove.collect cr call opened set bp p hev hset
    (fun heq => hwho (Or.inr heq)) hmine (by rw [hslot]; exact hnew) (by simpa using hver)
  rw [hslot] at hcollect
  exact Steady.prepend (Moves.single hcollect)
    (tryFinalizeWith_moves maybeAdvance_moves bp.vertexHash _)

theorem genesisPropose_moves (book : VertexBook) :
    BookSteady cr call book (genesisPropose cr call.pre.cfg call.ctx book) := by
  unfold genesisPropose
  split
  · exact Steady.quiet book
  · rename_i hst
    exact proposeRoundWith_moves maybeAdvance_moves
      (BookMove.genesis book (by simpa using hst))

theorem onCertifiedVertex_moves (cv : CertifiedVertex) (book : VertexBook)
    (hev : call.event = some (.certifiedVertexReceived cv)) :
    BookSteady cr call book (VertexCert.onCertifiedVertex cr call.pre.cfg call.ctx cv book) :=
  Steady.prepend (Moves.single (BookMove.record book cv hev)) (maybeAdvance_moves _)

theorem onTimerFired_moves (id : TimerId) (book : VertexBook)
    (hev : call.event = some (.timerFired id)) :
    BookSteady cr call book (VertexCert.onTimerFired call.pre.cfg call.ctx id book) := by
  unfold VertexCert.onTimerFired
  split
  · exact Steady.quiet book
  rename_i hid
  refine Steady.prepend (Moves.single (BookMove.disarm book id hev (not_not.mp hid))) ?_
  dsimp only
  let cleared : VertexBook := { book with roundTimer := none }
  split
  · exact Steady.fail cleared _
  split
  · exact Steady.fail cleared _
  split
  · exact Steady.quiet cleared
  have hrearm := @BookMove.rearm cr call cleared id hev (book.roundsStalled + 1)
    (min (book.timerRetries + 1) 8)
    (roundDelayNanos call.pre.cfg (min (book.timerRetries + 1) 8)) _ rfl
  rw [Option.map_map] at hrearm
  exact Steady.move hrearm

end Writes
end VertexCert

/- L1 in a call of the node. -/

def upperLayers (cr : Crypto) (sm : StateMachine) (ctx : HostContext) (id : TimerId) :
    Result StateMachine :=
  (sm.onWaves (Bullshark.onTimerFired cr sm.cfg id ctx)).andThen fun sm =>
    sm.onMacros (MacroFin.onTimerFired cr sm.cfg ctx id)

def NodeCall.vertexOutcome (cr : Crypto) (call : NodeCall) : Result VertexBook :=
  let book := call.pre.vertices
  match call.input.1 with
  | .genesis => VertexCert.genesisPropose cr call.pre.cfg call.ctx book
  | .event (.certifiedVertexReceived cv) =>
    VertexCert.onCertifiedVertex cr call.pre.cfg call.ctx cv book
  | .event (.vertexProposalReceived p) => VertexCert.onVertexProposal cr p call.ctx book
  | .event (.vertexPartialReceived bp) =>
    VertexCert.onVertexPartial cr call.pre.cfg call.ctx bp book
  | .event (.timerFired id) =>
    match (upperLayers cr call.pre call.ctx id).result with
    | .error _ => .quiet book
    | .ok _ => VertexCert.onTimerFired call.pre.cfg call.ctx id book
  | _ => .quiet book

theorem vertexOutcome_moves (cr : Crypto) (call : NodeCall) :
    BookSteady cr call call.pre.vertices (call.vertexOutcome cr) := by
  obtain ⟨sm, req, ctx⟩ := call
  cases req with
  | genesis => exact VertexCert.genesisPropose_moves sm.vertices
  | event e =>
    cases e with
    | certifiedVertexReceived cv => exact VertexCert.onCertifiedVertex_moves cv sm.vertices rfl
    | vertexProposalReceived p => exact VertexCert.onVertexProposal_moves p sm.vertices rfl
    | vertexPartialReceived bp => exact VertexCert.onVertexPartial_moves bp sm.vertices rfl
    | timerFired id =>
      simp only [NodeCall.vertexOutcome]
      split
      · exact Steady.quiet sm.vertices
      · exact @VertexCert.onTimerFired_moves cr ⟨sm, .event (.timerFired id), ctx⟩ id
          sm.vertices rfl
    | _ => exact Steady.quiet sm.vertices

def Action.isCertNews : Action → Bool
  | .broadcastVertexProposal _ | .broadcastVertexPartial _ | .broadcastCertifiedVertex _ => true
  | _ => false

theorem certNews_waves {o : Result Bullshark.WaveBook} (h : WaveSteady o) {acts : List Action}
    (hacts : o.result = .ok acts) : acts.filter Action.isCertNews = [] := by
  have hkind := (wave_spec h).2
  simp only [Outcome.actions, hacts] at hkind
  rw [List.filter_eq_nil_iff]
  intro a ha
  have := hkind a ha
  cases a <;> simp_all [Action.isWave, Action.isCertNews]

theorem certNews_macros {cr : Crypto} {call : NodeCall} {c : MacroCore} {o : Result MacroBook}
    (h : Handled cr call c o) {acts : List Action} (hacts : o.result = .ok acts) :
    acts.filter Action.isCertNews = [] := by
  have hkind := (handled_kind h).2
  simp only [Outcome.actions, hacts] at hkind
  rw [List.filter_eq_nil_iff]
  intro a ha
  have := hkind a ha
  cases a <;> simp_all [Action.isMacroKind, Action.isCertNews]

/-- What the node makes of its L1 outcome: the book is the one L1 leaves, and a call that
returns sends what L1 sends. -/
structure FromVertices (v : Result VertexBook) (o : Result StateMachine) : Prop where
  book : o.state.vertices = v.state
  news : ∀ acts, o.result = .ok acts → ∃ vacts, v.result = .ok vacts ∧
    acts.filter Action.isCertNews = vacts.filter Action.isCertNews

theorem fromVertices_own {f : VertexBook → Result VertexBook} (sm : StateMachine) :
    FromVertices (f sm.vertices) (sm.onVertices f) :=
  ⟨rfl, fun acts hacts => ⟨acts, hacts, rfl⟩⟩

theorem fromVertices_quiet {o : Result StateMachine} {b : VertexBook} (hb : o.state.vertices = b)
    (hnews : ∀ acts, o.result = .ok acts → acts.filter Action.isCertNews = []) :
    FromVertices (.quiet b) o :=
  ⟨hb, fun acts hacts => ⟨[], rfl, by simpa using hnews acts hacts⟩⟩

theorem FromVertices.bind {v : Result VertexBook} {o : Result StateMachine}
    {k : List Action → StateMachine → Result StateMachine} (h : FromVertices v o)
    (hbook : ∀ acts, o.result = .ok acts →
      (k acts o.state).state.vertices = o.state.vertices)
    (hnews : ∀ acts acts', o.result = .ok acts → (k acts o.state).result = .ok acts' →
      acts'.filter Action.isCertNews = []) : FromVertices v (o.bind k) := by
  cases hr : o.result with
  | error e => rwa [Outcome.bind_of_error hr]
  | ok acts =>
    rw [Outcome.bind_of_ok hr]
    refine ⟨(hbook acts hr).trans h.book, ?_⟩
    intro bs hbs
    cases hk : (k acts o.state).result with
    | error e => simp [hk, Except.map] at hbs
    | ok acts' =>
      simp only [hk, Except.map, Except.ok.injEq] at hbs
      obtain ⟨vacts, hv, hsame⟩ := h.news acts hr
      refine ⟨vacts, hv, ?_⟩
      rw [← hbs, List.filter_append, hnews acts acts' hr hk, List.append_nil, hsame]

theorem FromVertices.andThen {v : Result VertexBook} {o : Result StateMachine}
    {k : StateMachine → Result StateMachine} (h : FromVertices v o)
    (hbook : (k o.state).state.vertices = o.state.vertices)
    (hnews : ∀ acts, (k o.state).result = .ok acts → acts.filter Action.isCertNews = []) :
    FromVertices v (o.andThen k) :=
  h.bind (fun _ _ => hbook) fun _ acts _ hacts => hnews acts hacts

theorem fromVertices_certified (cr : Crypto) (call : NodeCall) (cv : CertifiedVertex)
    (hev : call.event = some (.certifiedVertexReceived cv)) :
    FromVertices (VertexCert.onCertifiedVertex cr call.pre.cfg call.ctx cv call.pre.vertices)
      (call.pre.onCertifiedVertex cr call.ctx cv) := by
  have hlower : FromVertices
      (VertexCert.onCertifiedVertex cr call.pre.cfg call.ctx cv call.pre.vertices)
      (lowerLayers cr call cv) := by
    unfold lowerLayers
    refine (fromVertices_own call.pre).andThen rfl ?_
    intro acts hacts
    exact certNews_waves (Bullshark.onCertifiedVertex_steady cr _ cv call.ctx _) hacts
  refine FromVertices.bind hlower (fun _ _ => rfl) ?_
  intro acts acts' hacts hacts'
  exact certNews_macros (Or.inl (localMicroQcs_steady cv hev acts hacts)) hacts'

theorem upperLayers_cfg (cr : Crypto) (sm : StateMachine) (ctx : HostContext) (id : TimerId) :
    (upperLayers cr sm ctx id).state.cfg = sm.cfg := by
  unfold upperLayers
  cases hr : (sm.onWaves (Bullshark.onTimerFired cr sm.cfg id ctx)).result with
  | error e =>
    rw [Outcome.andThen_of_error hr]
    rfl
  | ok acts =>
    rw [Outcome.andThen_of_ok hr]
    rfl

theorem fromVertices_upper (cr : Crypto) (sm : StateMachine) (ctx : HostContext) (id : TimerId) :
    FromVertices (.quiet sm.vertices) (upperLayers cr sm ctx id) := by
  unfold upperLayers
  refine FromVertices.andThen (fromVertices_quiet rfl ?_) rfl ?_
  · intro acts hacts
    exact certNews_waves (Bullshark.onTimerFired_steady cr sm.cfg id ctx sm.waves) hacts
  · intro acts hacts
    exact @certNews_macros cr ⟨sm, .event (.timerFired id), ctx⟩ _ _
      (Or.inl (onTimerFired_steady _ id _)) acts hacts

theorem fromVertices_timer (cr : Crypto) (sm : StateMachine) (ctx : HostContext) (id : TimerId) :
    FromVertices (NodeCall.vertexOutcome cr ⟨sm, .event (.timerFired id), ctx⟩)
      (sm.onTimerFired cr ctx id) := by
  have hupper := fromVertices_upper cr sm ctx id
  have hcfg := upperLayers_cfg cr sm ctx id
  change FromVertices (match (upperLayers cr sm ctx id).result with
    | .error _ => .quiet sm.vertices
    | .ok _ => VertexCert.onTimerFired sm.cfg ctx id sm.vertices)
    ((upperLayers cr sm ctx id).andThen fun sm => sm.onVertices _)
  cases hr : (upperLayers cr sm ctx id).result with
  | error e => rwa [Outcome.andThen_of_error hr]
  | ok acts =>
    have hbook : (upperLayers cr sm ctx id).state.vertices = sm.vertices := hupper.book
    rw [Outcome.andThen_of_ok hr, hcfg, ← hbook]
    obtain ⟨vacts, hv, hsame⟩ := hupper.news acts hr
    cases hv
    refine ⟨rfl, ?_⟩
    intro bs hbs
    cases hk : (VertexCert.onTimerFired sm.cfg ctx id
        (upperLayers cr sm ctx id).state.vertices).result with
    | error e => simp [StateMachine.onVertices, Outcome.lift, hk, Except.map] at hbs
    | ok own =>
      simp only [StateMachine.onVertices, Outcome.lift, hk, Except.map, Except.ok.injEq] at hbs
      refine ⟨own, rfl, ?_⟩
      rw [← hbs, List.filter_append, hsame]
      rfl

/-- One call of the node, from what L1 does in it. -/
theorem exec_fromVertices (cr : Crypto) (call : NodeCall) :
    FromVertices (call.vertexOutcome cr) (StateMachine.exec cr call.input call.pre) := by
  obtain ⟨sm, req, ctx⟩ := call
  have hmacros : ∀ e f, Handled cr ⟨sm, .event e, ctx⟩ sm.macros.core (f sm.macros) →
      FromVertices (.quiet sm.vertices) (sm.onMacros f) := by
    intro e f hf
    exact fromVertices_quiet rfl fun acts hacts => certNews_macros hf hacts
  cases req with
  | genesis => exact @fromVertices_own (VertexCert.genesisPropose cr sm.cfg ctx) sm
  | event e =>
    cases e with
    | certifiedVertexReceived cv =>
      exact fromVertices_certified cr ⟨sm, .event (.certifiedVertexReceived cv), ctx⟩ cv rfl
    | vertexProposalReceived p =>
      exact @fromVertices_own (VertexCert.onVertexProposal cr p ctx) sm
    | vertexPartialReceived bp =>
      exact @fromVertices_own (VertexCert.onVertexPartial cr sm.cfg ctx bp) sm
    | timerFired id => exact fromVertices_timer cr sm ctx id
    | macroProposalReceived p => exact hmacros _ _ (Or.inl (onMacroProposal_steady p rfl))
    | blsPartialReceived bp => exact hmacros _ _ (onBlsPartial_handled _ bp _ rfl rfl)
    | subnetAggregateReceived a => exact hmacros _ _ (onSubnetAggregate_handled _ a _ rfl rfl)
    | macroQcReceived qc => exact hmacros _ _ (onMacroQcReceived_handled _ qc _ rfl rfl)
    | microQcAssembled qc =>
      exact fromVertices_quiet rfl fun acts hacts =>
        certNews_waves (Bullshark.steady_wave_quiet sm.waves) hacts
    | validatorSetUpdated epoch set => exact fromVertices_quiet rfl (by simp [StateMachine.exec,
        StateMachine.step])
    | slashEvidenceFound ev => exact fromVertices_quiet rfl (by simp [StateMachine.exec,
        StateMachine.step])

/- Runs. -/

def vertexActions (cr : Crypto) (calls : List NodeCall) : List Action :=
  calls.flatMap fun c => (c.vertexOutcome cr).actions

@[simp] theorem vertexActions_append (cr : Crypto) (cs ds : List NodeCall) :
    vertexActions cr (cs ++ ds) = vertexActions cr cs ++ vertexActions cr ds := by
  simp [vertexActions]

@[simp] theorem vertexActions_singleton (cr : Crypto) (c : NodeCall) :
    vertexActions cr [c] = (c.vertexOutcome cr).actions := by
  simp [vertexActions]

/-- An invariant over the calls so far and the vertex book. -/
theorem book_run (cr : Crypto) (Good : NodeCall → Prop)
    (Inv : List NodeCall → VertexBook → Prop) (cfg : Config) (self : ValidatorId)
    (hinit : Inv [] (VertexBook.new self))
    (hstep : ∀ hist call, Inv hist call.pre.vertices → Good call →
      Inv (hist ++ [call]) (call.vertexOutcome cr).state)
    (is : List StateMachine.Input) (hgood : ∀ call ∈ StateMachine.run cr cfg self is, Good call) :
    Inv (StateMachine.run cr cfg self is) (StateMachine.reached cr cfg self is).vertices := by
  refine Trace.invariant (StateMachine.exec cr) Good (fun hist sm => Inv hist sm.vertices)
    (StateMachine.new cfg self) hinit ?_ is hgood
  intro hist sm i hinv hg
  rw [(exec_fromVertices cr ⟨sm, i⟩).book]
  exact hstep hist ⟨sm, i⟩ hinv hg

/-- The first call of a node that is bootstrapped before anything else. -/
def bootCall (cfg : Config) (self : ValidatorId) (boot : HostContext) : NodeCall :=
  ⟨StateMachine.new cfg self, .genesis, boot⟩

/-- The same for a run that starts with the bootstrap. -/
theorem booted_run (cr : Crypto) (Good : NodeCall → Prop)
    (Inv : List NodeCall → VertexBook → Prop) (cfg : Config) (self : ValidatorId)
    (boot : HostContext)
    (hinit : Inv [bootCall cfg self boot] ((bootCall cfg self boot).vertexOutcome cr).state)
    (hstep : ∀ hist call, Inv hist call.pre.vertices → Good call →
      Inv (hist ++ [call]) (call.vertexOutcome cr).state)
    (is : List StateMachine.Input)
    (hgood : ∀ call ∈ StateMachine.run cr cfg self ((.genesis, boot) :: is), Good call) :
    Inv (StateMachine.run cr cfg self ((.genesis, boot) :: is))
      (StateMachine.reached cr cfg self ((.genesis, boot) :: is)).vertices := by
  have hbook := (exec_fromVertices cr (bootCall cfg self boot)).book
  refine Trace.invariant (StateMachine.exec cr) Good
    (fun hist sm => Inv (bootCall cfg self boot :: hist) sm.vertices)
    (StateMachine.exec cr (.genesis, boot) (StateMachine.new cfg self)).state
    (hbook.symm ▸ hinit) ?_ is (fun call hcall => hgood call (List.mem_cons_of_mem _ hcall))
  intro hist sm i hinv hg
  rw [(exec_fromVertices cr ⟨sm, i⟩).book]
  exact hstep _ ⟨sm, i⟩ hinv hg

/-- A property of the book that every write keeps holds in every run. -/
theorem book_invariant (cr : Crypto) (Good : NodeCall → Prop) (P : VertexBook → Prop)
    (hmove : ∀ call, Good call → ∀ b sg acts d, BookMove cr call b sg acts d → P b → P d)
    (cfg : Config) (self : ValidatorId) (hinit : P (VertexBook.new self))
    (is : List StateMachine.Input) (hgood : ∀ call ∈ StateMachine.run cr cfg self is, Good call) :
    P (StateMachine.reached cr cfg self is).vertices := by
  refine book_run cr Good (fun _ b => P b) cfg self hinit ?_ is hgood
  intro _ call hb hg
  obtain ⟨acts, hpath, -⟩ := vertexOutcome_moves cr call
  exact hpath.keeps (hmove call hg) hb

/-- The same with the actions of L1, if it does not matter that failed calls lose theirs. -/
theorem book_history (cr : Crypto) (Good : NodeCall → Prop)
    (P : List Action → VertexBook → Prop) (hlose : ∀ acts new b, P (acts ++ new) b → P acts b)
    (hmove : ∀ call, Good call → ∀ acts b sg new d, BookMove cr call b sg new d → P acts b →
      P (acts ++ new) d)
    (cfg : Config) (self : ValidatorId) (hinit : P [] (VertexBook.new self))
    (is : List StateMachine.Input) (hgood : ∀ call ∈ StateMachine.run cr cfg self is, Good call) :
    P (vertexActions cr (StateMachine.run cr cfg self is))
      (StateMachine.reached cr cfg self is).vertices := by
  refine book_run cr Good (fun hist b => P (vertexActions cr hist) b) cfg self hinit ?_ is hgood
  intro hist call hb hg
  obtain ⟨new, hpath, hres⟩ := vertexOutcome_moves cr call
  have hinv := hpath.invariant (R := fun _ => True) (P := fun _ acts b => P acts b)
    (fun _ _ _ _ _ _ _ hm hb => hmove call hg _ _ _ _ _ hm hb) (fun _ _ => trivial) [] _ hb
  rw [vertexActions_append, vertexActions_singleton]
  cases hr : (call.vertexOutcome cr).result with
  | error e =>
    simp only [Outcome.actions, hr, List.append_nil]
    exact hlose _ _ _ hinv
  | ok as =>
    simp only [Outcome.actions, hr]
    exact hres as hr ▸ hinv

/-- What holds in every state of a run holds before each of its calls. -/
theorem before_call {cr : Crypto} {cfg : Config} {self : ValidatorId}
    {is : List StateMachine.Input} {call : NodeCall}
    (hcall : call ∈ StateMachine.run cr cfg self is) :
    ∃ js ks, is = js ++ call.input :: ks ∧
      call.pre = StateMachine.reached cr cfg self js ∧
      ∀ c ∈ StateMachine.run cr cfg self js, c ∈ StateMachine.run cr cfg self is := by
  obtain ⟨js, ks, his, hpre⟩ := Trace.mem_calls _ hcall
  refine ⟨js, ks, his, hpre, ?_⟩
  intro c hc
  rw [his, StateMachine.run, Trace.calls_append]
  exact List.mem_append_left _ hc

end LuaDag
