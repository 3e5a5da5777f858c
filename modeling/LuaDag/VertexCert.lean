import LuaDag.Crypto
import LuaDag.Bitmap
import LuaDag.Outcome
import Mathlib.Data.Finset.Basic
import Std.Data.TreeMap

/-! L1: distributed vertex certification (`dag::cert`, `consensus::vertex_cert`).
Every validator proposes one vertex per round, votes for the proposals of the
others, and aggregates the votes on its own vertex. -/
namespace LuaDag

abbrev Result (σ : Type) := Outcome Error SignReq Action σ

/- Quorum certificates (`dag::cert`). -/
inductive CertError where
  | hashMismatch
  | insufficientSigners (got need : Nat)
  | badIndex (i : Nat)
  | bls
deriving DecidableEq, Repr

def CertError.text : CertError → String
  | .hashMismatch => "vertex content hash mismatch"
  | .insufficientSigners got need =>
    "insufficient signers: got " ++ toString got ++ ", need " ++ toString need
  | .badIndex i => "validator index out of range: " ++ toString i
  | .bls => "bls"

def quorumThreshold (n : Nat) : Nat := 2 * ((n - 1) / 3) + 1

def toU32 (n : Nat) : Option Nat := if n < 2 ^ 32 then some n else none

def assembleCert (cr : Crypto) (vertex : Vertex) (valset : ValidatorSet)
    (contributors : List (Nat × BlsSig)) : Except CertError CertifiedVertex :=
  match toU32 valset.entries.length with
  | none => .error (.badIndex 0)
  | some n =>
    let need := quorumThreshold n
    let got := (toU32 contributors.length).getD 0
    if got < need then .error (.insufficientSigners got need)
    else
      match contributors.find? fun c => valset.entries.length ≤ c.1 with
      | some c => .error (.badIndex c.1)
      | none =>
        match cr.aggregateSigs (contributors.map (·.2)) with
        | none => .error .bls
        | some agg => .ok
          ⟨vertex, ⟨agg, Bitmap.setAll (Bitmap.zeros n) (contributors.map (·.1))⟩⟩

def bitmapIndices (bitmap : List (BitVec 8)) (n : Nat) : Except CertError (List Nat) :=
  if bitmap.length = (n + 7) / 8 then .ok ((List.range n).filter (Bitmap.test bitmap))
  else .error (.badIndex 0)

def certKeys (cr : Crypto) (valset : ValidatorSet) :
    List Nat → Except CertError (List PublicKey)
  | [] => .ok []
  | idx :: rest =>
    match valset.entries[idx]? with
    | none => .error (.badIndex idx)
    | some entry =>
      match cr.pkFromBytes entry.blsPubkey with
      | none => .error .bls
      | some pk => (certKeys cr valset rest).map (pk :: ·)

def verifyCertifiedVertex (cr : Crypto) (cv : CertifiedVertex) (valset : ValidatorSet) :
    Except CertError Unit :=
  if cv.vertex.hash ≠ contentHash cr cv.vertex then .error .hashMismatch
  else
    match toU32 valset.entries.length with
    | none => .error (.badIndex 0)
    | some n =>
      let need := quorumThreshold n
      match bitmapIndices cv.certificate.bitmap n with
      | .error e => .error e
      | .ok indices =>
        let got := (toU32 indices.length).getD 0
        if got < need then .error (.insufficientSigners got need)
        else
          match certKeys cr valset indices with
          | .error e => .error e
          | .ok pks =>
            if cr.verifyAggregate pks .vertexCert (signingBytes cv.vertex) cv.certificate.sig
            then .ok () else .error .bls

structure VertexBook where
  selfId : ValidatorId
  currentRound : Round := 0
  started : Bool := false
  certifiedByRound : Std.TreeMap Round (Std.TreeMap ValidatorId Hash32) := ∅
  myProposals : Std.TreeMap Hash32 VertexProposal := ∅
  collecting : Std.TreeMap Hash32 (Std.TreeMap ValidatorId BlsSig) := ∅
  emittedCerts : Finset Hash32 := ∅
  proposalsSeen : Std.TreeMap (Round ×ₗ ValidatorId) (List VertexProposal) := ∅
  voted : Finset (Round × ValidatorId) := ∅
  roundTimer : Option TimerId := none
  timerRetries : Nat := 0
  timers : TimerScheduler := {}
  rejectedCrypto : Nat := 0
  partialConflicts : Nat := 0
  roundsStalled : Nat := 0

def VertexBook.new (selfId : ValidatorId) : VertexBook := { selfId := selfId }

def VertexBook.certifiedCountAt (book : VertexBook) (round : Round) : Nat :=
  (book.certifiedByRound[round]?.map (·.size)).getD 0

namespace VertexCert

def quorumNeed (set : ValidatorSet) : Except Error Nat :=
  match toU32 set.entries.length with
  | none => .error (.invalidConfig "validator set too large")
  | some n => .ok (quorumThreshold n)

def indexOf (set : ValidatorSet) (id : ValidatorId) : Option Nat :=
  set.entries.findIdx? (·.id = id)

def roundInWindow (book : VertexBook) (round : Round) : Bool :=
  decide (book.currentRound ≤ round + 1) && decide (round ≤ book.currentRound + 1)

def roundDelayNanos (cfg : Config) (retries : Nat) : Nat :=
  cfg.timing.roundDurationMs * 1000000 * (retries + 1)

def pkFor (cr : Crypto) (set : ValidatorSet) (id : ValidatorId) : Option PublicKey :=
  (entryFor set id).bind fun e => cr.pkFromBytes e.blsPubkey

def verifyProposal (cr : Crypto) (set : ValidatorSet) (p : VertexProposal) : Bool :=
  match pkFor cr set p.vertex.author with
  | none => false
  | some pk => cr.verify pk .vertexProposal (signingBytes p.vertex) p.proposerSig

def verifyPartial (cr : Crypto) (set : ValidatorSet) (bp : VertexPartial) (vertex : Vertex) :
    Bool :=
  if bp.vertexHash ≠ vertex.hash ∨ bp.round ≠ vertex.round ∨ bp.author ≠ vertex.author then
    false
  else
    match pkFor cr set bp.voter with
    | none => false
    | some pk => cr.verify pk .vertexCert (signingBytes vertex) bp.sig

/-- Step 4 of `on_vertex_proposal`: at least a quorum of parents, all of them
certified vertices known at the previous round. -/
def parentsKnown (book : VertexBook) (round : Round) (need : Nat) (parents : List Hash32) :
    Bool :=
  let prev := book.certifiedByRound[round - 1]?
  let known (h : Hash32) : Bool := prev.any fun m => m.values.any (· = h)
  !(decide (parents.length < need) || !parents.all known)

def vote (book : VertexBook) (p : VertexProposal) (ctx : HostContext) : Result VertexBook :=
  let key := (p.vertex.round, p.vertex.author)
  if key ∈ book.voted then .quiet book
  else
    let msg := signingBytes p.vertex
    ⟨{ book with voted := insert key book.voted }, [(.vertexCert, msg)], .ok
      [.broadcastVertexPartial ⟨p.vertex.hash, p.vertex.round, p.vertex.author, book.selfId,
        ctx.signBls .vertexCert msg⟩]⟩

/-- Steps 4 and 5 of `on_vertex_proposal`; genesis round 0 has no parents. -/
def checkParentsAndVote (set : ValidatorSet) (p : VertexProposal) (ctx : HostContext)
    (book : VertexBook) : Result VertexBook :=
  if 0 < p.vertex.round then
    match quorumNeed set with
    | .error e => .fail book e
    | .ok need =>
      if parentsKnown book p.vertex.round need p.vertex.parents then vote book p ctx
      else .quiet book
  else if p.vertex.parents.isEmpty then vote book p ctx
  else .quiet { book with rejectedCrypto := book.rejectedCrypto + 1 }

def onVertexProposal (cr : Crypto) (p : VertexProposal) (ctx : HostContext)
    (book : VertexBook) : Result VertexBook :=
  match activeSet ctx with
  | .error e => .fail book e
  | .ok set =>
    let rejected := { book with rejectedCrypto := book.rejectedCrypto + 1 }
    if p.vertex.hash ≠ contentHash cr p.vertex then .quiet rejected
    else if !verifyProposal cr set p then .quiet rejected
    else if p.vertex.author = book.selfId then .quiet book
    else if !roundInWindow book p.vertex.round then .quiet book
    else
      let round := p.vertex.round
      let author := p.vertex.author
      match book.proposalsSeen[toLex (round, author)]? with
      | some (first :: rest) =>
        if (first :: rest).any (·.vertex.hash ≠ p.vertex.hash) then
          .ok book [.emitSlashEvidence author (.vertexEquivocation
            ⟨author, (first.vertex, first.proposerSig), (p.vertex, p.proposerSig)⟩)]
        else checkParentsAndVote set p ctx book
      | some [] => checkParentsAndVote set p ctx book
      | none =>
        checkParentsAndVote set p ctx
          { book with proposalsSeen := book.proposalsSeen.insert (toLex (round, author)) [p] }

def recordCert (book : VertexBook) (cv : CertifiedVertex) : VertexBook :=
  let certs := book.certifiedByRound[cv.vertex.round]?.getD ∅
  { book with
    certifiedByRound := book.certifiedByRound.insert cv.vertex.round
      (certs.insert cv.vertex.author cv.vertex.hash) }

/-- The collected signatures by validator index; unknown voters are skipped. -/
def contributors (set : ValidatorSet) (sigs : Std.TreeMap ValidatorId BlsSig) :
    List (Nat × BlsSig) :=
  sigs.toList.filterMap fun (voter, sig) => (indexOf set voter).map fun idx => (idx, sig)

section Advance
variable (cr : Crypto) (cfg : Config) (ctx : HostContext)

/- The three mutually recursive functions of the source take the recursive call,
   `maybe_advance`, as the argument `advance`; `advanceLoop` ties the knot. -/

def tryFinalizeWith (advance : VertexBook → Result VertexBook) (hash : Hash32)
    (book : VertexBook) : Result VertexBook :=
  if hash ∈ book.emittedCerts then .quiet book
  else
    match book.myProposals[hash]? with
    | none => .quiet book
    | some proposal =>
      match activeSet ctx with
      | .error e => .fail book e
      | .ok set =>
        match quorumNeed set with
        | .error e => .fail book e
        | .ok need =>
          match book.collecting[hash]? with
          | none => .quiet book
          | some sigs =>
            if sigs.size < need then .quiet book
            else
              match assembleCert cr proposal.vertex set (contributors set sigs) with
              | .error e => .fail book (.invalidConfig ("assemble vertex cert: " ++ e.text))
              | .ok cv =>
                match verifyCertifiedVertex cr cv set with
                | .error e => .fail book (.invalidConfig ("self-check vertex cert: " ++ e.text))
                | .ok () =>
                  let book := { book with emittedCerts := insert hash book.emittedCerts }
                  (Outcome.ok (recordCert book cv) [.broadcastCertifiedVertex cv]).andThen advance

def ownVertex (book : VertexBook) (round : Round) (parents : List Hash32) : Vertex :=
  sealHash cr ⟨round, book.selfId, parents, ctx.drain round, Hash32.zero⟩

def seedProposal (book : VertexBook) (round : Round) (proposal : VertexProposal)
    (selfSig : BlsSig) : VertexBook :=
  let hash := proposal.vertex.hash
  let seen := book.proposalsSeen[toLex (round, book.selfId)]?.getD []
  { book with
    myProposals := book.myProposals.insert hash proposal
    collecting := book.collecting.insert hash
      ((book.collecting[hash]?.getD ∅).insert book.selfId selfSig)
    voted := insert (round, book.selfId) book.voted
    proposalsSeen := book.proposalsSeen.insert (toLex (round, book.selfId)) (seen ++ [proposal])
    currentRound := round
    timers := book.timers.allocate.2
    roundTimer := some book.timers.allocate.1
    timerRetries := 0 }

def proposeRoundWith (advance : VertexBook → Result VertexBook) (round : Round)
    (parents : List Hash32) (book : VertexBook) : Result VertexBook :=
  let vertex := ownVertex cr ctx book round parents
  let msg := signingBytes vertex
  let proposal : VertexProposal := ⟨vertex, ctx.signBls .vertexProposal msg⟩
  let cancel := (book.roundTimer.map Action.cancelTimer).toList
  let seeded : Result VertexBook :=
    ⟨seedProposal book round proposal (ctx.signBls .vertexCert msg),
      [(.vertexProposal, msg), (.vertexCert, msg)],
      .ok (cancel ++ [.scheduleTimer book.timers.allocate.1 (roundDelayNanos cfg 0),
        .broadcastVertexProposal proposal])⟩
  seeded.andThen (tryFinalizeWith cr ctx advance vertex.hash)

def prune (book : VertexBook) : VertexBook :=
  let keepFrom := book.currentRound - 1
  let mine := book.myProposals.filter fun _ p => decide (keepFrom ≤ p.vertex.round)
  { book with
    certifiedByRound := book.certifiedByRound.filter fun r _ => decide (keepFrom ≤ r)
    myProposals := mine
    collecting := book.collecting.filter fun h _ => mine.contains h
    emittedCerts := book.emittedCerts.filter (mine.contains ·)
    proposalsSeen := book.proposalsSeen.filter fun k _ => decide (keepFrom ≤ (ofLex k).1)
    voted := book.voted.filter (keepFrom ≤ ·.1) }

def maybeAdvanceWith (loop : Nat → VertexBook → Result VertexBook) (book : VertexBook) :
    Result VertexBook :=
  if !book.started then .quiet book
  else
    match activeSet ctx with
    | .error e => .fail book e
    | .ok set =>
      match quorumNeed set with
      | .error e => .fail book e
      | .ok need => (loop need book).andThen fun book => .quiet (prune book)

/-- While the current round holds `need` certificates, propose the next one on top
of the first `need` of them in author order. -/
def advanceLoop : Nat → Nat → VertexBook → Result VertexBook
  | 0, _, book => .fail book .overflow
  | fuel + 1, need, book =>
    match book.certifiedByRound[book.currentRound]? with
    | none => .quiet book
    | some certs =>
      if certs.size < need then .quiet book
      else
        (proposeRoundWith cr cfg ctx (maybeAdvanceWith ctx (advanceLoop fuel))
          (book.currentRound + 1) (certs.values.take need) book).andThen (advanceLoop fuel need)

def maybeAdvance (book : VertexBook) : Result VertexBook :=
  maybeAdvanceWith ctx (advanceLoop cr cfg ctx ctx.fuel) book

def tryFinalize (hash : Hash32) (book : VertexBook) : Result VertexBook :=
  tryFinalizeWith cr ctx (maybeAdvance cr cfg ctx) hash book

def proposeRound (round : Round) (parents : List Hash32) (book : VertexBook) :
    Result VertexBook :=
  proposeRoundWith cr cfg ctx (maybeAdvance cr cfg ctx) round parents book

def onVertexPartial (bp : VertexPartial) (book : VertexBook) : Result VertexBook :=
  if bp.author ≠ book.selfId ∨ bp.voter = book.selfId then .quiet book
  else
    match book.myProposals[bp.vertexHash]? with
    | none => .quiet book
    | some proposal =>
      let slot := book.collecting[bp.vertexHash]?.getD ∅
      let book := { book with collecting := book.collecting.insert bp.vertexHash slot }
      match slot[bp.voter]? with
      | some prev =>
        if prev ≠ bp.sig then .quiet { book with partialConflicts := book.partialConflicts + 1 }
        else .quiet book
      | none =>
        match activeSet ctx with
        | .error e => .fail book e
        | .ok set =>
          if !verifyPartial cr set bp proposal.vertex then
            .quiet { book with rejectedCrypto := book.rejectedCrypto + 1 }
          else
            tryFinalize cr cfg ctx bp.vertexHash { book with
              collecting := book.collecting.insert bp.vertexHash (slot.insert bp.voter bp.sig) }

def genesisPropose (book : VertexBook) : Result VertexBook :=
  if book.started then .quiet book
  else proposeRound cr cfg ctx 0 [] { book with started := true }

def onCertifiedVertex (cv : CertifiedVertex) (book : VertexBook) : Result VertexBook :=
  maybeAdvance cr cfg ctx (recordCert book cv)

def onTimerFired (id : TimerId) (book : VertexBook) : Result VertexBook :=
  if book.roundTimer ≠ some id then .quiet book
  else
    let book := { book with roundTimer := none }
    match activeSet ctx with
    | .error e => .fail book e
    | .ok set =>
      match quorumNeed set with
      | .error e => .fail book e
      | .ok need =>
        if need ≤ book.certifiedCountAt book.currentRound then .quiet book
        else
          let again := (book.myProposals.toList.find? (·.2.vertex.round = book.currentRound)).map
            fun e => Action.broadcastVertexProposal e.2
          let retries := min (book.timerRetries + 1) 8
          .ok { book with
              roundsStalled := book.roundsStalled + 1
              timerRetries := retries
              timers := book.timers.allocate.2
              roundTimer := some book.timers.allocate.1 }
            (again.toList ++
              [.scheduleTimer book.timers.allocate.1 (roundDelayNanos cfg retries)])

end Advance
end VertexCert
end LuaDag
