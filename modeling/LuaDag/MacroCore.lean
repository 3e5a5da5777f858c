import LuaDag.StateMachine
import LuaDag.Maps

/-! L3 as an abstract protocol: the part of the macro book that safety depends on,
and everything one write of a handler can do to it. -/
namespace LuaDag

structure MacroCore where
  selfId : ValidatorId
  nextHeight : Height
  lastMacroHash : Hash32
  candidate : Std.TreeMap Height MacroCheckpoint
  partials : Std.TreeMap Hash32 (Finset ValidatorId)
  emittedMacroQc : Finset Hash32
  twoChain : TwoChainRule
  locks : LockMacro
  votes : VoteBook
  partialSigs : PartialSigs
  subnetAggs : Std.TreeMap Hash32 (Std.TreeMap SubnetId SubnetAggregate)
  proposalsSeen : Std.TreeMap (Height ×ₗ ValidatorId) (List MacroProposal)
  proposalSeen : Finset Height
  modeB : Std.TreeMap Height TimerId

def MacroBook.core (b : MacroBook) : MacroCore :=
  ⟨b.selfId, b.nextHeight, b.lastMacroHash, b.candidate, b.partials, b.emittedMacroQc,
    b.twoChain, b.locks, b.votes, b.partialSigs, b.subnetAggs, b.proposalsSeen,
    b.proposalSeen, b.timers.modeBByHeight⟩

def TwoChainRule.settle (r : TwoChainRule) : TwoChainRule :=
  match r.newlyFinalizedHeight with
  | none => r
  | some prev => r.markFinalized prev

def Action.isDecision : Action → Bool
  | .persistMacroCheckpoint _ => true
  | .persistMacroQc _ => true
  | .broadcastMacroQc _ => true
  | .broadcastMacroProposal _ => true
  | .broadcastBlsPartial _ => true
  | .updateBlobStatus _ .finalized => true
  | .emitSlashEvidence _ (.vertexEquivocation _) => false
  | .emitSlashEvidence _ _ => true
  | _ => false

def Action.isMacroTraffic : Action → Bool
  | .scheduleTimer _ _ => true
  | .broadcastSubnetAggregate _ => true
  | .notifyInactivityLeak _ _ => true
  | .updateBlobStatus _ .finalized => false
  | .updateBlobStatus _ _ => true
  | _ => false

def Dst.isMacro : Dst → Bool
  | .macroCheckpoint | .macroVote | .macroProposerSig => true
  | _ => false

abbrev NodeCall := Call StateMachine.Input StateMachine

/- What a call brings. -/
namespace NodeCall

def event (call : NodeCall) : Option Event :=
  match call.input.1 with
  | .genesis => none
  | .event e => some e

def ctx (call : NodeCall) : HostContext := call.input.2

def names (call : NodeCall) : Option Hash32 :=
  match call.event with
  | some (.blsPartialReceived bp) => some bp.checkpointHash
  | some (.subnetAggregateReceived a) => some a.checkpointHash
  | some (.macroQcReceived qc) => some qc.checkpointHash
  | _ => none

end NodeCall

namespace MacroFin

def accepts (cr : Crypto) (cfg : Config) (ctx : HostContext) (p : MacroProposal)
    (book : MacroBook) : Bool :=
  match activeSet ctx, beaconForHeight book ctx p.checkpoint.height with
  | .ok set, .ok beacon =>
    match vrfSortition cr beacon set p.checkpoint.height book.reputation,
        activeMode book cfg set p.checkpoint.height with
    | .ok schedule, .ok mode =>
      verifyProposal cr set p (vrfAlpha beacon p.checkpoint.height p.proposer) &&
        (book.proposalsSeen[toLex (p.checkpoint.height, p.proposer)]?.getD []).isEmpty &&
        maySpeak mode schedule p.proposer &&
        decide (p.checkpoint.parent = book.lastMacroHash) &&
        matchesCandidate book p.checkpoint &&
        (book.locks.tryLock book.selfId p.checkpoint.height p.checkpoint.hash).isOk
    | _, _ => false
  | _, _ => false

def closings (w : Nat) : Nat → Nat → Nat
  | _, 0 => 0
  | r, k + 1 => if r + 1 < w then closings w (r + 1) k else closings w 0 k + 1

end MacroFin

namespace MacroCore

def signersOf (c : MacroCore) (h : Hash32) : Finset ValidatorId := c.partials[h]?.getD ∅

def aggsOf (c : MacroCore) (h : Hash32) : List SubnetAggregate :=
  (c.subnetAggs[h]?.getD ∅).toList.map (·.2)

def spine (c : MacroCore) : MacroCore :=
  { c with partials := ∅, partialSigs := ∅, subnetAggs := ∅, proposalsSeen := ∅ }

def adopted (c : MacroCore) (height : Height) (cand : MacroCheckpoint) : MacroCore :=
  { c with
    emittedMacroQc := insert cand.hash c.emittedMacroQc
    twoChain := (c.twoChain.adopt cand).settle
    lastMacroHash := cand.hash
    nextHeight := height + 1
    proposalSeen := insert height c.proposalSeen
    modeB := c.modeB.erase height }

def finalizedActions (c : MacroCore) (r : TwoChainRule) : List Action :=
  match r.newlyFinalizedHeight with
  | none => []
  | some prev => (c.candidate[prev]?.map fun cp =>
      Action.updateBlobStatus (MacroFin.blobIdOfCheckpoint cp) .finalized).toList

end MacroCore

open MacroFin

def lowerLayers (cr : Crypto) (call : NodeCall) (cv : CertifiedVertex) : Result StateMachine :=
  (call.pre.onVertices (VertexCert.onCertifiedVertex cr call.pre.cfg call.ctx cv)).andThen
    fun sm => sm.onWaves (Bullshark.onCertifiedVertex cr sm.cfg cv call.ctx)

def freshMicroQcs (cr : Crypto) (call : NodeCall) (cv : CertifiedVertex) : List Hash32 :=
  (lowerLayers cr call cv).actions.filterMap microQcHash

def leadsNext (cr : Crypto) (call : NodeCall) : Bool :=
  let book := call.pre.macros
  match activeSet call.ctx, call.ctx.beacon with
  | .ok set, .ok beacon =>
    match vrfSortition cr beacon set book.nextHeight book.reputation with
    | .ok schedule => decide (schedule.primary = book.selfId)
    | .error _ => false
  | _, _ => false

/-- The primary closes one window at most on its next height, and none once a proposal
for that height has been seen. -/
def NodeCall.wellPaced (cr : Crypto) (call : NodeCall) : Bool :=
  match call.event with
  | some (.certifiedVertexReceived cv) =>
    let book := call.pre.macros
    !leadsNext cr call ||
      decide (closings call.pre.cfg.macroFin.macroWindowW book.microRing.length
          (freshMicroQcs cr call cv).length +
        (if book.nextHeight ∈ book.proposalSeen then 1 else 0) ≤ 1)
  | _ => true

/-- One write of an L3 handler during `call`: the requests it signs, the actions it
asks for, and the core it leaves. -/
inductive Move (cr : Crypto) (call : NodeCall) :
    MacroCore → List SignReq → List Action → MacroCore → Prop
  /-- Bookkeeping. -/
  | plain (c : MacroCore) (acts : List Action) (h : ∀ a ∈ acts, a.isMacroTraffic = true) :
      Move cr call c [] acts c
  /-- First proposal of this proposer at this height. -/
  | see (c : MacroCore) (p : MacroProposal)
      (hev : call.event = some (.macroProposalReceived p)) :
      Move cr call c [] [] { c with
        proposalsSeen := c.proposalsSeen.insert (toLex (p.checkpoint.height, p.proposer)) [p] }
  /-- Evidence against a proposer with another proposal at this height. -/
  | accuse (c : MacroCore) (p q : MacroProposal) (ev : MacroEquivocation)
      (hev : call.event = some (.macroProposalReceived p))
      (hq : q ∈ c.proposalsSeen[toLex (p.checkpoint.height, p.proposer)]?.getD [])
      (hne : q.checkpoint.hash ≠ p.checkpoint.hash) :
      Move cr call c [] [.emitSlashEvidence p.proposer (.macroEquivocation ev)] c
  /-- A window closes: its checkpoint becomes the candidate of the next height. -/
  | window (c : MacroCore) (root : Hash32) :
      Move cr call c [] [] { c with
        candidate := c.candidate.insert c.nextHeight
          (build cr c.nextHeight 0 c.lastMacroHash root) }
  /-- Mode B deadline of the next height. -/
  | arm (c : MacroCore) (id : TimerId) (acts : List Action)
      (h : ∀ a ∈ acts, a.isMacroTraffic = true) :
      Move cr call c [] acts { c with modeB := c.modeB.insert c.nextHeight id }
  | disarm (c : MacroCore) (height : Height) :
      Move cr call c [] [] { c with modeB := c.modeB.erase height }
  /-- Own proposal for a candidate, the first of its height in a well-paced call. -/
  | propose (c : MacroCore) (height : Height) (cp : MacroCheckpoint) (proof : VrfProof)
      (hc : c.candidate[height]? = some cp)
      (hfirst : call.wellPaced cr = true → height ∉ c.proposalSeen) :
      Move cr call c [(.macroProposerSig, proposerMessage c.selfId cp)]
        [.broadcastMacroProposal ⟨cp, c.selfId, proof,
          call.ctx.signBls .macroProposerSig (proposerMessage c.selfId cp)⟩]
        { c with proposalSeen := insert height c.proposalSeen }
  /-- Everything a vote writes before the partial is signed. -/
  | recordVote (c : MacroCore) (p : MacroProposal) (old : MacroCheckpoint) (locks : LockMacro)
      (hev : call.event = some (.macroProposalReceived p))
      (hacc : accepts cr call.pre.cfg call.ctx p call.pre.macros = true)
      (hpre : c.spine = call.pre.macros.core.spine)
      (hparent : p.checkpoint.parent = c.lastMacroHash)
      (hold : c.candidate[p.checkpoint.height]? = some old)
      (hroot : old.microRoot = p.checkpoint.microRoot) (hhash : old.hash = p.checkpoint.hash)
      (hlock : c.locks.tryLock c.selfId p.checkpoint.height p.checkpoint.hash = .ok locks) :
      Move cr call c
        [(.macroVote, voteMessage
          ⟨p.checkpoint.height - 1, p.checkpoint.height, p.checkpoint.hash, ⟨0⟩⟩)]
        (selfEvidence (c.votes.record c.selfId
          (voteRecord call.ctx p.checkpoint.height p.checkpoint.hash)) c.selfId)
        { c with
          locks := locks
          proposalSeen := insert p.checkpoint.height c.proposalSeen
          twoChain := c.twoChain.adopt p.checkpoint
          candidate := c.candidate.insert p.checkpoint.height p.checkpoint
          votes := c.votes.record c.selfId
            (voteRecord call.ctx p.checkpoint.height p.checkpoint.hash) }
  /-- A due Mode B deadline takes the lock on the candidate of its height. -/
  | lock (c : MacroCore) (height : Height) (cp : MacroCheckpoint) (locks : LockMacro)
      (id : TimerId) (hdue : c.modeB[height]? = some id)
      (hc : c.candidate[height]? = some cp)
      (hlock : c.locks.tryLock c.selfId height cp.hash = .ok locks) :
      Move cr call c [] [] { c with locks := locks, modeB := c.modeB.erase height }
  /-- Own partial, only for a locked candidate. -/
  | announce (c : MacroCore) (height : Height) (cp : MacroCheckpoint) (subnet : SubnetId)
      (hc : c.candidate[height]? = some cp)
      (hlock : c.locks.locks[c.selfId]? = some (height, cp.hash)) :
      Move cr call c [(.macroCheckpoint, checkpointMessage cp)]
        [.broadcastBlsPartial ⟨subnet, c.selfId, cp.hash,
          call.ctx.signBls .macroCheckpoint (checkpointMessage cp)⟩]
        { c with
          partialSigs := c.partialSigs.insert (toLex (cp.hash, c.selfId))
            (call.ctx.signBls .macroCheckpoint (checkpointMessage cp)) }
  /-- A signer of a hash, after its partial was stored; the flat thresholds count these. -/
  | addSigner (c : MacroCore) (h : Hash32) (v : ValidatorId)
      (hv : v = c.selfId ∨ (c.partialSigs[toLex (h, v)]?).isSome = true) :
      Move cr call c [] [] { c with partials := c.partials.insert h (insert v (c.signersOf h)) }
  /-- A partial that is valid on the candidate it names. -/
  | storePartial (c : MacroCore) (set : ValidatorSet) (height : Height) (cp : MacroCheckpoint)
      (bp : BlsPartial) (hset : activeSet call.ctx = .ok set)
      (hc : c.candidate[height]? = some cp) (hbp : verifyPartial cr set bp cp = true) :
      Move cr call c [] [] { c with
        partialSigs := c.partialSigs.insert (toLex (cp.hash, bp.validator)) bp.sig }
  /-- A subnet aggregate over stored partials that are valid on the candidate. -/
  | storeAggregate (c : MacroCore) (set : ValidatorSet) (height : Height) (cp : MacroCheckpoint)
      (agg : SubnetAggregate) (hset : activeSet call.ctx = .ok set)
      (hc : c.candidate[height]? = some cp) (hagg : agg.checkpointHash = cp.hash)
      (hv : verifySubnetAgg cr set agg cp c.partialSigs = true) :
      Move cr call c [] [] { c with
        subnetAggs := c.subnetAggs.insert cp.hash
          ((c.subnetAggs[cp.hash]?.getD ∅).insert agg.subnet agg) }

inductive Backing (cr : Crypto) (call : NodeCall) (set : ValidatorSet) (c : MacroCore)
    (cand : MacroCheckpoint) : MacroQc → Bool → Prop
  | flat (qc : MacroQc) (mode : AggregationMode)
      (h : tryFinalizeMode0 cr set c.partialSigs cand.hash (c.signersOf cand.hash) = some qc) :
      Backing cr call set c cand { qc with mode := mode } true
  | subnet (qc : MacroQc)
      (h : tryFinalizeModeA cr set c.partialSigs cand.hash (c.aggsOf cand.hash) = some qc) :
      Backing cr call set c cand qc true
  | received (qc : MacroQc) (hev : call.event = some (.macroQcReceived qc))
      (h : verifyMacroQc cr set qc cand = true) :
      Backing cr call set c cand qc false

/-- Adoption of a macro QC; a handler does nothing after it and cannot fail any more. -/
inductive Adopt (cr : Crypto) (call : NodeCall) : MacroCore → List Action → MacroCore → Prop
  | mk (c : MacroCore) (set : ValidatorSet) (height : Height) (cand : MacroCheckpoint)
      (qc : MacroQc) (own : Bool) (leak : List Action)
      (hset : activeSet call.ctx = .ok set)
      (hpre : c.spine = call.pre.macros.core.spine)
      (hnew : cand.hash ∉ c.emittedMacroQc)
      (hc : c.candidate[height]? = some cand)
      (hnames : call.names = some cand.hash)
      (hqc : Backing cr call set c cand qc own)
      (hleak : ∀ a ∈ leak, a.isMacroTraffic = true) :
      Adopt cr call c
        ((if own then [.broadcastMacroQc qc] else []) ++ adoptionActions cand qc ++ leak ++
          c.finalizedActions (c.twoChain.adopt cand))
        (c.adopted height cand)

end LuaDag
