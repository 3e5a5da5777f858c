import Mathlib.Data.Prod.Lex
import Mathlib.Order.Basic

/-! Wire and storage shapes shared by the three layers (crate `types`). Byte
wrappers are numbers: a 32-byte array is read big-endian, which keeps its order.
Their width is left open, so that a collision-free hash is a satisfiable
assumption. Counters that only ever grow by one are natural numbers. -/
namespace LuaDag

abbrev Round := Nat
abbrev Height := Nat
abbrev Epoch := Nat
abbrev StakeWeight := Nat
abbrev TimerId := Nat
abbrev SubnetId := Nat

structure ValidatorId where
  val : Nat
deriving DecidableEq, Repr

structure Hash32 where
  val : Nat
deriving DecidableEq, Repr

structure BlobId where
  val : Nat
deriving DecidableEq, Repr

theorem ValidatorId.val_injective : Function.Injective ValidatorId.val := by
  intro a b h
  cases a
  cases b
  exact congrArg ValidatorId.mk h

theorem Hash32.val_injective : Function.Injective Hash32.val := by
  intro a b h
  cases a
  cases b
  exact congrArg Hash32.mk h

instance : LinearOrder ValidatorId := LinearOrder.lift' ValidatorId.val ValidatorId.val_injective
instance : LinearOrder Hash32 := LinearOrder.lift' Hash32.val Hash32.val_injective

def Hash32.zero : Hash32 := ⟨0⟩

/- Opaque crypto material: the values do not verify themselves. -/
structure BlsPubkey where
  val : Nat
deriving DecidableEq, Repr

structure PublicKey where
  val : Nat
deriving DecidableEq, Repr

structure BlsSig where
  val : Nat
deriving DecidableEq, Repr

structure VrfPubkey where
  val : Nat
deriving DecidableEq, Repr

structure VrfProof where
  val : Nat
deriving DecidableEq, Repr

def VrfPubkey.isZero (k : VrfPubkey) : Bool := k.val == 0

structure BlsAggSig where
  sig : BlsSig
  bitmap : List (BitVec 8)
deriving DecidableEq, Repr

structure BlobRef where
  blobId : BlobId
  commitment : Hash32
  sizeBytes : Nat
deriving DecidableEq, Repr

structure Vertex where
  round : Round
  author : ValidatorId
  parents : List Hash32
  blobs : List BlobRef
  hash : Hash32
deriving DecidableEq, Repr

structure CertifiedVertex where
  vertex : Vertex
  certificate : BlsAggSig
deriving DecidableEq, Repr

structure VertexProposal where
  vertex : Vertex
  proposerSig : BlsSig
deriving DecidableEq, Repr

structure VertexPartial where
  vertexHash : Hash32
  round : Round
  author : ValidatorId
  voter : ValidatorId
  sig : BlsSig
deriving DecidableEq, Repr

structure MacroCheckpoint where
  height : Height
  epoch : Epoch
  parent : Hash32
  microRoot : Hash32
  hash : Hash32
deriving DecidableEq, Repr

structure MacroProposal where
  checkpoint : MacroCheckpoint
  proposer : ValidatorId
  vrfProof : VrfProof
  proposerSig : BlsSig
deriving DecidableEq, Repr

inductive AggregationMode where
  | mode0Flat | modeASubnet | modeBLeaderless
deriving DecidableEq, Repr

structure MacroQc where
  checkpointHash : Hash32
  mode : AggregationMode
  agg : BlsAggSig
deriving DecidableEq, Repr

structure MicroQc where
  checkpointHash : Hash32
  agg : BlsAggSig
deriving DecidableEq, Repr

structure ValidatorEntry where
  id : ValidatorId
  blsPubkey : BlsPubkey
  vrfPubkey : VrfPubkey
  stake : StakeWeight
deriving DecidableEq, Repr

structure ValidatorSet where
  epoch : Epoch
  entries : List ValidatorEntry
  totalStake : StakeWeight
deriving DecidableEq, Repr

/- Slashing evidence. -/
structure MacroEquivocation where
  validator : ValidatorId
  a : MacroCheckpoint × BlsSig
  b : MacroCheckpoint × BlsSig
deriving DecidableEq, Repr

structure SurroundVote where
  validator : ValidatorId
  aSource : Epoch
  aTarget : Epoch
  aSig : BlsSig
  aCheckpoint : Hash32
  bSource : Epoch
  bTarget : Epoch
  bSig : BlsSig
  bCheckpoint : Hash32
deriving DecidableEq, Repr

structure DoubleVote where
  validator : ValidatorId
  target : Epoch
  aCheckpoint : Hash32
  aSig : BlsSig
  bCheckpoint : Hash32
  bSig : BlsSig
deriving DecidableEq, Repr

structure VertexEquivocation where
  validator : ValidatorId
  a : Vertex × BlsSig
  b : Vertex × BlsSig
deriving DecidableEq, Repr

inductive SlashEvidence where
  | macroEquivocation (e : MacroEquivocation)
  | surround (e : SurroundVote)
  | doubleVote (e : DoubleVote)
  | vertexEquivocation (e : VertexEquivocation)
deriving DecidableEq, Repr

/- Messages of the Mode 0 / Mode A aggregation paths (`consensus::event`). -/
structure BlsPartial where
  subnet : SubnetId
  validator : ValidatorId
  checkpointHash : Hash32
  sig : BlsSig
deriving DecidableEq, Repr

structure SubnetAggregate where
  subnet : SubnetId
  checkpointHash : Hash32
  agg : BlsAggSig
deriving DecidableEq, Repr

inductive Event where
  | certifiedVertexReceived (cv : CertifiedVertex)
  | microQcAssembled (qc : MicroQc)
  | macroProposalReceived (p : MacroProposal)
  | blsPartialReceived (bp : BlsPartial)
  | subnetAggregateReceived (a : SubnetAggregate)
  | macroQcReceived (qc : MacroQc)
  | timerFired (id : TimerId)
  | validatorSetUpdated (epoch : Epoch) (set : ValidatorSet)
  | slashEvidenceFound (e : SlashEvidence)
  | vertexProposalReceived (p : VertexProposal)
  | vertexPartialReceived (bp : VertexPartial)
deriving DecidableEq, Repr

inductive BlobStatus where
  | accepted | softConfirmed | justified | finalized | epochFinalized
deriving DecidableEq, Repr

inductive Action where
  | broadcastMicroQc (qc : MicroQc)
  | broadcastMacroProposal (p : MacroProposal)
  | broadcastBlsPartial (bp : BlsPartial)
  | broadcastSubnetAggregate (a : SubnetAggregate)
  | broadcastMacroQc (qc : MacroQc)
  | scheduleTimer (id : TimerId) (delayNanos : Nat)
  | cancelTimer (id : TimerId)
  | persistMacroQc (qc : MacroQc)
  | persistMacroCheckpoint (cp : MacroCheckpoint)
  | emitSlashEvidence (offender : ValidatorId) (evidence : SlashEvidence)
  | updateBlobStatus (blob : BlobId) (status : BlobStatus)
  | notifyInactivityLeak (windows : Nat) (bpsPerWindow : Nat)
  | broadcastVertexProposal (p : VertexProposal)
  | broadcastVertexPartial (bp : VertexPartial)
  | broadcastCertifiedVertex (cv : CertifiedVertex)
deriving DecidableEq, Repr

/- Protocol parameters read by the modelled functions (whitepaper Table 17.1).
   The reputation knobs only enter the floating-point score, see `Crypto`. -/
structure Timing where
  roundDurationMs : Nat
  tMacroproposeMs : Nat
deriving DecidableEq, Repr

structure BullsharkParams where
  shortcutRoundCount : Nat
  slowPathRoundCount : Nat
deriving DecidableEq, Repr

structure MacroFinParams where
  macroWindowW : Nat
  inactivityLeakBpsPerWindow : Nat
  inactivityLeakTriggerWindows : Nat
deriving DecidableEq, Repr

structure AggregationParams where
  subnetFlatThreshold : Nat
  simForceKe : Option Nat
deriving DecidableEq, Repr

structure Config where
  timing : Timing
  bullshark : BullsharkParams
  macroFin : MacroFinParams
  aggregation : AggregationParams
deriving DecidableEq, Repr

def Config.defaultTable171 : Config where
  timing := ⟨250, 4000⟩
  bullshark := ⟨2, 4⟩
  macroFin := ⟨8, 50, 4⟩
  aggregation := ⟨500, none⟩

/-- Consensus errors. `panic` stands for an unwinding `expect` or index, and
`overflow` for a call that does not return within the host's stack. -/
inductive Error where
  | invalidConfig (msg : String)
  | persistence (msg : String)
  | crypto (msg : String)
  | types (msg : String)
  | lockMacro (msg : String)
  | panic (msg : String)
  | overflow
deriving DecidableEq, Repr

end LuaDag
