import LuaDag.Types

/-! The cryptography the consensus code calls (crates `blake3`, `blst`, the ECVRF)
and the floating-point sortition score, as parameters; the encodings they are
applied to, as values. -/
namespace LuaDag

inductive Dst where
  | microQc | macroProposal | macroVote | beacon | subnetAssign | macroCheckpoint
  | macroMicroRoot | macroProposerSig | vertexHash | vertexCert | vertexProposal
deriving DecidableEq, Repr

/-- Canonical encodings that get hashed or signed, by what they encode: Borsh and
the fixed-width concatenations are injective, so the value stands for its bytes. -/
inductive Bytes where
  /-- `SignableVertex`: the vertex with its hash pinned to zero. -/
  | vertexBody (round : Round) (author : ValidatorId) (parents : List Hash32)
      (blobs : List BlobRef)
  /-- The unhashed fields of a macro checkpoint. -/
  | checkpointFields (height : Height) (epoch : Epoch) (parent microRoot : Hash32)
  /-- A whole macro checkpoint. -/
  | checkpoint (cp : MacroCheckpoint)
  /-- Borsh vector of hashes. -/
  | hashes (hs : List Hash32)
  /-- Plain concatenation of hashes. -/
  | concat (hs : List Hash32)
  /-- `validator_id ‖ hash`. -/
  | idHash (id : ValidatorId) (h : Hash32)
  /-- `beacon ‖ index ‖ validator_id`, the index as eight big-endian bytes. -/
  | beaconSlot (beacon : Hash32) (index : Nat) (id : ValidatorId)
  /-- The Casper-FFG fields of a vote. -/
  | vote (source target : Epoch) (checkpoint : Hash32)
deriving DecidableEq, Repr

/-- External primitives. `sortitionScore beta total stake reputation` is the order
key of the `f64` score (non-negative, never NaN), the reputation being given as
the number of EWMA updates applied to the neutral value. -/
structure Crypto where
  blake3WithDst : Dst → Bytes → Hash32
  pkFromBytes : BlsPubkey → Option PublicKey
  verify : PublicKey → Dst → Bytes → BlsSig → Bool
  aggregateSigs : List BlsSig → Option BlsSig
  verifyAggregate : List PublicKey → Dst → Bytes → BlsSig → Bool
  vrfVerify : VrfPubkey → Bytes → VrfProof → Bool
  sortitionScore : Hash32 → StakeWeight → StakeWeight → Nat → Nat

abbrev SignReq := Dst × Bytes

/- Vertex signing root and content hash (`dag::signing`). -/
def signingBytes (v : Vertex) : Bytes :=
  .vertexBody v.round v.author v.parents v.blobs

def contentHash (cr : Crypto) (v : Vertex) : Hash32 :=
  cr.blake3WithDst .vertexHash (signingBytes v)

def sealHash (cr : Crypto) (v : Vertex) : Vertex :=
  { v with hash := contentHash cr v }

@[simp] theorem signingBytes_sealHash (cr : Crypto) (v : Vertex) :
    signingBytes (sealHash cr v) = signingBytes v := rfl

structure DagView where
  vertex : Hash32 → Except Error (Option CertifiedVertex)
  verticesAtRound : Round → Except Error (List CertifiedVertex)

/-- Host ports for one call. `drain r` is what the pending-blob source yields when
the proposal of round `r` is built; `fuel` bounds the loops and nested calls the
host's stack allows. -/
structure HostContext where
  dag : DagView
  setFor : Epoch → Except Error (Option ValidatorSet)
  beacon : Except Error Hash32
  signBls : Dst → Bytes → BlsSig
  vrfProve : Bytes → Except Error (VrfProof × Hash32)
  drain : Round → List BlobRef
  fuel : Nat

def activeSet (ctx : HostContext) : Except Error ValidatorSet :=
  match ctx.setFor 0 with
  | .error e => .error e
  | .ok none => .error (.invalidConfig "no validator set for epoch 0")
  | .ok (some set) => .ok set

def entryFor (set : ValidatorSet) (id : ValidatorId) : Option ValidatorEntry :=
  set.entries.find? (·.id = id)

structure TimerScheduler where
  next : Nat := 0
deriving DecidableEq, Repr

def TimerScheduler.allocate (s : TimerScheduler) : TimerId × TimerScheduler :=
  (s.next, ⟨s.next + 1⟩)

end LuaDag
