import LuaDag.Primitives
import LuaDag.StateMachine
import Mathlib.Data.Nat.Pairing
import Mathlib.Logic.Equiv.List

/-! A devnet of four validators with ideal cryptography: a signature is valid iff it is
on record, and checkpoint hashes are injective and never zero. It meets what is assumed
of the external primitives and carries the concrete runs. -/
namespace LuaDag
namespace Devnet
open MacroFin

def checkpointHash (h e p r : Nat) : Nat :=
  (Nat.pair p (Nat.pair r (Nat.pair h e)) + 1) * 2 ^ 128

def hash : Dst → Bytes → Nat
  | .vertexHash, .vertexBody round author _ _ => round * 4 + author.val + 1
  | .macroCheckpoint, .checkpointFields h e p r => checkpointHash h e p.val r.val
  | _, .beaconSlot _ _ id => id.val
  | _, .hashes hs => (hs.head?.map (·.val)).getD 0
  | _, .concat hs => (hs.map (·.val)).sum
  | _, _ => 0

def sigOf (pk : PublicKey) : BlsSig := ⟨pk.val + 1⟩

def sumSigs (sigs : List BlsSig) : BlsSig := ⟨(sigs.map (·.val)).sum⟩

def crypto (recorded : Nat → Dst → Bytes → Bool) : Crypto where
  blake3WithDst := fun dst msg => ⟨hash dst msg⟩
  pkFromBytes := fun b => some ⟨b.val⟩
  verify := fun pk dst msg sig => decide (sig = sigOf pk) && recorded pk.val dst msg
  aggregateSigs := fun sigs => if sigs.isEmpty then none else some (sumSigs sigs)
  verifyAggregate := fun pks dst msg sig =>
    decide (sig = sumSigs (pks.map sigOf)) && pks.all fun pk => recorded pk.val dst msg
  vrfVerify := fun _ _ _ => true
  sortitionScore := fun beta _ _ _ => beta.val

def openCrypto : Crypto := crypto fun _ _ _ => true

def orderCrypto : Crypto := { openCrypto with
  blake3WithDst := fun dst msg =>
    match msg with
    | .hashes hs => ⟨Encodable.encode (hs.map (·.val))⟩
    | _ => ⟨hash dst msg⟩ }

theorem checkpointsInjective : CheckpointsInjective orderCrypto := by
  intro o o' heq
  have hcode : Encodable.encode (o.map (·.val)) = Encodable.encode (o'.map (·.val)) :=
    congrArg Hash32.val heq
  exact List.map_injective_iff.mpr Hash32.val_injective (Encodable.encode_injective hcode)

/-- The same, and beacons and slots do not collide; scores follow the order of the ids under
the genesis beacon and the reverse order under every other one. -/
def beaconCrypto : Crypto := { openCrypto with
  blake3WithDst := fun dst msg =>
    match msg with
    | .concat [p, q] => ⟨Nat.pair p.val q.val + 1⟩
    | .beaconSlot b w id => ⟨Nat.pair b.val (Nat.pair w id.val)⟩
    | _ => ⟨hash dst msg⟩
  sortitionScore := fun beta _ _ _ =>
    if beta.val.unpair.1 = 0 then beta.val.unpair.2.unpair.2 else 9 - beta.val.unpair.2.unpair.2 }

section Guarantees
variable (recorded : Nat → Dst → Bytes → Bool)

theorem hashInjective : HashInjective (crypto recorded) := by
  intro h e p r h' e' p' r' heq
  have hval : checkpointHash h e p.val r.val = checkpointHash h' e' p'.val r'.val :=
    congrArg Hash32.val heq
  have hpair := Nat.succ.inj (Nat.eq_of_mul_eq_mul_right (by decide) hval)
  simp only [Nat.pair_eq_pair] at hpair
  exact ⟨hpair.2.2.1, hpair.2.2.2, Hash32.val_injective hpair.1, Hash32.val_injective hpair.2.1⟩

theorem hashNonzero : HashNonzero (crypto recorded) := by
  intro h e p r heq
  have hval : checkpointHash h e p.val r.val = 0 := congrArg Hash32.val heq
  exact absurd hval (Nat.mul_ne_zero (Nat.succ_ne_zero _) (by decide))

theorem soundAggregates : SoundAggregates (crypto recorded) := by
  intro pks dst msg sig h pk hpk
  simp only [crypto, Bool.and_eq_true, List.all_eq_true] at h
  exact ⟨sigOf pk, by simpa [crypto] using h.2 pk hpk⟩

theorem completeAggregates : CompleteAggregates (crypto recorded) := by
  intro pks sigs dst msg agg hne hall hagg
  have hsigs : sigs = pks.map sigOf ∧ ∀ pk ∈ pks, recorded pk.val dst msg = true := by
    clear hagg hne
    induction hall with
    | nil => simp
    | cons hv _ ih =>
      simp only [crypto, Bool.and_eq_true, decide_eq_true_eq] at hv
      simp only [List.map_cons, List.mem_cons, forall_eq_or_imp]
      exact ⟨by rw [hv.1, ih.1], hv.2, ih.2⟩
  rw [hsigs.1] at hagg
  simp only [crypto] at hagg ⊢
  split at hagg
  · cases hagg
  · cases hagg
    simpa using hsigs.2

theorem aggregatesSingle : AggregatesSingle (crypto recorded) := by
  intro pk dst msg sig _
  exact ⟨sumSigs [sig], rfl⟩

theorem roundsHashApart : RoundsHashApart (crypto recorded) := by
  intro v w hauthor heq
  have hval : v.round * 4 + v.author.val + 1 = w.round * 4 + w.author.val + 1 :=
    congrArg Hash32.val heq
  rw [hauthor] at hval
  exact Nat.eq_of_mul_eq_mul_right (by decide) (Nat.add_right_cancel (Nat.add_right_cancel hval))

end Guarantees

/- Validators and vertices. -/

def entry (i : Nat) : ValidatorEntry := ⟨⟨i⟩, ⟨i⟩, ⟨0⟩, 1⟩

def validators : ValidatorSet := ⟨0, [entry 0, entry 1, entry 2, entry 3], 4⟩

def config : Config := { Config.defaultTable171 with macroFin := ⟨1, 50, 4⟩ }

def vertexHash (round author : Nat) : Hash32 := ⟨round * 4 + author + 1⟩

/-- The vertices of the first three validators, each on top of the round before. -/
def vertexAt (round author : Nat) : CertifiedVertex :=
  ⟨⟨round, ⟨author⟩, if round = 0 then [] else (List.range 3).map (vertexHash (round - 1)), [],
    vertexHash round author⟩, ⟨⟨6⟩, [7#8]⟩⟩

def verticesUpTo (top : Round) : List CertifiedVertex :=
  (List.range (top + 1)).flatMap fun r => (List.range 3).map (vertexAt r)

def dagUpTo (top : Round) : DagView where
  vertex := fun h =>
    if h.val = 0 ∨ top < (h.val - 1) / 4 ∨ (h.val - 1) % 4 = 3 then .ok none
    else .ok (some (vertexAt ((h.val - 1) / 4) ((h.val - 1) % 4)))
  verticesAtRound := fun r => .ok (if r ≤ top then (List.range 3).map (vertexAt r) else [])

def ports (i : Nat) (top : Round) : HostContext where
  dag := dagUpTo top
  setFor := fun _ => .ok (some validators)
  beacon := .ok ⟨0⟩
  signBls := fun _ _ => sigOf ⟨i⟩
  vrfProve := fun _ => .ok (⟨0⟩, ⟨0⟩)
  drain := fun _ => []
  fuel := 200

/-- A run of validator `i`, from events and the rounds it knows by then. -/
def script (i : Nat) (es : List (Round × Event)) : List StateMachine.Input :=
  es.map fun e => (.event e.2, ports i e.1)

/- Messages. -/

def closesWave (k : Nat) : Round × Event :=
  (4 * k + 1, .certifiedVertexReceived (vertexAt (4 * k + 1) 2))

def checkpoint (height : Height) (parent : Hash32) (k : Nat) : MacroCheckpoint :=
  build (crypto fun _ _ _ => false) height 0 parent ⟨16 * k + 1⟩

/- The checkpoints of the runs: `aN` and `bN` compete for height `N`. -/
def a0 : MacroCheckpoint := checkpoint 0 Hash32.zero 1
def b0 : MacroCheckpoint := checkpoint 0 Hash32.zero 2
def a1 : MacroCheckpoint := checkpoint 1 a0.hash 2
def b1 : MacroCheckpoint := checkpoint 1 a0.hash 3
def a2 : MacroCheckpoint := checkpoint 2 a1.hash 3
def a3 : MacroCheckpoint := checkpoint 3 a2.hash 4
def b3 : MacroCheckpoint := checkpoint 3 a2.hash 5

def proposal (proposer : Nat) (cp : MacroCheckpoint) : Round × Event :=
  (0, .macroProposalReceived ⟨cp, ⟨proposer⟩, ⟨0⟩, sigOf ⟨proposer⟩⟩)

def partialOn (signer : Nat) (x : Hash32) : Round × Event :=
  (0, .blsPartialReceived ⟨0, ⟨signer⟩, x, sigOf ⟨signer⟩⟩)

def qcBy (signers : List Nat) (x : Hash32) : MacroQc :=
  ⟨x, .mode0Flat, sumSigs (signers.map fun i => sigOf ⟨i⟩), Bitmap.setAll (Bitmap.zeros 4) signers⟩

def qcReceived (signers : List Nat) (x : Hash32) : Round × Event :=
  (0, .macroQcReceived (qcBy signers x))

/- Records. -/
abbrev Record := Nat × Dst × Bytes

def recordedIn (reg : List Record) (key : Nat) (dst : Dst) (msg : Bytes) : Bool :=
  decide ((key, dst, msg) ∈ reg)

def partialsBy (signers : List Nat) (cp : MacroCheckpoint) : List Record :=
  signers.map fun i => (i, .macroCheckpoint, checkpointMessage cp)

def proposedBy (proposer : Nat) (cp : MacroCheckpoint) : Record :=
  (proposer, .macroProposerSig, proposerMessage ⟨proposer⟩ cp)

end Devnet
end LuaDag
