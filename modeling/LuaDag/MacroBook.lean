import LuaDag.Bullshark

/-! L3 state and its parts: locks, two-chain rule, vote history, macro timers,
proposer schedule, message encodings (`consensus::macro_fin`, `lock_macro`,
`slashing`). -/
namespace LuaDag

structure LockMacro where
  locks : Std.TreeMap ValidatorId (Height × Hash32) := ∅

/-- Fails only against a different checkpoint locked at the same height. -/
def LockMacro.tryLock (l : LockMacro) (validator : ValidatorId) (height : Height)
    (checkpoint : Hash32) : Except String LockMacro :=
  match l.locks[validator]? with
  | some (h, prev) =>
    if h = height ∧ prev ≠ checkpoint then
      .error "validator already locked to a conflicting checkpoint at this height"
    else .ok ⟨l.locks.insert validator (height, checkpoint)⟩
  | none => .ok ⟨l.locks.insert validator (height, checkpoint)⟩

structure TwoChainRule where
  adopted : Std.TreeMap Height MacroCheckpoint := ∅
  justifiedHead : Option Hash32 := none
  finalizedHead : Option Hash32 := none

namespace TwoChainRule

def adopt (r : TwoChainRule) (cp : MacroCheckpoint) : TwoChainRule :=
  let entry := r.adopted[cp.height]?.getD cp
  { r with
    adopted := r.adopted.insert cp.height entry
    justifiedHead := if entry.hash = cp.hash then some cp.hash else r.justifiedHead }

def justifiedHeadHeight (r : TwoChainRule) : Option Height :=
  r.justifiedHead.bind fun head =>
    (r.adopted.toList.reverse.find? (·.2.hash = head)).map (·.1)

def isJustified (r : TwoChainRule) (height : Height) : Bool :=
  r.adopted.contains height

def newlyFinalizedHeight (r : TwoChainRule) : Option Height :=
  match r.justifiedHeadHeight with
  | none => none
  | some 0 => none
  | some (prev + 1) =>
    match r.adopted[prev + 1]?, r.adopted[prev]? with
    | some headCp, some prevCp =>
      if headCp.parent = prevCp.hash ∧ r.finalizedHead ≠ some prevCp.hash then some prev else none
    | _, _ => none

def markFinalized (r : TwoChainRule) (prev : Height) : TwoChainRule :=
  match r.adopted[prev]? with
  | some cp => { r with finalizedHead := some cp.hash }
  | none => r

end TwoChainRule

structure VoteRecord where
  source : Epoch
  target : Epoch
  checkpoint : Hash32
  sig : BlsSig
deriving DecidableEq, Repr

structure VoteBook where
  votes : Std.TreeMap ValidatorId (List VoteRecord) := ∅

def VoteBook.votesOf (b : VoteBook) (validator : ValidatorId) : List VoteRecord :=
  b.votes[validator]?.getD []

def VoteBook.record (b : VoteBook) (validator : ValidatorId) (r : VoteRecord) : VoteBook :=
  ⟨b.votes.insert validator (b.votesOf validator ++ [r])⟩

@[simp] theorem VoteBook.votesOf_record (b : VoteBook) (v : ValidatorId) (r : VoteRecord) :
    (b.record v r).votesOf v = b.votesOf v ++ [r] := by
  simp [VoteBook.votesOf, VoteBook.record]

theorem VoteBook.votesOf_record_other (b : VoteBook) {u v : ValidatorId} (huv : u ≠ v)
    (r : VoteRecord) : (b.record u r).votesOf v = b.votesOf v := by
  simp only [VoteBook.votesOf, VoteBook.record, Std.TreeMap.getElem?_insert, compare_eq_iff_eq,
    if_neg huv]

namespace Slashing

def surrounds (aSource aTarget bSource bTarget : Epoch) : Bool :=
  decide (aSource < bSource) && decide (bSource ≤ bTarget) && decide (bTarget < aTarget)

def scanForSurround (book : VoteBook) (validator : ValidatorId) : Option SurroundVote :=
  let votes := book.votesOf validator
  if votes.length < 2 then none
  else
    votes.getLast?.bind fun new =>
      votes.dropLast.findSome? fun old =>
        if surrounds new.source new.target old.source old.target then
          some ⟨validator, new.source, new.target, new.sig, new.checkpoint,
            old.source, old.target, old.sig, old.checkpoint⟩
        else if surrounds old.source old.target new.source new.target then
          some ⟨validator, old.source, old.target, old.sig, old.checkpoint,
            new.source, new.target, new.sig, new.checkpoint⟩
        else none

def scanForDoubleVote (book : VoteBook) (validator : ValidatorId) : Option DoubleVote :=
  let votes := book.votesOf validator
  if votes.length < 2 then none
  else
    votes.getLast?.bind fun new =>
      votes.dropLast.findSome? fun old =>
        if old.target = new.target ∧ old.checkpoint ≠ new.checkpoint then
          some ⟨validator, new.target, old.checkpoint, old.sig, new.checkpoint, new.sig⟩
        else none

def inactivityLeak (cfg : Config) (unfinalizedWindows : Nat) : Nat × Bool :=
  (cfg.macroFin.inactivityLeakBpsPerWindow,
    decide (cfg.macroFin.inactivityLeakTriggerWindows ≤ unfinalizedWindows))

end Slashing

structure MacroTimerBook where
  seq : TimerScheduler := {}
  backupByHeight : Std.TreeMap Height TimerId := ∅
  modeBByHeight : Std.TreeMap Height TimerId := ∅

namespace MacroTimerBook

def clearBackup (t : MacroTimerBook) (height : Height) : MacroTimerBook :=
  { t with backupByHeight := t.backupByHeight.erase height }

def clearModeB (t : MacroTimerBook) (height : Height) : MacroTimerBook :=
  { t with modeBByHeight := t.modeBByHeight.erase height }

def heightForBackupTimer (t : MacroTimerBook) (id : TimerId) : Option Height :=
  (t.backupByHeight.toList.find? (·.2 = id)).map (·.1)

def heightForModeBTimer (t : MacroTimerBook) (id : TimerId) : Option Height :=
  (t.modeBByHeight.toList.find? (·.2 = id)).map (·.1)

def backupProposeAction (t : MacroTimerBook) (cfg : Config) (height : Height) :
    Action × MacroTimerBook :=
  let id := t.seq.allocate.1
  (.scheduleTimer id (cfg.timing.tMacroproposeMs * 1000000),
    { t with seq := t.seq.allocate.2, backupByHeight := t.backupByHeight.insert height id })

def modeBDeadlineAction (t : MacroTimerBook) (cfg : Config) (height : Height) :
    Action × MacroTimerBook :=
  let id := t.seq.allocate.1
  (.scheduleTimer id (cfg.timing.tMacroproposeMs * 2000000),
    { t with seq := t.seq.allocate.2, modeBByHeight := t.modeBByHeight.insert height id })

end MacroTimerBook

abbrev Reputation := Nat

abbrev PartialSigs := Std.TreeMap (Hash32 ×ₗ ValidatorId) BlsSig

structure MacroBook where
  selfId : ValidatorId
  microRing : List Hash32 := []
  nextHeight : Height := 0
  lastMacroHash : Hash32 := Hash32.zero
  candidate : Std.TreeMap Height MacroCheckpoint := ∅
  candidateBeacon : Std.TreeMap Height Hash32 := ∅
  partials : Std.TreeMap Hash32 (Finset ValidatorId) := ∅
  emittedMacroQc : Finset Hash32 := ∅
  twoChain : TwoChainRule := {}
  locks : LockMacro := {}
  suppressedConflicts : Nat := 0
  proposalSeen : Finset Height := ∅
  modeBActive : Finset Height := ∅
  reputation : ValidatorId → Reputation := fun _ => 0
  timers : MacroTimerBook := {}
  subnetAggs : Std.TreeMap Hash32 (Std.TreeMap SubnetId SubnetAggregate) := ∅
  subnetPartials : Std.TreeMap (Hash32 ×ₗ SubnetId) (Finset ValidatorId) := ∅
  votes : VoteBook := {}
  partialSigs : PartialSigs := ∅
  proposalsSeen : Std.TreeMap (Height ×ₗ ValidatorId) (List MacroProposal) := ∅
  rejectedCrypto : Nat := 0
  unfinalizedWindows : Nat := 0
  leakNotified : Bool := false

def MacroBook.new (selfId : ValidatorId) : MacroBook := { selfId := selfId }

def MacroBook.signersOf (book : MacroBook) (h : Hash32) : Finset ValidatorId :=
  book.partials[h]?.getD ∅

def MacroBook.findCandidate (book : MacroBook) (h : Hash32) : Option (Height × MacroCheckpoint) :=
  book.candidate.toList.find? (·.2.hash = h)

namespace MacroFin

/- Encodings (`macro_fin::messages`, `checkpoint`, `book`, `proposer`). -/
def proposerMessage (proposer : ValidatorId) (cp : MacroCheckpoint) : Bytes :=
  .idHash proposer cp.hash

def checkpointMessage (cp : MacroCheckpoint) : Bytes := .checkpoint cp

def voteMessage (r : VoteRecord) : Bytes := .vote r.source r.target r.checkpoint

def vrfAlpha (beacon : Hash32) (height : Height) (id : ValidatorId) : Bytes :=
  .beaconSlot beacon height id

def microRootOfRing (cr : Crypto) (ring : List Hash32) : Hash32 :=
  cr.blake3WithDst .macroMicroRoot (.concat ring)

def build (cr : Crypto) (height : Height) (epoch : Epoch) (parent microRoot : Hash32) :
    MacroCheckpoint :=
  ⟨height, epoch, parent, microRoot,
    cr.blake3WithDst .macroCheckpoint (.checkpointFields height epoch parent microRoot)⟩

def blobIdOfCheckpoint (cp : MacroCheckpoint) : BlobId :=
  ⟨cp.hash.val / 2 ^ 128 * 2 ^ 128⟩

structure ProposerSchedule where
  height : Height
  primary : ValidatorId
  backup : ValidatorId
deriving DecidableEq, Repr

def macroSortitionBeta (cr : Crypto) (beacon : Hash32) (height : Height) (id : ValidatorId) :
    Hash32 :=
  cr.blake3WithDst .macroProposal (.beaconSlot beacon height id)

/-- The two lowest `(score, id)` pairs; indexing panics below two entries. -/
def vrfSortition (cr : Crypto) (beacon : Hash32) (set : ValidatorSet) (height : Height)
    (reputation : ValidatorId → Reputation) : Except Error ProposerSchedule :=
  let scored : List (Nat ×ₗ ValidatorId) := set.entries.map fun e =>
    toLex (cr.sortitionScore (macroSortitionBeta cr beacon height e.id) set.totalStake e.stake
      (reputation e.id), e.id)
  match scored.insertionSort (· ≤ ·) with
  | a :: b :: _ => .ok ⟨height, (ofLex a).2, (ofLex b).2⟩
  | _ => .error (.panic "index out of bounds")

/- Subnets (`macro_fin::aggregation`). -/
def computeKe (cfg : Config) (n : Nat) : Nat :=
  match cfg.aggregation.simForceKe with
  | some k => k
  | none => if n < cfg.aggregation.subnetFlatThreshold then 0 else min ((n + 127) / 128) 32

def modeAActive (ke : Nat) : Bool := decide (4 ≤ ke)

structure SubnetAssign where
  ke : Nat
  rMacro : Hash32

def SubnetAssign.indexFor (cr : Crypto) (a : SubnetAssign) (id : ValidatorId) : SubnetId :=
  let h := cr.blake3WithDst .subnetAssign (.idHash id a.rMacro)
  h.val / 2 ^ 224 % 2 ^ 32 % max a.ke 1

end MacroFin
end LuaDag
