import LuaDag.MacroBook
import Mathlib.Data.Finset.Max

/-! L3: the macro-finality handlers (`consensus::macro_fin`). Every window of micro
QCs yields a checkpoint candidate; votes on it are aggregated flat (Mode 0), by
subnet (Mode A) or without a leader (Mode B) into a macro QC, which is adopted. -/
namespace LuaDag
namespace MacroFin

/- Signature checks (`macro_fin::verify`). -/
section Verify
variable (cr : Crypto) (set : ValidatorSet)

def verifyPartial (bp : BlsPartial) (checkpoint : MacroCheckpoint) : Bool :=
  if bp.checkpointHash ≠ checkpoint.hash then false
  else
    match VertexCert.pkFor cr set bp.validator with
    | none => false
    | some pk => cr.verify pk .macroCheckpoint (checkpointMessage checkpoint) bp.sig

def verifyProposal (p : MacroProposal) (alpha : Bytes) : Bool :=
  match entryFor set p.proposer with
  | none => false
  | some entry =>
    match cr.pkFromBytes entry.blsPubkey with
    | none => false
    | some pk =>
      cr.verify pk .macroProposerSig (proposerMessage p.proposer p.checkpoint) p.proposerSig &&
        (entry.vrfPubkey.isZero || cr.vrfVerify entry.vrfPubkey alpha p.vrfProof)

def listed (bitmap : List (BitVec 8)) : List ValidatorEntry :=
  (set.entries.zipIdx.filter fun e => Bitmap.test bitmap e.2).map (·.1)

def partialKey (target : Hash32) (checkpoint : MacroCheckpoint) (partialSigs : PartialSigs)
    (entry : ValidatorEntry) : Option PublicKey :=
  match cr.pkFromBytes entry.blsPubkey with
  | none => none
  | some pk =>
    match partialSigs[toLex (target, entry.id)]? with
    | none => none
    | some sig =>
      if cr.verify pk .macroCheckpoint (checkpointMessage checkpoint) sig then some pk else none

def verifySubnetAgg (agg : SubnetAggregate) (checkpoint : MacroCheckpoint)
    (partialSigs : PartialSigs) : Bool :=
  match (listed set agg.agg.bitmap).mapM
      (partialKey cr agg.checkpointHash checkpoint partialSigs) with
  | none => false
  | some pks =>
    !pks.isEmpty &&
      cr.verifyAggregate pks .macroCheckpoint (checkpointMessage checkpoint) agg.agg.sig

def verifyMacroQc (qc : MacroQc) (checkpoint : MacroCheckpoint) : Bool :=
  if qc.checkpointHash ≠ checkpoint.hash then false
  else
    match (listed set qc.agg.bitmap).mapM fun e => cr.pkFromBytes e.blsPubkey with
    | none => false
    | some pks =>
      !pks.isEmpty &&
        cr.verifyAggregate pks .macroCheckpoint (checkpointMessage checkpoint) qc.agg.sig

end Verify

/- Aggregation (`macro_fin::macro_qc`, `macro_fin::aggregation`). -/
section Aggregate
variable (cr : Crypto) (set : ValidatorSet) (partialSigs : PartialSigs)

def aggregateOf (target : Hash32) (signers : Finset ValidatorId) : Option BlsAggSig :=
  match (set.entries.filter fun e => decide (e.id ∈ signers)).mapM
      fun e => partialSigs[toLex (target, e.id)]? with
  | none => none
  | some sigs =>
    (cr.aggregateSigs sigs).map fun agg =>
      ⟨agg, Bitmap.setAll (Bitmap.zeros set.entries.length)
        (Bullshark.indicesWhere set.entries fun e => decide (e.id ∈ signers))⟩

def tryFinalizeMode0 (target : Hash32) (signers : Finset ValidatorId) : Option MacroQc :=
  let n := set.entries.length
  if n = 0 then none
  else if signers.card < 2 * ((n - 1) / 3) + 1 then none
  else (aggregateOf cr set partialSigs target signers).map fun agg => ⟨target, .mode0Flat, agg⟩

def tryFinalizeModeB (target : Hash32) (signers : Finset ValidatorId) : Option MacroQc :=
  (tryFinalizeMode0 cr set partialSigs target signers).map fun qc =>
    { qc with mode := .modeBLeaderless }

def tryBuildAggregate (target : Hash32) (subnet : SubnetId) (signers : Finset ValidatorId)
    (assign : SubnetAssign) : Option SubnetAggregate :=
  let n := (set.entries.filter fun e => decide (assign.indexFor cr e.id = subnet)).length
  if n = 0 then none
  else if signers.card < 2 * ((n - 1) / 3) + 1 then none
  else (aggregateOf cr set partialSigs target signers).map fun agg => ⟨subnet, target, agg⟩

def aggregatorFor (subnet : SubnetId) (assign : SubnetAssign) : Option ValidatorId :=
  ((set.entries.filter fun e => decide (assign.indexFor cr e.id = subnet)).map (·.id)).min?

def coveredIndices (aggs : List SubnetAggregate) : List Nat :=
  aggs.flatMap fun a => (List.range set.entries.length).filter (Bitmap.test a.agg.bitmap)

def tryFinalizeModeA (target : Hash32) (aggs : List SubnetAggregate) : Option MacroQc :=
  let n := set.entries.length
  if n = 0 then none
  else
    let bitmap := Bitmap.setAll (Bitmap.zeros n) (coveredIndices set aggs)
    if Bitmap.countOnes bitmap < 2 * ((n - 1) / 3) + 1 then none
    else
      match (listed set bitmap).mapM fun e => partialSigs[toLex (target, e.id)]? with
      | none => none
      | some sigs =>
        (cr.aggregateSigs sigs).map fun agg => ⟨target, .modeASubnet, agg, bitmap⟩

end Aggregate

/- Shared by the handlers. -/

def activeMode (book : MacroBook) (cfg : Config) (set : ValidatorSet) (height : Height) :
    Except Error AggregationMode :=
  if height ∈ book.modeBActive then .ok .modeBLeaderless
  else
    match toU32 set.entries.length with
    | none => .error (.panic "validator count fits u32")
    | some n => .ok (if modeAActive (computeKe cfg n) then .modeASubnet else .mode0Flat)

def beaconForHeight (book : MacroBook) (ctx : HostContext) (height : Height) :
    Except Error Hash32 :=
  match book.candidateBeacon[height]? with
  | some b => .ok b
  | none => ctx.beacon

def subnetAssign (cfg : Config) (set : ValidatorSet) (beacon : Hash32) :
    Except Error SubnetAssign :=
  match toU32 set.entries.length with
  | none => .error (.panic "validator count fits u32")
  | some n => .ok ⟨computeKe cfg n, beacon⟩

def freezeBeacon (height : Height) (beacon : Hash32) (book : MacroBook) : MacroBook :=
  { book with candidateBeacon := book.candidateBeacon.insert height beacon }

def shouldAssembleQc (book : MacroBook) (signers : Finset ValidatorId) : Bool :=
  decide (signers.min = (book.selfId : WithTop ValidatorId))

def bumpReputation (signers : Finset ValidatorId) (book : MacroBook) : MacroBook :=
  { book with
    reputation := fun v => if v ∈ signers then book.reputation v + 1 else book.reputation v }

def noteInactivityLeakOnAdoption (cfg : Config) (finalizedThisStep : Bool) (book : MacroBook) :
    Result MacroBook :=
  if finalizedThisStep then .quiet { book with unfinalizedWindows := 0, leakNotified := false }
  else
    let windows := min (book.unfinalizedWindows + 1) (2 ^ 32 - 1)
    let leak := Slashing.inactivityLeak cfg windows
    if leak.2 && !book.leakNotified then
      .ok { book with unfinalizedWindows := windows, leakNotified := true }
        [.notifyInactivityLeak windows leak.1]
    else .quiet { book with unfinalizedWindows := windows }

def adoptCheckpoint (height : Height) (candidate : MacroCheckpoint) (qc : MacroQc)
    (signers : Finset ValidatorId) (book : MacroBook) : MacroBook :=
  bumpReputation signers { book with
    emittedMacroQc := insert qc.checkpointHash book.emittedMacroQc
    twoChain := book.twoChain.adopt candidate
    lastMacroHash := candidate.hash
    nextHeight := height + 1
    proposalSeen := insert height book.proposalSeen
    timers := (book.timers.clearBackup height).clearModeB height }

def settleFinality (cfg : Config) (book : MacroBook) : Result MacroBook :=
  (noteInactivityLeakOnAdoption cfg book.twoChain.newlyFinalizedHeight.isSome book).andThen
    fun book =>
      match book.twoChain.newlyFinalizedHeight with
      | none => .quiet book
      | some prev =>
        .ok { book with twoChain := book.twoChain.markFinalized prev }
          ((book.candidate[prev]?.map fun cp =>
            Action.updateBlobStatus (blobIdOfCheckpoint cp) .finalized).toList)

def adoptionActions (candidate : MacroCheckpoint) (qc : MacroQc) : List Action :=
  [.persistMacroCheckpoint candidate, .persistMacroQc qc,
    .updateBlobStatus (blobIdOfCheckpoint candidate) .justified]

def finishMacroQcAdoption (cfg : Config) (height : Height) (candidate : MacroCheckpoint)
    (qc : MacroQc) (signers : Finset ValidatorId) (book : MacroBook) : Result MacroBook :=
  (Outcome.ok (adoptCheckpoint height candidate qc signers book)
    (.broadcastMacroQc qc :: adoptionActions candidate qc)).andThen (settleFinality cfg)

section Handlers
variable (cr : Crypto) (cfg : Config) (ctx : HostContext)

def propose (beacon : Hash32) (height : Height) (candidate : MacroCheckpoint)
    (book : MacroBook) : Result MacroBook :=
  match ctx.vrfProve (vrfAlpha beacon height book.selfId) with
  | .error e => .fail book e
  | .ok (proof, _) =>
    let msg := proposerMessage book.selfId candidate
    ⟨{ book with proposalSeen := insert height book.proposalSeen }, [(.macroProposerSig, msg)],
      .ok [.broadcastMacroProposal
        ⟨candidate, book.selfId, proof, ctx.signBls .macroProposerSig msg⟩]⟩

def armModeB (height : Height) (book : MacroBook) : Result MacroBook :=
  match cfg.aggregation.simForceKe with
  | some _ => .quiet book
  | none =>
    let armed := book.timers.modeBDeadlineAction cfg height
    .ok { book with timers := armed.2 } [armed.1]

def windowCandidate (book : MacroBook) : MacroCheckpoint :=
  build cr book.nextHeight 0 book.lastMacroHash (microRootOfRing cr book.microRing)

def installCandidate (book : MacroBook) : MacroBook :=
  { book with
    microRing := []
    candidate := book.candidate.insert book.nextHeight (windowCandidate cr book) }

def takeRole (set : ValidatorSet) (beacon : Hash32) (height : Height)
    (candidate : MacroCheckpoint) (book : MacroBook) : Result MacroBook :=
  match vrfSortition cr beacon set height book.reputation with
  | .error e => .fail book e
  | .ok schedule =>
    if schedule.primary = book.selfId then propose ctx beacon height candidate book
    else if schedule.backup = book.selfId then
      let armed := book.timers.backupProposeAction cfg height
      .ok { book with timers := armed.2 } [armed.1]
    else .quiet book

def closeWindow (set : ValidatorSet) (book : MacroBook) : Result MacroBook :=
  let height := book.nextHeight
  let candidate := windowCandidate cr book
  let book := installCandidate cr book
  match ctx.beacon with
  | .error e => .fail book e
  | .ok beacon =>
    (takeRole cr cfg ctx set beacon height candidate (freezeBeacon height beacon book)).andThen
      (armModeB cfg height)

def pushMicroQc (set : ValidatorSet) (h : Hash32) (book : MacroBook) : Result MacroBook :=
  let book := { book with microRing := book.microRing ++ [h] }
  if book.microRing.length < cfg.macroFin.macroWindowW then .quiet book
  else closeWindow cr cfg ctx set book

def microQcHash : Action → Option Hash32
  | .broadcastMicroQc qc => some qc.checkpointHash
  | _ => none

def onLocalMicroQcs (actions : List Action) (book : MacroBook) : Result MacroBook :=
  match actions.filterMap microQcHash with
  | [] => .quiet book
  | hashes =>
    match activeSet ctx with
    | .error e => .fail book e
    | .ok set =>
      hashes.foldl (fun o h => o.andThen (pushMicroQc cr cfg ctx set h)) (.quiet book)

def joinSubnet (set : ValidatorSet) (assign : SubnetAssign) (hash : Hash32) (subnet : SubnetId)
    (validator : ValidatorId) (book : MacroBook) : Result MacroBook :=
  let signers := insert validator (book.subnetPartials[toLex (hash, subnet)]?.getD ∅)
  let book := { book with
    subnetPartials := book.subnetPartials.insert (toLex (hash, subnet)) signers }
  match tryBuildAggregate cr set book.partialSigs hash subnet signers assign with
  | none => .quiet book
  | some agg =>
    if aggregatorFor cr set subnet assign = some book.selfId then
      .ok book [.broadcastSubnetAggregate agg]
    else .quiet book

def announcePartial (mode : AggregationMode) (subnet : SubnetId) (cp : MacroCheckpoint)
    (book : MacroBook) : Result MacroBook :=
  let msg := checkpointMessage cp
  let sig := ctx.signBls .macroCheckpoint msg
  ⟨{ book with partialSigs := book.partialSigs.insert (toLex (cp.hash, book.selfId)) sig },
    [(.macroCheckpoint, msg)],
    .ok [.broadcastBlsPartial
      ⟨if mode = .modeASubnet then subnet else 0, book.selfId, cp.hash, sig⟩]⟩

def addSigner (hash : Hash32) (validator : ValidatorId) (book : MacroBook) : MacroBook :=
  { book with partials := book.partials.insert hash (insert validator (book.signersOf hash)) }

def voteRecord (height : Height) (checkpoint : Hash32) : VoteRecord :=
  let unsigned : VoteRecord := ⟨height - 1, height, checkpoint, ⟨0⟩⟩
  { unsigned with sig := ctx.signBls .macroVote (voteMessage unsigned) }

/-- Everything the vote for `cp` writes before the partial is signed. -/
def recordVote (locks : LockMacro) (cp : MacroCheckpoint) (book : MacroBook) : MacroBook :=
  addSigner cp.hash book.selfId { book with
    locks := locks
    proposalSeen := insert cp.height book.proposalSeen
    timers := book.timers.clearBackup cp.height
    twoChain := book.twoChain.adopt cp
    candidate := book.candidate.insert cp.height cp
    votes := book.votes.record book.selfId (voteRecord ctx cp.height cp.hash) }

def selfEvidence (votes : VoteBook) (selfId : ValidatorId) : List Action :=
  ((Slashing.scanForSurround votes selfId).map fun ev =>
    Action.emitSlashEvidence selfId (.surround ev)).toList ++
  ((Slashing.scanForDoubleVote votes selfId).map fun ev =>
    Action.emitSlashEvidence selfId (.doubleVote ev)).toList

def castVote (set : ValidatorSet) (beacon : Hash32) (mode : AggregationMode)
    (locks : LockMacro) (cp : MacroCheckpoint) (book : MacroBook) : Result MacroBook :=
  let voted := recordVote ctx locks cp book
  let voteReq : SignReq := (.macroVote, voteMessage ⟨cp.height - 1, cp.height, cp.hash, ⟨0⟩⟩)
  match subnetAssign cfg set beacon with
  | .error e => ⟨voted, [voteReq], .error e⟩
  | .ok assign =>
    let subnet := assign.indexFor cr book.selfId
    let recorded : Result MacroBook :=
      ⟨voted, [voteReq], .ok (selfEvidence voted.votes voted.selfId)⟩
    ((recorded.andThen (announcePartial ctx mode subnet cp)).andThen fun book =>
        .ok book [.updateBlobStatus (blobIdOfCheckpoint cp) .softConfirmed]).andThen fun book =>
      if mode = .modeASubnet then joinSubnet cr set assign cp.hash subnet book.selfId book
      else .quiet book

def matchesCandidate (book : MacroBook) (cp : MacroCheckpoint) : Bool :=
  book.candidate[cp.height]?.any fun c => c.microRoot = cp.microRoot ∧ c.hash = cp.hash

def maySpeak (mode : AggregationMode) (schedule : ProposerSchedule) (proposer : ValidatorId) :
    Bool :=
  decide (mode = .modeBLeaderless ∨ proposer = schedule.primary ∨ proposer = schedule.backup)

/-- The checks of a proposal not seen before, then the lock, then the vote. -/
def considerProposal (set : ValidatorSet) (beacon : Hash32) (p : MacroProposal)
    (book : MacroBook) : Result MacroBook :=
  let cp := p.checkpoint
  match vrfSortition cr beacon set cp.height book.reputation with
  | .error e => .fail book e
  | .ok schedule =>
    match activeMode book cfg set cp.height with
    | .error e => .fail book e
    | .ok mode =>
      if !maySpeak mode schedule p.proposer then .quiet book
      else if cp.parent ≠ book.lastMacroHash then .quiet book
      else if !matchesCandidate book cp then .quiet book
      else
        match book.locks.tryLock book.selfId cp.height cp.hash with
        | .error _ => .quiet { book with suppressedConflicts := book.suppressedConflicts + 1 }
        | .ok locks => castVote cr cfg ctx set beacon mode locks cp book

def onMacroProposal (p : MacroProposal) (book : MacroBook) : Result MacroBook :=
  match activeSet ctx with
  | .error e => .fail book e
  | .ok set =>
    let height := p.checkpoint.height
    match beaconForHeight book ctx height with
    | .error e => .fail book e
    | .ok beacon =>
      let book := freezeBeacon height beacon book
      if !verifyProposal cr set p (vrfAlpha beacon height p.proposer) then
        .quiet { book with rejectedCrypto := book.rejectedCrypto + 1 }
      else
        let key := toLex (height, p.proposer)
        match book.proposalsSeen[key]?.getD [] with
        | first :: rest =>
          if (first :: rest).any (·.checkpoint.hash ≠ p.checkpoint.hash) then
            .ok book [.emitSlashEvidence p.proposer (.macroEquivocation
              ⟨p.proposer, (first.checkpoint, first.proposerSig),
                (p.checkpoint, p.proposerSig)⟩)]
          else .quiet book
        | [] =>
          considerProposal cr cfg ctx set beacon p
            { book with proposalsSeen := book.proposalsSeen.insert key [p] }

def tryEmitModeAQc (checkpointHash : Hash32) (height : Height) (book : MacroBook) :
    Result MacroBook :=
  match activeSet ctx with
  | .error e => .fail book e
  | .ok set =>
    if height ∈ book.modeBActive then .quiet book
    else
      match beaconForHeight book ctx height with
      | .error e => .fail book e
      | .ok beacon =>
        match vrfSortition cr beacon set height book.reputation with
        | .error e => .fail book e
        | .ok schedule =>
          if book.selfId ≠ schedule.primary then .quiet book
          else
            let aggs := (book.subnetAggs[checkpointHash]?.getD ∅).toList.map (·.2)
            match tryFinalizeModeA cr set book.partialSigs checkpointHash aggs with
            | none => .quiet book
            | some qc =>
              if checkpointHash ∈ book.emittedMacroQc then .quiet book
              else
                match book.candidate[height]? with
                | none => .fail book (.panic "candidate for subnet finalize")
                | some candidate =>
                  finishMacroQcAdoption cfg height candidate qc (book.signersOf checkpointHash)
                    book

def collectSubnet (set : ValidatorSet) (beacon : Hash32) (assign : SubnetAssign)
    (height : Height) (bp : BlsPartial) (book : MacroBook) : Result MacroBook :=
  (joinSubnet cr set assign bp.checkpointHash bp.subnet bp.validator
    (addSigner bp.checkpointHash bp.validator book)).andThen fun book =>
    match vrfSortition cr beacon set height book.reputation with
    | .error e => .fail book e
    | .ok schedule =>
      if book.selfId = schedule.primary then
        tryEmitModeAQc cr cfg ctx bp.checkpointHash height book
      else .quiet book

def collectFlat (set : ValidatorSet) (mode : AggregationMode) (height : Height)
    (candidate : MacroCheckpoint) (bp : BlsPartial) (book : MacroBook) : Result MacroBook :=
  if mode = .mode0Flat ∧ bp.subnet ≠ 0 then .quiet book
  else
    let book := addSigner bp.checkpointHash bp.validator book
    let signers := book.signersOf bp.checkpointHash
    if !shouldAssembleQc book signers then .quiet book
    else
      let qc :=
        if mode = .modeBLeaderless then
          tryFinalizeModeB cr set book.partialSigs bp.checkpointHash signers
        else tryFinalizeMode0 cr set book.partialSigs bp.checkpointHash signers
      match qc with
      | none => .quiet book
      | some qc => finishMacroQcAdoption cfg height candidate qc signers book

def onBlsPartial (bp : BlsPartial) (book : MacroBook) : Result MacroBook :=
  match book.findCandidate bp.checkpointHash with
  | none => .quiet book
  | some (height, checkpoint) =>
    match activeSet ctx with
    | .error e => .fail book e
    | .ok set =>
      if !verifyPartial cr set bp checkpoint then
        .quiet { book with rejectedCrypto := book.rejectedCrypto + 1 }
      else
        let book := { book with
          partialSigs := book.partialSigs.insert (toLex (bp.checkpointHash, bp.validator)) bp.sig }
        if bp.checkpointHash ∈ book.emittedMacroQc then .quiet book
        else
          match activeMode book cfg set height with
          | .error e => .fail book e
          | .ok mode =>
            match beaconForHeight book ctx height with
            | .error e => .fail book e
            | .ok beacon =>
              match subnetAssign cfg set beacon with
              | .error e => .fail book e
              | .ok assign =>
                if mode = .modeASubnet then
                  collectSubnet cr cfg ctx set beacon assign height bp book
                else collectFlat cr cfg set mode height checkpoint bp book

def onMacroQcReceived (qc : MacroQc) (book : MacroBook) : Result MacroBook :=
  if qc.checkpointHash ∈ book.emittedMacroQc then .quiet book
  else
    match activeSet ctx with
    | .error e => .fail book e
    | .ok set =>
      match book.findCandidate qc.checkpointHash with
      | none => .quiet book
      | some (height, candidate) =>
        if !verifyMacroQc cr set qc candidate then
          .quiet { book with rejectedCrypto := book.rejectedCrypto + 1 }
        else
          (Outcome.ok (adoptCheckpoint height candidate qc (book.signersOf qc.checkpointHash) book)
            (adoptionActions candidate qc)).andThen (settleFinality cfg)

def onSubnetAggregate (agg : SubnetAggregate) (book : MacroBook) : Result MacroBook :=
  match book.findCandidate agg.checkpointHash with
  | none => .quiet book
  | some (height, checkpoint) =>
    match activeSet ctx with
    | .error e => .fail book e
    | .ok set =>
      if !verifySubnetAgg cr set agg checkpoint book.partialSigs then
        .quiet { book with rejectedCrypto := book.rejectedCrypto + 1 }
      else
        let aggs := book.subnetAggs[agg.checkpointHash]?.getD ∅
        tryEmitModeAQc cr cfg ctx agg.checkpointHash height { book with
          subnetAggs := book.subnetAggs.insert agg.checkpointHash (aggs.insert agg.subnet agg) }

def onBackupTimer (height : Height) (book : MacroBook) : Result MacroBook :=
  let book := { book with timers := book.timers.clearBackup height }
  if height ∈ book.proposalSeen then .quiet book
  else
    match book.candidate[height]? with
    | none => .quiet book
    | some candidate =>
      match activeSet ctx with
      | .error e => .fail book e
      | .ok set =>
        match beaconForHeight book ctx height with
        | .error e => .fail book e
        | .ok beacon =>
          match vrfSortition cr beacon set height book.reputation with
          | .error e => .fail book e
          | .ok schedule =>
            if schedule.backup = book.selfId then propose ctx beacon height candidate book
            else .quiet book

def castModeBVote (height : Height) (cp : MacroCheckpoint) (book : MacroBook) :
    Result MacroBook :=
  match activeSet ctx with
  | .error e => .fail book e
  | .ok set =>
    match beaconForHeight book ctx height with
    | .error e => .fail book e
    | .ok beacon =>
      match subnetAssign cfg set beacon with
      | .error e => .fail book e
      | .ok assign =>
        match activeMode book cfg set height with
        | .error e => .fail book e
        | .ok mode =>
          announcePartial ctx mode (assign.indexFor cr book.selfId) cp
            (addSigner cp.hash book.selfId book)

/-- Mode B deadline: activate it unless the height is adopted, and vote. -/
def onModeBTimer (height : Height) (book : MacroBook) : Result MacroBook :=
  let book := { book with timers := book.timers.clearModeB height }
  let alreadyFinalized :=
    book.candidate[height]?.any fun c => decide (c.hash ∈ book.emittedMacroQc)
  let book :=
    if alreadyFinalized then book
    else { book with modeBActive := insert height book.modeBActive }
  if height ∉ book.modeBActive then .quiet book
  else
    match book.candidate[height]? with
    | none => .quiet book
    | some cp =>
      match book.locks.tryLock book.selfId height cp.hash with
      | .error _ => .quiet book
      | .ok locks => castModeBVote cr cfg ctx height cp { book with locks := locks }

def onTimerFired (id : TimerId) (book : MacroBook) : Result MacroBook :=
  match book.timers.heightForBackupTimer id with
  | some height => onBackupTimer cr ctx height book
  | none =>
    match book.timers.heightForModeBTimer id with
    | some height => onModeBTimer cr cfg ctx height book
    | none => .quiet book

end Handlers
end MacroFin
end LuaDag
