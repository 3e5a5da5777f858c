import LuaDag.VertexCert
import Mathlib.Data.List.Sort

/-! L2: Bullshark micro-ordering (`consensus::bullshark`). A wave is four rounds;
its anchor commits once enough later authors reach it, and the committed causal
past is linearized into a micro checkpoint. -/
namespace LuaDag
namespace Bullshark

abbrev WaveId := Nat

def firstRound (w : WaveId) : Round := w * 4
def waveOfRound (round : Round) : WaveId := round / 4

def sortitionBeta (cr : Crypto) (beacon : Hash32) (wave : WaveId) (id : ValidatorId) : Hash32 :=
  cr.blake3WithDst .beacon (.beaconSlot beacon wave id)

def betterAnchor (best : Option (ValidatorId × Nat)) (c : ValidatorId × Nat) :
    Option (ValidatorId × Nat) :=
  match best with
  | none => some c
  | some prev =>
    if c.2 < prev.2 then some c
    else if c.2 = prev.2 ∧ c.1 < prev.1 then some c
    else some prev

def selectAnchor (cr : Crypto) (wave : WaveId) (set : ValidatorSet) (ctx : HostContext) :
    Except Error ValidatorId :=
  if set.entries.isEmpty then
    .error (.invalidConfig "anchor selection on empty validator set")
  else
    match ctx.beacon with
    | .error e => .error e
    | .ok beacon =>
      let scored := set.entries.map fun e =>
        (e.id, cr.sortitionScore (sortitionBeta cr beacon wave e.id) set.totalStake e.stake 0)
      match scored.foldl betterAnchor none with
      | some best => .ok best.1
      | none => .error (.panic "non-empty set guarantees a winner")

def pushParents : List Hash32 → Finset Hash32 → List Hash32 → Finset Hash32 × List Hash32
  | [], visited, queue => (visited, queue)
  | p :: ps, visited, queue =>
    if p ∈ visited then pushParents ps visited queue
    else pushParents ps (insert p visited) (queue ++ [p])

def reachLoop (dag : DagView) (target : Hash32) :
    Nat → Finset Hash32 → List Hash32 → Except Error Bool
  | _, _, [] => .ok false
  | 0, _, _ :: _ => .error .overflow
  | fuel + 1, visited, h :: queue =>
    if h = target then .ok true
    else
      match dag.vertex h with
      | .error e => .error e
      | .ok none => reachLoop dag target fuel visited queue
      | .ok (some v) =>
        let next := pushParents v.vertex.parents visited queue
        reachLoop dag target fuel next.1 next.2

def vertexReaches (start : CertifiedVertex) (target : Hash32) (ctx : HostContext) :
    Except Error Bool :=
  if start.vertex.hash = target then .ok true
  else reachLoop ctx.dag target ctx.fuel start.vertex.parents.toFinset start.vertex.parents

def addSupporters (anchorHash : Hash32) (ctx : HostContext) :
    List CertifiedVertex → Finset ValidatorId → Except Error (Finset ValidatorId)
  | [], supporters => .ok supporters
  | v :: vs, supporters =>
    match vertexReaches v anchorHash ctx with
    | .error e => .error e
    | .ok reaches =>
      addSupporters anchorHash ctx vs
        (if reaches then insert v.vertex.author supporters else supporters)

def countSupporters (anchorHash : Hash32) (anchorRound : Round) (ctx : HostContext) :
    Nat → Except Error (Finset ValidatorId)
  | 0 => .ok ∅
  | window + 1 =>
    match countSupporters anchorHash anchorRound ctx window with
    | .error e => .error e
    | .ok supporters =>
      match ctx.dag.verticesAtRound (anchorRound + (window + 1)) with
      | .error e => .error e
      | .ok vs => addSupporters anchorHash ctx vs supporters

inductive CommitPath where
  | shortcut | slowPath
deriving DecidableEq, Repr

structure CommitDecision where
  wave : WaveId
  path : CommitPath
  anchorHash : Hash32
deriving DecidableEq, Repr

def tryCommitWave (cr : Crypto) (wave : WaveId) (cfg : Config) (set : ValidatorSet)
    (ctx : HostContext) (timedOut : Bool) : Except Error (Option CommitDecision) :=
  if set.entries.isEmpty then .ok none
  else
    match selectAnchor cr wave set ctx with
    | .error e => .error e
    | .ok author =>
      let anchorRound := firstRound wave
      match ctx.dag.verticesAtRound anchorRound with
      | .error e => .error e
      | .ok vs =>
        match vs.find? (·.vertex.author = author) with
        | none => .ok none
        | some anchor =>
          let anchorHash := anchor.vertex.hash
          let need := 2 * ((set.entries.length - 1) / 3) + 1
          match countSupporters anchorHash anchorRound ctx cfg.bullshark.shortcutRoundCount with
          | .error e => .error e
          | .ok shortcut =>
            if need ≤ shortcut.card then .ok (some ⟨wave, .shortcut, anchorHash⟩)
            else if timedOut then
              match countSupporters anchorHash anchorRound ctx
                  cfg.bullshark.slowPathRoundCount with
              | .error e => .error e
              | .ok slow =>
                if need ≤ slow.card then .ok (some ⟨wave, .slowPath, anchorHash⟩) else .ok none
            else .ok none

def closureLoop (dag : DagView) :
    Nat → Finset Hash32 → List Hash32 → List Hash32 → Except Error (List Hash32)
  | _, _, [], order => .ok order
  | 0, _, _ :: _, _ => .error .overflow
  | fuel + 1, visited, h :: queue, order =>
    match dag.vertex h with
    | .error e => .error e
    | .ok none => closureLoop dag fuel visited queue (order ++ [h])
    | .ok (some cv) =>
      let next := pushParents (cv.vertex.parents.insertionSort (· ≤ ·)) visited queue
      closureLoop dag fuel next.1 next.2 (order ++ [h])

def closureOfAnchor (anchorHash : Hash32) (ctx : HostContext) : Except Error (List Hash32) :=
  closureLoop ctx.dag ctx.fuel {anchorHash} [anchorHash] []

def checkpointHashFromLinearization (cr : Crypto) (order : List Hash32) : Hash32 :=
  cr.blake3WithDst .microQc (.hashes order)

def lookupAll (dag : DagView) : List Hash32 → Except Error (List CertifiedVertex)
  | [] => .ok []
  | h :: hs =>
    match dag.vertex h with
    | .error e => .error e
    | .ok v => (lookupAll dag hs).map (v.toList ++ ·)

def indicesWhere (entries : List ValidatorEntry) (p : ValidatorEntry → Bool) : List Nat :=
  (List.range entries.length).filter fun i => entries[i]?.any p

def repeatedSig (b : Nat) : BlsSig := ⟨b * ((256 ^ 96 - 1) / 255)⟩

def microQcTryFinalize (checkpointHash : Hash32) (linearized : List CertifiedVertex)
    (ctx : HostContext) : Except Error (Option MicroQc) :=
  match activeSet ctx with
  | .error e => .error e
  | .ok set =>
    let n := set.entries.length
    if n = 0 then .ok none
    else
      let authors := (linearized.map (·.vertex.author)).toFinset
      let need := 2 * ((n - 1) / 3) + 1
      if authors.card < need then .ok none
      else
        let bitmap := Bitmap.setAll (Bitmap.zeros n)
          (indicesWhere set.entries fun e => decide (e.id ∈ authors))
        .ok (some ⟨checkpointHash, repeatedSig 0xAB, bitmap⟩)

structure WaveBook where
  emitted : Finset Hash32 := ∅
  committedWaves : Finset Nat := ∅
  slowTimerByWave : Std.TreeMap Nat TimerId := ∅
  timerToWave : Std.TreeMap Nat WaveId := ∅
  timers : TimerScheduler := {}

def slowPathDelayNanos (cfg : Config) : Nat :=
  cfg.bullshark.shortcutRoundCount * cfg.timing.roundDurationMs * 1000000

def anchorPresent (cr : Crypto) (wave : WaveId) (set : ValidatorSet) (ctx : HostContext) :
    Except Error Bool :=
  match selectAnchor cr wave set ctx with
  | .error e => .error e
  | .ok author =>
    match ctx.dag.verticesAtRound (firstRound wave) with
    | .error e => .error e
    | .ok vs => .ok (vs.any (·.vertex.author = author))

def armSlowTimer (cr : Crypto) (wave : WaveId) (cfg : Config) (set : ValidatorSet)
    (ctx : HostContext) (timedOut : Bool) (book : WaveBook) : Result WaveBook :=
  if !timedOut && !book.slowTimerByWave.contains wave then
    match anchorPresent cr wave set ctx with
    | .error e => .fail book e
    | .ok false => .quiet book
    | .ok true =>
      let id := book.timers.allocate.1
      .ok { book with
          timers := book.timers.allocate.2
          slowTimerByWave := book.slowTimerByWave.insert wave id
          timerToWave := book.timerToWave.insert id wave }
        [.scheduleTimer id (slowPathDelayNanos cfg)]
  else .quiet book

def emitCommitted (cr : Crypto) (anchorHash : Hash32) (ctx : HostContext) (book : WaveBook) :
    Result WaveBook :=
  match closureOfAnchor anchorHash ctx with
  | .error e => .fail book e
  | .ok order =>
    let checkpoint := checkpointHashFromLinearization cr order
    if checkpoint ∈ book.emitted then .quiet book
    else
      match lookupAll ctx.dag order with
      | .error e => .fail book e
      | .ok linearized =>
        match microQcTryFinalize checkpoint linearized ctx with
        | .error e => .fail book e
        | .ok none => .quiet book
        | .ok (some qc) =>
          .ok { book with emitted := insert checkpoint book.emitted } [.broadcastMicroQc qc]

def tryEmitForWave (cr : Crypto) (wave : WaveId) (cfg : Config) (ctx : HostContext)
    (timedOut : Bool) (book : WaveBook) : Result WaveBook :=
  if wave ∈ book.committedWaves then .quiet book
  else
    match ctx.setFor 0 with
    | .error e => .fail book e
    | .ok none => .quiet book
    | .ok (some set) =>
      match tryCommitWave cr wave cfg set ctx timedOut with
      | .error e => .fail book e
      | .ok none => armSlowTimer cr wave cfg set ctx timedOut book
      | .ok (some decision) =>
        let book := { book with committedWaves := insert wave book.committedWaves }
        let disarmed : Result WaveBook :=
          match book.slowTimerByWave[wave]? with
          | none => .quiet book
          | some id =>
            .ok { book with
                slowTimerByWave := book.slowTimerByWave.erase wave
                timerToWave := book.timerToWave.erase id }
              [.cancelTimer id]
        disarmed.andThen (emitCommitted cr decision.anchorHash ctx)

def onCertifiedVertex (cr : Crypto) (cfg : Config) (cv : CertifiedVertex) (ctx : HostContext)
    (book : WaveBook) : Result WaveBook :=
  (List.range (waveOfRound cv.vertex.round + 1)).foldl
    (fun o w => o.andThen fun book =>
      if w ∈ book.committedWaves then .quiet book else tryEmitForWave cr w cfg ctx false book)
    (.quiet book)

def onMicroQcAssembled (_qc : MicroQc) (book : WaveBook) : Result WaveBook := .quiet book

def onTimerFired (cr : Crypto) (cfg : Config) (id : TimerId) (ctx : HostContext)
    (book : WaveBook) : Result WaveBook :=
  match book.timerToWave[id]? with
  | none => .quiet book
  | some wave =>
    tryEmitForWave cr wave cfg ctx true { book with
      timerToWave := book.timerToWave.erase id
      slowTimerByWave := book.slowTimerByWave.erase wave }

end Bullshark
end LuaDag
