import LuaDag.AnchorBeacon
import LuaDag.LiveDag
import LuaDag.VirtualNet
import LuaDag.VirtualTimer

/-! The simulated world (`sim::world`): all state machines over one message bus, one clock, one DAG
and one timer queue, with the calls of the scenarios. What is external is in `Sim`. The world keeps
a journal of what happens to timers, which nothing reads. -/
namespace LuaDag

inductive TimerEvent where
  /-- A validator asks for a timer and gets it at a time. -/
  | scheduled (owner : Nat) (id : TimerId) (due : Nat)
  | cancelled (owner : Nat) (id : TimerId)
  /-- The host takes out what is due. -/
  | begins (now : Nat)
  /-- A timer is stepped into a validator. -/
  | fired (validator : Nat) (id : TimerId)
  /-- The host is done with what was due. -/
  | ends
deriving DecidableEq, Repr

structure ValidatorKeyRing where
  blsPubkey : Nat → BlsPubkey
  vrfPubkey : Nat → VrfPubkey
  signBls : Nat → Dst → Bytes → BlsSig
  vrfProve : Nat → Bytes → VrfProof × Hash32

/-- What a world is run with: primitives, random numbers, keys, the hash that names the vertices of
the factory, and how deep validators step themselves before the stack is full. -/
structure Sim (ρ : Type) where
  cr : Crypto
  rng : Rng ρ
  ring : ValidatorKeyRing
  simVertexHash : Nat → ValidatorId → Hash32
  beaconSeed : Hash32
  depth : Nat

structure SimWorld (ρ : Type) where
  machines : List StateMachine
  net : VirtualNet
  clock : Nat
  dag : LiveDag
  beacon : Hash32
  valset : ValidatorSet
  rng : ρ
  config : Config
  virtualRound : Nat
  timer : VirtualTimer
  anchorWithhold : Bool
  macroQcBeaconChained : Finset Hash32
  suppressMacroProposer : Option ValidatorId
  distributedVertices : Bool

def validatorIdForIndex (index : Nat) : ValidatorId := ⟨index * 2 ^ 224⟩

abbrev SimResult (ρ : Type) := Outcome Error TimerEvent Empty (SimWorld ρ)

namespace SimWorld
open MacroFin (modeAActive computeKe)
open Bullshark (WaveId firstRound waveOfRound selectAnchor)
variable {ρ : Type} (sim : Sim ρ)

def entry (i : Nat) : ValidatorEntry :=
  ⟨validatorIdForIndex i, sim.ring.blsPubkey i, sim.ring.vrfPubkey i, 1000⟩

def new (n : Nat) (seed : ρ) (config : Config) : SimWorld ρ where
  machines := (List.range n).map fun i => StateMachine.new config (validatorIdForIndex i)
  net := .new
  clock := 0
  dag := {}
  beacon := sim.beaconSeed
  valset := ⟨0, (List.range n).map (entry sim), n * 1000⟩
  rng := seed
  config := config
  virtualRound := 0
  timer := .new
  anchorWithhold := false
  macroQcBeaconChained := ∅
  suppressMacroProposer := none
  distributedVertices := false

def setFor (w : SimWorld ρ) (epoch : Epoch) : Option ValidatorSet :=
  if w.valset.epoch = epoch then some w.valset else none

def context (w : SimWorld ρ) (idx : Nat) : HostContext where
  dag := w.dag.view
  setFor := fun epoch => .ok (w.setFor epoch)
  beacon := .ok w.beacon
  signBls := sim.ring.signBls idx
  vrfProve := fun alpha => .ok (sim.ring.vrfProve idx alpha)
  drain := fun _ => []
  fuel := sim.depth

def suppressed (w : SimWorld ρ) (p : MacroProposal) : Bool :=
  w.suppressMacroProposer == some p.proposer

/- Actions. -/

def send (sender : Nat) (action : Action) (now : Nat) (w : SimWorld ρ) : SimResult ρ :=
  match w.net.enqueueFromAction sim.rng sender action w.machines.length now w.rng with
  | .error e => .fail w e
  | .ok (net, rng) => .quiet { w with net := net, rng := rng }

section Apply
variable (stepValidator : Nat → Event → Nat → SimWorld ρ → SimResult ρ)

/-- One turn of the loop of `apply_actions`; what is only persisted or counted changes nothing
here. -/
def applyAction (idx now : Nat) (action : Action) (w : SimWorld ρ) : SimResult ρ :=
  match action with
  | .broadcastMacroProposal p =>
    if w.suppressed p then .quiet w
    else
      let seen : SimResult ρ :=
        if modeAActive (computeKe w.config w.machines.length) then
          stepValidator idx (.macroProposalReceived p) now w
        else .quiet w
      seen.andThen (send sim idx (.broadcastMacroProposal p) now)
  | .persistMacroQc qc =>
    if qc.checkpointHash ∈ w.macroQcBeaconChained then .quiet w
    else .quiet { w with
      macroQcBeaconChained := insert qc.checkpointHash w.macroQcBeaconChained
      beacon := chainBeacon sim.cr w.beacon qc.checkpointHash }
  | .scheduleTimer id delayNanos =>
    let deliverAt := saturatingAdd now (min delayNanos u64Max)
    ⟨{ w with timer := w.timer.schedule deliverAt id }, [.scheduled idx id deliverAt], .ok []⟩
  | .cancelTimer id => ⟨{ w with timer := w.timer.cancel id }, [.cancelled idx id], .ok []⟩
  | .broadcastCertifiedVertex cv =>
    (stepValidator idx (.certifiedVertexReceived cv) now
      { w with dag := w.dag.ingest cv }).andThen
        (send sim idx (.broadcastCertifiedVertex cv) now)
  | .persistMacroCheckpoint _ | .updateBlobStatus _ _ | .notifyInactivityLeak _ _ => .quiet w
  | action => send sim idx action now w

def applyActions (idx now : Nat) : List Action → SimWorld ρ → SimResult ρ
  | [], w => .quiet w
  | action :: rest, w =>
    (applyAction sim stepValidator idx now action w).andThen (applyActions idx now rest)

end Apply

/- Validators. -/

def firedTimer (idx : Nat) : Event → List TimerEvent
  | .timerFired id => [.fired idx id]
  | _ => []

/-- The event enters a machine, and the machine's actions are applied. -/
def enter (stepValidator : Nat → Event → Nat → SimWorld ρ → SimResult ρ) (idx : Nat)
    (o : Result StateMachine) (journal : List TimerEvent) (now : Nat) (w : SimWorld ρ) :
    SimResult ρ :=
  let entered : SimResult ρ :=
    ⟨{ w with machines := w.machines.set idx o.state }, journal, .ok []⟩
  entered.andThen fun w =>
    match o.result with
    | .error e => .fail w e
    | .ok actions => applyActions sim stepValidator idx now actions w

def muted (w : SimWorld ρ) : Event → Bool
  | .macroProposalReceived p => w.suppressed p
  | _ => false

/-- `step_validator`, to the given depth; an index without a machine and a failed step panic. -/
def stepValidator : Nat → Nat → Event → Nat → SimWorld ρ → SimResult ρ
  | 0, _, _, _, w => .fail w .overflow
  | depth + 1, idx, event, now, w =>
    if w.muted event then .quiet w
    else
      match w.machines[idx]? with
      | none => .fail w (.panic "index out of bounds")
      | some sm =>
        enter sim (stepValidator depth) idx (sm.step sim.cr (w.context sim idx) event)
          (firedTimer idx event) now w

def step (idx : Nat) (event : Event) (now : Nat) (w : SimWorld ρ) : SimResult ρ :=
  stepValidator sim sim.depth idx event now w

def stepEach (event : Event) (now : Nat) : List Nat → SimWorld ρ → SimResult ρ
  | [], w => .quiet w
  | idx :: rest, w => (step sim idx event now w).andThen (stepEach event now rest)

def deliver (now : Nat) : List InFlight → SimWorld ρ → SimResult ρ
  | [], w => .quiet w
  | msg :: rest, w => (step sim msg.recipient msg.event now w).andThen (deliver now rest)

def drainNetAndApply (now : Nat) (w : SimWorld ρ) : SimResult ρ :=
  deliver sim now (w.net.drainDue now).1 { w with net := (w.net.drainDue now).2 }

def fireAll (now : Nat) : List TimerId → SimWorld ρ → SimResult ρ
  | [], w => .quiet w
  | id :: rest, w =>
    (stepEach sim (.timerFired id) now (List.range w.machines.length) w).andThen (fireAll now rest)

def drainTimersAndApply (now : Nat) (w : SimWorld ρ) : SimResult ρ :=
  let drained : SimResult ρ :=
    ⟨{ w with timer := (w.timer.drainDue now).2 }, [.begins now], .ok []⟩
  (drained.andThen (fireAll sim now (w.timer.drainDue now).1)).andThen fun w =>
    ⟨w, [.ends], .ok []⟩

/- The vertex factory (`sim::vertex_factory`). -/

def quorumVertexCount (validatorCount : Nat) : Nat := 2 * ((validatorCount - 1) / 3) + 1

def signerIndicesForRound (round n quorum : Nat) : Except Error (List Nat) :=
  if n = 0 then .error (.panic "attempt to calculate the remainder with a divisor of zero")
  else .ok ((List.range quorum).map fun i => (round + i) % n)

def buildQuorumCert (vertex : Vertex) (valset : ValidatorSet) (indices : List Nat) :
    Except CertError CertifiedVertex :=
  match indices.find? fun idx => valset.entries.length ≤ idx with
  | some idx => .error (.badIndex idx)
  | none => assembleCert sim.cr vertex valset
      (indices.map fun idx => (idx, sim.ring.signBls idx .vertexCert (signingBytes vertex)))

def buildCertifiedVertex (virtualRound proposerIndex : Nat) (parentHash : Option Hash32)
    (valset : ValidatorSet) : Except Error CertifiedVertex :=
  let author := validatorIdForIndex proposerIndex
  let vertex : Vertex := ⟨virtualRound, author, parentHash.toList, [], Hash32.zero⟩
  let n := valset.entries.length
  match signerIndicesForRound virtualRound n (quorumVertexCount n) with
  | .error e => .error e
  | .ok indices =>
    match buildQuorumCert sim vertex valset indices with
    | .error _ => .error (.panic "sim quorum cert must build")
    | .ok cv =>
      .ok { cv with vertex := { cv.vertex with hash := sim.simVertexHash virtualRound author } }

def buildQuorumVerticesForRound (virtualRound : Nat) (valset : ValidatorSet)
    (parentHash : Option Hash32) : Except Error (List CertifiedVertex) :=
  let n := valset.entries.length
  match signerIndicesForRound virtualRound n (quorumVertexCount n) with
  | .error e => .error e
  | .ok proposers => proposers.mapM fun proposer =>
    buildCertifiedVertex sim virtualRound proposer parentHash valset

def anchorAuthor (wave : WaveId) (set : ValidatorSet) (w : SimWorld ρ) : Option ValidatorId :=
  match selectAnchor sim.cr wave set (w.context sim 0) with
  | .ok author => some author
  | .error _ => none

def verticesAtRound (round : Round) (w : SimWorld ρ) : List CertifiedVertex :=
  w.dag.byRound[round]?.getD []

def anchorHashForWave (wave : WaveId) (w : SimWorld ρ) : Option Hash32 :=
  match w.setFor 0 with
  | none => none
  | some set =>
    match anchorAuthor sim wave set w with
    | none => none
    | some author =>
      ((w.verticesAtRound (firstRound wave)).find? (·.vertex.author = author)).map (·.vertex.hash)

def parentHashForRound (round : Nat) (w : SimWorld ρ) : Option Hash32 :=
  if round = 0 then none
  else
    let wave := waveOfRound round
    let lowest :=
      ((w.verticesAtRound (round - 1)).map (·.vertex.hash)).insertionSort (· ≤ ·)
    if firstRound wave < round then (anchorHashForWave sim wave w).or lowest.head?
    else lowest.head?

def withheldAuthor (set : ValidatorSet) (w : SimWorld ρ) : Option ValidatorId :=
  let wave := waveOfRound w.virtualRound
  if w.anchorWithhold && w.virtualRound == firstRound wave then anchorAuthor sim wave set w
  else none

def deliverVertices (now : Nat) : List CertifiedVertex → SimWorld ρ → SimResult ρ
  | [], w => .quiet w
  | cv :: rest, w =>
    (stepEach sim (.certifiedVertexReceived cv) now (List.range w.machines.length) w).andThen
      (deliverVertices now rest)

def produceVertexTick (now : Nat) (w : SimWorld ρ) : SimResult ρ :=
  match w.setFor 0 with
  | none => .fail w (.panic "validator set for vertex production")
  | some set =>
    match buildQuorumVerticesForRound sim w.virtualRound set
        (parentHashForRound sim w.virtualRound w) with
    | .error e => .fail w e
    | .ok batch =>
      let withheld := withheldAuthor sim set w
      let delivered := batch.filter fun cv => withheld ≠ some cv.vertex.author
      deliverVertices sim now delivered { w with dag := delivered.foldl LiveDag.ingest w.dag }

/- Ticks. -/

def genesisPropose (now idx : Nat) (w : SimWorld ρ) : SimResult ρ :=
  match w.machines[idx]? with
  | none => .fail w (.panic "index out of bounds")
  | some sm =>
    enter sim (stepValidator sim sim.depth) idx (sm.genesisPropose sim.cr (w.context sim idx)) []
      now w

def genesisProposeAll (now : Nat) : List Nat → SimWorld ρ → SimResult ρ
  | [], w => .quiet w
  | idx :: rest, w => (genesisPropose sim now idx w).andThen (genesisProposeAll now rest)

def advance (w : SimWorld ρ) : SimResult ρ :=
  let roundNanos := w.config.timing.roundDurationMs * 1000000
  if u64Max < roundNanos then .fail w (.panic "attempt to multiply with overflow")
  else .quiet { w with
    clock := (w.clock + roundNanos) % 2 ^ 64
    virtualRound := w.virtualRound + 1 }

def vertexTick (now : Nat) (w : SimWorld ρ) : SimResult ρ :=
  if w.distributedVertices then
    if w.virtualRound = 0 then genesisProposeAll sim now (List.range w.machines.length) w
    else .quiet w
  else produceVertexTick sim now w

def tickRound (w : SimWorld ρ) : SimResult ρ :=
  let now := w.clock
  (((drainNetAndApply sim now w).andThen (vertexTick sim now)).andThen
    (drainTimersAndApply sim now)).andThen advance

inductive Op where
  | tickRound
  | enableDistributedVertices
  | enableAnchorWithhold
  | suppressMacroProposalsFrom (proposer : ValidatorId)
  | setNetworkConditions (conditions : NetworkConditions)
  | setPartition (left right : List Nat)
  | healPartition
  | deliverProposal (recipient : Nat) (event : Event) (now : Nat)
  | enqueue (msg : InFlight)

def exec (op : Op) (w : SimWorld ρ) : SimResult ρ :=
  match op with
  | .tickRound => tickRound sim w
  | .enableDistributedVertices => .quiet { w with distributedVertices := true }
  | .enableAnchorWithhold => .quiet { w with anchorWithhold := true }
  | .suppressMacroProposalsFrom proposer =>
    .quiet { w with suppressMacroProposer := some proposer }
  | .setNetworkConditions conditions => .quiet { w with net := w.net.setConditions conditions }
  | .setPartition left right => .quiet { w with net := w.net.setPartition left right }
  | .healPartition => .quiet { w with net := w.net.healPartition }
  | .deliverProposal recipient event now => step sim recipient event now w
  | .enqueue msg => .quiet { w with net := w.net.enqueue msg }

def run : List Op → SimWorld ρ → SimResult ρ
  | [], w => .quiet w
  | op :: rest, w => (exec sim op w).andThen (run rest)

end SimWorld
end LuaDag
