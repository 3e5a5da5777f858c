import LuaDag.AnchorBeacon
import LuaDag.DagIndex
import LuaDag.FinalizedQuery
import LuaDag.GossipWire
import LuaDag.HostTimers
import LuaDag.SlashLog

/-! The process around the state machine: the loop that drives it
(`apps/node/src/orchestrator.rs`), the side effects of its actions (`action_applier`), the timer
tasks, and the two ends of the gossip swarm (`runtime`, `net::swarm_runner`). They run side by
side and meet in bounded channels, which drop what they have no room for. -/
namespace LuaDag

structure Metrics where
  eventsProcessed : Nat := 0
  actionsDispatched : Nat := 0
  eventsDropped : Nat := 0
  actionsDropped : Nat := 0
  inactivityLeakEmitted : Nat := 0
  vertexCertRejected : Nat := 0
deriving DecidableEq, Repr

def StorageError.text : StorageError → String
  | .logic msg => "logic error: " ++ msg
  | .rocks msg => "rocksdb error: " ++ msg

def BlobStatus.tier : BlobStatus → Nat
  | .accepted => 0
  | .softConfirmed => 1
  | .justified => 2
  | .finalized => 3
  | .epochFinalized => 4

structure HostRows where
  vertices : Std.TreeMap (Round ×ₗ ValidatorId) CertifiedVertex := ∅
  macros : MacroRows := {}
  slash : RocksPersistence := .new ∅
  statuses : Std.TreeMap BlobId BlobStatus := ∅

namespace HostRows

def putVertex (rows : HostRows) (cv : CertifiedVertex) : HostRows :=
  { rows with vertices := rows.vertices.insert (toLex (cv.vertex.round, cv.vertex.author)) cv }

def putMonotonic (statuses : Std.TreeMap BlobId BlobStatus) (blob : BlobId) (status : BlobStatus) :
    Std.TreeMap BlobId BlobStatus :=
  match statuses[blob]? with
  | none => statuses.insert blob status
  | some existing =>
    if existing.tier < status.tier then statuses.insert blob status else statuses

def blobStatus (rows : HostRows) (blob : BlobId) : BlobStatus :=
  rows.statuses[blob]?.getD .accepted

end HostRows

/- What a process is started with. -/
structure NodeSetup where
  cr : Crypto
  borsh : Borsh
  cfg : Config
  self : ValidatorId
  valset : ValidatorSet
  signBls : Dst → Bytes → BlsSig
  vrfProve : Bytes → Except Error (VrfProof × Hash32)
  fuel : Nat
  proposeEnabled : Bool

/-- What the environment answers during one step: the blobs waiting for a vertex, and the
database, to the vertex row (0) and to the row of each action (from 1 on). -/
structure Answers where
  drain : Round → List BlobRef
  db : Nat → Except StorageError Unit

/-- `Orchestrator::run`: before its loop, in it, or unwound by a panic. -/
inductive LoopState where
  | starting | running | stopped
deriving DecidableEq, Repr

structure Host where
  sm : StateMachine
  loop : LoopState := .starting
  dag : LiveDag := {}
  beacon : Hash32 := ChainedBeacon.new
  rows : HostRows := {}
  /-- Decoded by the swarm, not yet moved on. -/
  swarmEvents : List Event := []
  events : List Event := []
  netActions : List Action := []
  published : List (Topic × WireBytes) := []
  schedules : List (TimerId × Nat) := []
  timers : TimerRegistry := {}
  metrics : Metrics := {}

/- Capacities of the channels. -/
def eventBuffer : Nat := 1024
def eventsCapacity : Nat := 1024
def netActionsCapacity : Nat := 1024
def schedulesCapacity : Nat := 256

def trySend {α : Type} (cap : Nat) (q : List α) (x : α) : Option (List α) :=
  if q.length < cap then some (q ++ [x]) else none

namespace Host

def new (s : NodeSetup) (rows : HostRows) : Host :=
  { sm := StateMachine.new s.cfg s.self, rows }

def setFor (valset : ValidatorSet) (epoch : Epoch) : Except Error (Option ValidatorSet) :=
  .ok (if valset.epoch = epoch then some valset else none)

def context (s : NodeSetup) (ans : Answers) (h : Host) : HostContext where
  dag := h.dag.view
  setFor := setFor s.valset
  beacon := .ok h.beacon
  signBls := s.signBls
  vrfProve := s.vrfProve
  drain := ans.drain
  fuel := s.fuel

/- Actions. -/

def apply (s : NodeSetup) (io : Except StorageError Unit) (a : Action) (h : Host) : Host :=
  match a with
  | .persistMacroCheckpoint _ =>
    match io with
    | .error _ => h
    | .ok () => { h with rows := { h.rows with macros := h.rows.macros.apply a } }
  | .persistMacroQc qc =>
    match io with
    | .error _ => h
    | .ok () => { h with
        rows := { h.rows with macros := h.rows.macros.apply a }
        beacon := ChainedBeacon.adoptMacroQc s.cr h.beacon qc }
  | .emitSlashEvidence _ ev =>
    { h with rows := { h.rows with slash := (h.rows.slash.appendSlashEvidence ev io).state } }
  | .scheduleTimer id delayNanos =>
    { h with schedules :=
        (trySend schedulesCapacity h.schedules (id, delayNanos)).getD h.schedules }
  | .cancelTimer id => { h with timers := h.timers.cancel id }
  | .updateBlobStatus blob status =>
    match io with
    | .error _ => h
    | .ok () => { h with rows := { h.rows with
        statuses := HostRows.putMonotonic h.rows.statuses blob status } }
  | .notifyInactivityLeak _ _ =>
    { h with metrics := { h.metrics with
        inactivityLeakEmitted := h.metrics.inactivityLeakEmitted + 1 } }
  | _ => h

/-- The own certificate comes back as an event; gossip does not deliver it. -/
def loopBack (a : Action) (h : Host) : Host :=
  match a with
  | .broadcastCertifiedVertex cv =>
    { h with events :=
        (trySend eventsCapacity h.events (.certifiedVertexReceived cv)).getD h.events }
  | _ => h

def handOver (a : Action) (h : Host) : Host :=
  if isBroadcast a then
    match trySend netActionsCapacity h.netActions a with
    | some q => { h with netActions := q }
    | none => { h with metrics := { h.metrics with
        actionsDropped := h.metrics.actionsDropped + 1 } }
  else h

def dispatchAction (s : NodeSetup) (io : Except StorageError Unit) (a : Action) (h : Host) :
    Host :=
  let h := { h with metrics := { h.metrics with
    actionsDispatched := h.metrics.actionsDispatched + 1 } }
  ((h.loopBack a).handOver a).apply s io a

def dispatchActions (s : NodeSetup) (ans : Answers) : Nat → List Action → Host → Host
  | _, [], h => h
  | i, a :: as, h => dispatchActions s ans (i + 1) as (dispatchAction s (ans.db i) a h)

/- The loop. -/

abbrev HostResult := Outcome Empty SignReq Action Host

def LoopState.afterError : Error → LoopState
  | .panic _ | .overflow => .stopped
  | _ => .running

def drive (s : NodeSetup) (ans : Answers) (req : StateMachine.Request) (h : Host) : HostResult :=
  let o := StateMachine.exec s.cr (req, h.context s ans) h.sm
  match o.result with
  | .error e => ⟨{ h with sm := o.state, loop := LoopState.afterError e }, o.signed, .ok []⟩
  | .ok acts => ⟨dispatchActions s ans 1 acts { h with sm := o.state, loop := .running },
      o.signed, .ok acts⟩

/-- The vertex is verified and stored before the state machine sees it. -/
def admitVertex (s : NodeSetup) (ans : Answers) (cv : CertifiedVertex) (h : Host) : HostResult :=
  match verifyCertifiedVertex s.cr cv s.valset with
  | .error _ => .quiet { h with metrics := { h.metrics with
      vertexCertRejected := h.metrics.vertexCertRejected + 1 } }
  | .ok () =>
    match h.dag.ingestStored ⟨cv, (ans.db 0).mapError StorageError.text⟩ with
    | (.error _, _) => .quiet h
    | (.ok (), dag) => drive s ans (.event (.certifiedVertexReceived cv))
        { h with dag, rows := h.rows.putVertex cv }

def onEvent (s : NodeSetup) (ans : Answers) (e : Event) (h : Host) : HostResult :=
  let h := { h with metrics := { h.metrics with
    eventsProcessed := h.metrics.eventsProcessed + 1 } }
  match e with
  | .certifiedVertexReceived cv => admitVertex s ans cv h
  | e => drive s ans (.event e) h

end Host

inductive HostStep where
  /-- `run`, up to its loop. -/
  | boot (ans : Answers)
  /-- The loop takes the next event. -/
  | next (ans : Answers)
  /-- A gossip message reaches the swarm. -/
  | message (topic : String) (data : WireBytes)
  /-- A decoded event moves from the swarm to the loop. -/
  | fanIn
  /-- The swarm publishes the next broadcast. -/
  | publish
  /-- The timer loop takes the next schedule. -/
  | arm
  | elapse (task : Nat)
  | fire (task : Nat)
  | reap (task : Nat)

namespace Host

def boot (s : NodeSetup) (ans : Answers) (h : Host) : HostResult :=
  match h.loop with
  | .starting =>
    if s.proposeEnabled then drive s ans .genesis h else .quiet { h with loop := .running }
  | _ => .quiet h

def next (s : NodeSetup) (ans : Answers) (h : Host) : HostResult :=
  match h.loop, h.events with
  | .running, e :: es => onEvent s ans e { h with events := es }
  | _, _ => .quiet h

/-- Blob chunks go to their custody; what cannot be decoded is logged. -/
def message (s : NodeSetup) (topic : String) (data : WireBytes) (h : Host) : Host :=
  match inboundMessage s.borsh topic data with
  | .ok (some e) =>
    { h with swarmEvents := (trySend eventBuffer h.swarmEvents e).getD h.swarmEvents }
  | _ => h

def fanIn (h : Host) : Host :=
  match h.swarmEvents with
  | [] => h
  | e :: es =>
    match trySend eventsCapacity h.events e with
    | some q => { h with swarmEvents := es, events := q }
    | none => { h with
        swarmEvents := es
        metrics := { h.metrics with eventsDropped := h.metrics.eventsDropped + 1 } }

def publish (s : NodeSetup) (h : Host) : Host :=
  match h.netActions with
  | [] => h
  | a :: as =>
    match outboundBroadcast s.borsh a with
    | .ok (some message) => { h with netActions := as, published := h.published ++ [message] }
    | _ => { h with netActions := as }

def arm (h : Host) : Host :=
  match h.schedules with
  | [] => h
  | (id, delay) :: rest =>
    { h with schedules := rest, timers := h.timers.scheduleEvent id delay }

def fire (task : Nat) (h : Host) : Host :=
  let sent := h.timers.send task (decide (h.events.length < eventsCapacity))
  { h with events := h.events ++ sent.1.map Event.timerFired, timers := sent.2 }

def step (s : NodeSetup) (t : HostStep) (h : Host) : HostResult :=
  match t with
  | .boot ans => boot s ans h
  | .next ans => next s ans h
  | .message topic data => .quiet (h.message s topic data)
  | .fanIn => .quiet h.fanIn
  | .publish => .quiet (h.publish s)
  | .arm => .quiet h.arm
  | .elapse task => .quiet { h with timers := h.timers.elapse task }
  | .fire task => .quiet (h.fire task)
  | .reap task => .quiet { h with timers := h.timers.reap task }

/- A run of the process: any order of the steps of its tasks. -/
section Run
variable (s : NodeSetup) (rows : HostRows) (ts : List HostStep)

abbrev run : List (Call HostStep Host) := Trace.calls (step s) (new s rows) ts
abbrev after : Host := Trace.final (step s) (new s rows) ts

end Run
end Host
end LuaDag
