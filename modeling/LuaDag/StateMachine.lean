import LuaDag.MacroFin
import LuaDag.Trace

/-! The deterministic state machine over the three layers
(`consensus::state_machine`) and its runs. -/
namespace LuaDag

structure StateMachine where
  cfg : Config
  waves : Bullshark.WaveBook
  macros : MacroBook
  vertices : VertexBook

namespace StateMachine

def new (cfg : Config) (selfId : ValidatorId) : StateMachine :=
  ⟨cfg, {}, MacroBook.new selfId, VertexBook.new selfId⟩

section Step
variable (cr : Crypto) (ctx : HostContext)

/- A layer's handler, run on the layer's own book. -/
def onVertices (f : VertexBook → Result VertexBook) (sm : StateMachine) : Result StateMachine :=
  (f sm.vertices).lift fun book => { sm with vertices := book }

def onWaves (f : Bullshark.WaveBook → Result Bullshark.WaveBook) (sm : StateMachine) :
    Result StateMachine :=
  (f sm.waves).lift fun book => { sm with waves := book }

def onMacros (f : MacroBook → Result MacroBook) (sm : StateMachine) : Result StateMachine :=
  (f sm.macros).lift fun book => { sm with macros := book }

def genesisPropose (sm : StateMachine) : Result StateMachine :=
  sm.onVertices (VertexCert.genesisPropose cr sm.cfg ctx)

def onCertifiedVertex (cv : CertifiedVertex) (sm : StateMachine) : Result StateMachine :=
  ((sm.onVertices (VertexCert.onCertifiedVertex cr sm.cfg ctx cv)).andThen fun sm =>
    sm.onWaves (Bullshark.onCertifiedVertex cr sm.cfg cv ctx)).bind fun actions sm =>
      sm.onMacros (MacroFin.onLocalMicroQcs cr sm.cfg ctx actions)

def onTimerFired (id : TimerId) (sm : StateMachine) : Result StateMachine :=
  ((sm.onWaves (Bullshark.onTimerFired cr sm.cfg id ctx)).andThen fun sm =>
    sm.onMacros (MacroFin.onTimerFired cr sm.cfg ctx id)).andThen fun sm =>
      sm.onVertices (VertexCert.onTimerFired sm.cfg ctx id)

def step (event : Event) (sm : StateMachine) : Result StateMachine :=
  match event with
  | .certifiedVertexReceived cv => sm.onCertifiedVertex cr ctx cv
  | .microQcAssembled qc => sm.onWaves (Bullshark.onMicroQcAssembled qc)
  | .timerFired id => sm.onTimerFired cr ctx id
  | .macroProposalReceived p => sm.onMacros (MacroFin.onMacroProposal cr sm.cfg ctx p)
  | .blsPartialReceived bp => sm.onMacros (MacroFin.onBlsPartial cr sm.cfg ctx bp)
  | .subnetAggregateReceived a => sm.onMacros (MacroFin.onSubnetAggregate cr sm.cfg ctx a)
  | .macroQcReceived qc => sm.onMacros (MacroFin.onMacroQcReceived cr sm.cfg ctx qc)
  | .validatorSetUpdated _ _ => .quiet sm
  | .slashEvidenceFound _ => .quiet sm
  | .vertexProposalReceived p => sm.onVertices (VertexCert.onVertexProposal cr p ctx)
  | .vertexPartialReceived bp => sm.onVertices (VertexCert.onVertexPartial cr sm.cfg ctx bp)

end Step

/-- What the host calls: the bootstrap or an event, with the ports of that moment. -/
inductive Request where
  | genesis
  | event (e : Event)
deriving DecidableEq, Repr

abbrev Input := Request × HostContext

def exec (cr : Crypto) (i : Input) (sm : StateMachine) : Result StateMachine :=
  match i.1 with
  | .genesis => sm.genesisPropose cr i.2
  | .event e => sm.step cr i.2 e

/- A run of one node, from its initial state, without restarts. -/
section Run
variable (cr : Crypto) (cfg : Config) (self : ValidatorId) (is : List Input)

def run : List (Call Input StateMachine) := Trace.calls (exec cr) (new cfg self) is
def reached : StateMachine := Trace.final (exec cr) (new cfg self) is
def actions : List Action := Trace.emitted (exec cr) (run cr cfg self is)
def signLog : List SignReq := Trace.signed (exec cr) (run cr cfg self is)

end Run
end StateMachine

theorem run_input {cr : Crypto} {cfg : Config} {self : ValidatorId}
    {is : List StateMachine.Input} {c : Call StateMachine.Input StateMachine}
    (hc : c ∈ StateMachine.run cr cfg self is) : c.input ∈ is := by
  obtain ⟨js, ks, his, -⟩ := Trace.mem_calls _ hc
  rw [his]
  simp

end LuaDag
