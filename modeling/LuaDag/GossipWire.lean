import LuaDag.BlobStore
import LuaDag.Decimal

/-! Actions on the wire and events off it (`net::gossip_wire`, `net::gossip::topics`). Four tables
have to agree: the actions that are broadcast, the topic of each, the names of the topics, and
the event of each topic. Borsh is a parameter. -/
namespace LuaDag

abbrev WireBytes := List (BitVec 8)

inductive NetError where
  | codec (msg : String)
deriving DecidableEq, Repr

/- Topic names. -/
namespace Wire

def certifiedVertex : String := "lua-dag/v1/certified-vertex"
def microQc : String := "lua-dag/v1/micro-qc"
def macroProposal : String := "lua-dag/v1/macro-proposal"
def blsPartialPrefix : String := "lua-dag/v1/bls-partial/"
def subnetAggregate : String := "lua-dag/v1/subnet-aggregate"
def macroQc : String := "lua-dag/v1/macro-qc"
def slashEvidence : String := "lua-dag/v1/slash-evidence"
def blobChunk : String := "lua-dag/v1/blob-chunk"
def vertexProposal : String := "lua-dag/v1/vertex-proposal"
def vertexPartial : String := "lua-dag/v1/vertex-partial"

end Wire

inductive Topic where
  | certifiedVertex | microQc | macroProposal | blsPartial (subnet : SubnetId)
  | subnetAggregate | macroQc | slashEvidence | blobChunk | vertexProposal | vertexPartial
deriving DecidableEq, Repr

namespace Topic

def wireName : Topic → String
  | .certifiedVertex => Wire.certifiedVertex
  | .microQc => Wire.microQc
  | .macroProposal => Wire.macroProposal
  | .blsPartial s => Wire.blsPartialPrefix ++ toString s
  | .subnetAggregate => Wire.subnetAggregate
  | .macroQc => Wire.macroQc
  | .slashEvidence => Wire.slashEvidence
  | .blobChunk => Wire.blobChunk
  | .vertexProposal => Wire.vertexProposal
  | .vertexPartial => Wire.vertexPartial

def fromWireName (s : String) : Option Topic :=
  if s = Wire.certifiedVertex then some .certifiedVertex
  else if s = Wire.microQc then some .microQc
  else if s = Wire.macroProposal then some .macroProposal
  else if s = Wire.subnetAggregate then some .subnetAggregate
  else if s = Wire.macroQc then some .macroQc
  else if s = Wire.slashEvidence then some .slashEvidence
  else if s = Wire.blobChunk then some .blobChunk
  else if s = Wire.vertexProposal then some .vertexProposal
  else if s = Wire.vertexPartial then some .vertexPartial
  else
    match Wire.blsPartialPrefix.toList.isPrefixOf? s.toList with
    | none => none
    | some rest => (Decimal.parse (2 ^ 32) rest).map .blsPartial

def Fits : Topic → Prop
  | .blsPartial s => s < 2 ^ 32
  | _ => True

theorem isPrefixOf?_append (l m : List Char) : l.isPrefixOf? (l ++ m) = some m := by
  induction l with
  | nil => rfl
  | cons c l ih =>
    rw [List.cons_append, List.isPrefixOf?, if_pos (beq_self_eq_true c)]
    exact ih

theorem partialName_toList (s : SubnetId) : (wireName (.blsPartial s)).toList =
    Wire.blsPartialPrefix.toList ++ Nat.toDigits 10 s := by
  rw [wireName, String.toList_append, Nat.toString_eq_repr, Nat.toList_repr]

theorem partialName_ne (s : SubnetId) {name : String}
    (h : Wire.blsPartialPrefix.toList.isPrefixOf name.toList = false) :
    wireName (.blsPartial s) ≠ name := by
  rintro rfl
  rw [partialName_toList, ← Bool.not_eq_true, List.isPrefixOf_iff_prefix] at h
  exact h (List.prefix_append _ _)

theorem fromWireName_partial {s : SubnetId} (h : s < 2 ^ 32) :
    fromWireName (wireName (.blsPartial s)) = some (.blsPartial s) := by
  have hrest : Wire.blsPartialPrefix.toList.isPrefixOf? (wireName (.blsPartial s)).toList =
      some (Nat.toDigits 10 s) := by
    rw [partialName_toList, isPrefixOf?_append]
  unfold fromWireName
  rw [if_neg (partialName_ne s (by decide)), if_neg (partialName_ne s (by decide)),
    if_neg (partialName_ne s (by decide)), if_neg (partialName_ne s (by decide)),
    if_neg (partialName_ne s (by decide)), if_neg (partialName_ne s (by decide)),
    if_neg (partialName_ne s (by decide)), if_neg (partialName_ne s (by decide)),
    if_neg (partialName_ne s (by decide)), hrest]
  dsimp only
  rw [Decimal.parse_toDigits h]
  rfl

theorem fromWireName_wireName {t : Topic} (h : t.Fits) : fromWireName t.wireName = some t := by
  cases t with
  | blsPartial s => exact fromWireName_partial h
  | _ => decide

theorem wireName_injOn : Set.InjOn wireName { t | t.Fits } := by
  intro t ht u hu heq
  have hsome := (fromWireName_wireName ht).symm.trans ((congrArg _ heq).trans
    (fromWireName_wireName hu))
  exact Option.some.inj hsome

end Topic

structure Codec (α : Type) where
  toVec : α → Except String WireBytes
  fromSlice : WireBytes → Except String α

namespace Codec
variable {α : Type}

def Restores (c : Codec α) (a : α) : Prop :=
  ∃ bytes, c.toVec a = .ok bytes ∧ c.fromSlice bytes = .ok a

def encodeActionPayload (c : Codec α) (a : α) : Except NetError WireBytes :=
  (c.toVec a).mapError .codec

def decodeEventPayload (c : Codec α) (bytes : WireBytes) : Except NetError α :=
  (c.fromSlice bytes).mapError .codec

theorem Restores.encode {c : Codec α} {a : α} (h : c.Restores a) :
    ∃ bytes, c.encodeActionPayload a = .ok bytes ∧ c.decodeEventPayload bytes = .ok a := by
  obtain ⟨bytes, henc, hdec⟩ := h
  refine ⟨bytes, ?_, ?_⟩
  · rw [encodeActionPayload, henc]
    rfl
  · rw [decodeEventPayload, hdec]
    rfl

end Codec

structure Borsh where
  microQc : Codec MicroQc
  macroProposal : Codec MacroProposal
  blsPartial : Codec BlsPartial
  subnetAggregate : Codec SubnetAggregate
  macroQc : Codec MacroQc
  slashEvidence : Codec SlashEvidence
  vertexProposal : Codec VertexProposal
  vertexPartial : Codec VertexPartial
  certifiedVertex : Codec CertifiedVertex
  blobChunk : Codec BlobChunk

section Wiring
variable (borsh : Borsh)

def onTopic {α : Type} (topic : Topic) (c : Codec α) (a : α) :
    Except NetError (Option (Topic × WireBytes)) :=
  (c.encodeActionPayload a).map fun bytes => some (topic, bytes)

def outboundBroadcast : Action → Except NetError (Option (Topic × WireBytes))
  | .broadcastMicroQc m => onTopic .microQc borsh.microQc m
  | .broadcastMacroProposal m => onTopic .macroProposal borsh.macroProposal m
  | .broadcastBlsPartial p => onTopic (.blsPartial p.subnet) borsh.blsPartial p
  | .broadcastSubnetAggregate a => onTopic .subnetAggregate borsh.subnetAggregate a
  | .broadcastMacroQc q => onTopic .macroQc borsh.macroQc q
  | .emitSlashEvidence _ evidence => onTopic .slashEvidence borsh.slashEvidence evidence
  | .broadcastVertexProposal p => onTopic .vertexProposal borsh.vertexProposal p
  | .broadcastVertexPartial bp => onTopic .vertexPartial borsh.vertexPartial bp
  | .broadcastCertifiedVertex cv => onTopic .certifiedVertex borsh.certifiedVertex cv
  | .persistMacroQc _ | .persistMacroCheckpoint _ | .scheduleTimer _ _ | .cancelTimer _
  | .updateBlobStatus _ _ | .notifyInactivityLeak _ _ => .ok none

def encodeBlobChunk (chunk : BlobChunk) : Except NetError (Topic × WireBytes) :=
  (borsh.blobChunk.encodeActionPayload chunk).map fun bytes => (.blobChunk, bytes)

def decodeBlobChunk (topicStr : String) (bytes : WireBytes) : Except NetError (Option BlobChunk) :=
  if Topic.fromWireName topicStr ≠ some .blobChunk then .ok none
  else (borsh.blobChunk.decodeEventPayload bytes).map some

def isBroadcast : Action → Bool
  | .broadcastMicroQc _ | .broadcastMacroProposal _ | .broadcastBlsPartial _
  | .broadcastSubnetAggregate _ | .broadcastMacroQc _ | .emitSlashEvidence _ _
  | .broadcastVertexProposal _ | .broadcastVertexPartial _ | .broadcastCertifiedVertex _ => true
  | _ => false

def asEvent {α : Type} (c : Codec α) (event : α → Event) (bytes : WireBytes) :
    Except NetError (Option Event) :=
  (c.decodeEventPayload bytes).map fun a => some (event a)

def inboundOn (bytes : WireBytes) : Topic → Except NetError (Option Event)
  | .microQc => asEvent borsh.microQc .microQcAssembled bytes
  | .macroProposal => asEvent borsh.macroProposal .macroProposalReceived bytes
  | .subnetAggregate => asEvent borsh.subnetAggregate .subnetAggregateReceived bytes
  | .macroQc => asEvent borsh.macroQc .macroQcReceived bytes
  | .slashEvidence => asEvent borsh.slashEvidence .slashEvidenceFound bytes
  | .blsPartial subnet =>
    match borsh.blsPartial.decodeEventPayload bytes with
    | .error e => .error e
    | .ok p =>
      if p.subnet ≠ subnet then
        .error (.codec ("bls-partial topic subnet " ++ toString subnet ++ " != payload subnet " ++
          toString p.subnet))
      else .ok (some (.blsPartialReceived p))
  | .certifiedVertex => asEvent borsh.certifiedVertex .certifiedVertexReceived bytes
  | .vertexProposal => asEvent borsh.vertexProposal .vertexProposalReceived bytes
  | .vertexPartial => asEvent borsh.vertexPartial .vertexPartialReceived bytes
  | .blobChunk => .ok none

def inboundMessage (topicStr : String) (bytes : WireBytes) : Except NetError (Option Event) :=
  match Topic.fromWireName topicStr with
  | none => .ok none
  | some topic => inboundOn borsh bytes topic

end Wiring

def eventOf : Action → Option Event
  | .broadcastMicroQc m => some (.microQcAssembled m)
  | .broadcastMacroProposal m => some (.macroProposalReceived m)
  | .broadcastBlsPartial p => some (.blsPartialReceived p)
  | .broadcastSubnetAggregate a => some (.subnetAggregateReceived a)
  | .broadcastMacroQc q => some (.macroQcReceived q)
  | .emitSlashEvidence _ evidence => some (.slashEvidenceFound evidence)
  | .broadcastVertexProposal p => some (.vertexProposalReceived p)
  | .broadcastVertexPartial bp => some (.vertexPartialReceived bp)
  | .broadcastCertifiedVertex cv => some (.certifiedVertexReceived cv)
  | _ => none

def Carried (borsh : Borsh) : Action → Prop
  | .broadcastMicroQc m => borsh.microQc.Restores m
  | .broadcastMacroProposal m => borsh.macroProposal.Restores m
  | .broadcastBlsPartial p => borsh.blsPartial.Restores p ∧ p.subnet < 2 ^ 32
  | .broadcastSubnetAggregate a => borsh.subnetAggregate.Restores a
  | .broadcastMacroQc q => borsh.macroQc.Restores q
  | .emitSlashEvidence _ evidence => borsh.slashEvidence.Restores evidence
  | .broadcastVertexProposal p => borsh.vertexProposal.Restores p
  | .broadcastVertexPartial bp => borsh.vertexPartial.Restores bp
  | .broadcastCertifiedVertex cv => borsh.certifiedVertex.Restores cv
  | _ => True

section RoundTrip
variable {borsh : Borsh} {α : Type} {c : Codec α} {a : α} {event : α → Event}

theorem inbound_of_topic {topic : Topic} (h : topic.Fits) (bytes : WireBytes) :
    inboundMessage borsh topic.wireName bytes = inboundOn borsh bytes topic := by
  rw [inboundMessage, Topic.fromWireName_wireName h]

/-- The action is sent with its message, and what arrives is the event. -/
def Travels (borsh : Borsh) (act : Action) : Prop :=
  ∃ topic bytes e, outboundBroadcast borsh act = .ok (some (topic, bytes)) ∧
    eventOf act = some e ∧ inboundMessage borsh topic.wireName bytes = .ok (some e)

theorem travels_row {act : Action} (topic : Topic) (htopic : topic.Fits) (h : c.Restores a)
    (hout : outboundBroadcast borsh act = onTopic topic c a) (hevent : eventOf act = some (event a))
    (hin : ∀ bytes, inboundOn borsh bytes topic = asEvent c event bytes) :
    Travels borsh act := by
  obtain ⟨bytes, henc, hdec⟩ := h.encode
  refine ⟨topic, bytes, event a, ?_, hevent, ?_⟩
  · rw [hout, onTopic, henc]
    rfl
  · rw [inbound_of_topic htopic, hin, asEvent, hdec]
    rfl

theorem travels_partial {p : BlsPartial} (h : borsh.blsPartial.Restores p)
    (hs : p.subnet < 2 ^ 32) : Travels borsh (.broadcastBlsPartial p) := by
  obtain ⟨bytes, henc, hdec⟩ := h.encode
  refine ⟨.blsPartial p.subnet, bytes, .blsPartialReceived p, ?_, rfl, ?_⟩
  · rw [outboundBroadcast, onTopic, henc]
    rfl
  · rw [@inbound_of_topic borsh (.blsPartial p.subnet) hs, inboundOn, hdec]
    dsimp only
    rw [if_neg (not_not.mpr rfl)]

theorem broadcast_cases {act : Action} (h : Carried borsh act) :
    (isBroadcast act = true ∧ Travels borsh act) ∨
      (isBroadcast act = false ∧ outboundBroadcast borsh act = .ok none) := by
  cases act with
  | broadcastMicroQc m =>
    exact Or.inl ⟨rfl, travels_row .microQc trivial h rfl rfl fun _ => rfl⟩
  | broadcastMacroProposal m =>
    exact Or.inl ⟨rfl, travels_row .macroProposal trivial h rfl rfl fun _ => rfl⟩
  | broadcastBlsPartial p => exact Or.inl ⟨rfl, travels_partial h.1 h.2⟩
  | broadcastSubnetAggregate a =>
    exact Or.inl ⟨rfl, travels_row .subnetAggregate trivial h rfl rfl fun _ => rfl⟩
  | broadcastMacroQc q =>
    exact Or.inl ⟨rfl, travels_row .macroQc trivial h rfl rfl fun _ => rfl⟩
  | emitSlashEvidence offender evidence =>
    exact Or.inl ⟨rfl, travels_row .slashEvidence trivial h rfl rfl fun _ => rfl⟩
  | broadcastVertexProposal p =>
    exact Or.inl ⟨rfl, travels_row .vertexProposal trivial h rfl rfl fun _ => rfl⟩
  | broadcastVertexPartial bp =>
    exact Or.inl ⟨rfl, travels_row .vertexPartial trivial h rfl rfl fun _ => rfl⟩
  | broadcastCertifiedVertex cv =>
    exact Or.inl ⟨rfl, travels_row .certifiedVertex trivial h rfl rfl fun _ => rfl⟩
  | _ => exact Or.inr ⟨rfl, rfl⟩

theorem misdirected {p : BlsPartial} {bytes : WireBytes} {s : SubnetId} (hs : s < 2 ^ 32)
    (hdec : borsh.blsPartial.fromSlice bytes = .ok p) (hne : p.subnet ≠ s) :
    ∃ e, inboundMessage borsh (Topic.blsPartial s).wireName bytes = .error e := by
  have hp : borsh.blsPartial.decodeEventPayload bytes = .ok p := by
    rw [Codec.decodeEventPayload, hdec]
    rfl
  rw [@inbound_of_topic borsh (.blsPartial s) hs, inboundOn, hp]
  dsimp only
  rw [if_pos hne]
  exact ⟨_, rfl⟩

end RoundTrip

/-- The wire round trip. The actions that are broadcast are those with a topic and a payload, and
what these give on arrival is the event with the same message; topics have names of their own,
from which they are read back, and a vote on the topic of another subnet is an error. -/
theorem wire_round_trip (borsh : Borsh) :
    (∀ act : Action, Carried borsh act →
      (isBroadcast act = true ↔
        ∃ topic bytes, outboundBroadcast borsh act = .ok (some (topic, bytes))) ∧
      ∀ topic bytes, outboundBroadcast borsh act = .ok (some (topic, bytes)) →
        ∃ e, eventOf act = some e ∧ inboundMessage borsh topic.wireName bytes = .ok (some e)) ∧
    Set.InjOn Topic.wireName { t | t.Fits } ∧
    (∀ t : Topic, t.Fits → Topic.fromWireName t.wireName = some t) ∧
    ∀ (p : BlsPartial) (bytes : WireBytes) (s : SubnetId), s < 2 ^ 32 →
      borsh.blsPartial.fromSlice bytes = .ok p → p.subnet ≠ s →
        ∃ e, inboundMessage borsh (Topic.blsPartial s).wireName bytes = .error e := by
  refine ⟨?_, Topic.wireName_injOn, fun t => Topic.fromWireName_wireName,
    fun p bytes s => misdirected⟩
  intro act hact
  obtain ⟨hb, topic, bytes, e, hout, hevent, hin⟩ | ⟨hb, hout⟩ := broadcast_cases hact
  · refine ⟨⟨fun _ => ⟨topic, bytes, hout⟩, fun _ => hb⟩, ?_⟩
    intro topic' bytes' hout'
    cases hout.symm.trans hout'
    exact ⟨e, hevent, hin⟩
  · refine ⟨⟨fun h => ?_, ?_⟩, ?_⟩
    · rw [hb] at h
      cases h
    · rintro ⟨topic, bytes, hout'⟩
      cases hout.symm.trans hout'
    · intro topic bytes hout'
      cases hout.symm.trans hout'

/-- A vote and its bytes: the subnet in four, the validator and the checkpoint in 32 each, and the
signature in 96. -/
def fixture : BlsPartial :=
  ⟨7, ⟨(256 ^ 32 - 1) / 255⟩, ⟨2 * ((256 ^ 32 - 1) / 255)⟩, ⟨3 * ((256 ^ 96 - 1) / 255)⟩⟩

def fixtureBytes : WireBytes :=
  [7, 0, 0, 0] ++ List.replicate 32 1 ++ List.replicate 32 2 ++ List.replicate 96 3

def refusing (α : Type) : Codec α :=
  ⟨fun _ => .error "not written", fun _ => .error "not read"⟩

def oneValue {α : Type} [DecidableEq α] (a : α) (bytes : WireBytes) : Codec α where
  toVec b := if b = a then .ok bytes else .error "not written"
  fromSlice b := if b = bytes then .ok a else .error "not read"

theorem oneValue_toVec {α : Type} [DecidableEq α] (a : α) (bytes : WireBytes) :
    (oneValue a bytes).toVec a = .ok bytes :=
  if_pos rfl

theorem oneValue_fromSlice {α : Type} [DecidableEq α] (a : α) (bytes : WireBytes) :
    (oneValue a bytes).fromSlice bytes = .ok a :=
  if_pos rfl

def fixtureBorsh : Borsh where
  microQc := refusing _
  macroProposal := refusing _
  blsPartial := oneValue fixture fixtureBytes
  subnetAggregate := refusing _
  macroQc := refusing _
  slashEvidence := refusing _
  vertexProposal := refusing _
  vertexPartial := refusing _
  certifiedVertex := refusing _
  blobChunk := refusing _

theorem wire_round_trip_fixture :
    outboundBroadcast fixtureBorsh (.broadcastBlsPartial fixture) =
        .ok (some (.blsPartial 7, fixtureBytes)) ∧
      inboundMessage fixtureBorsh (Topic.blsPartial 7).wireName fixtureBytes =
        .ok (some (.blsPartialReceived fixture)) ∧
      ∃ e, inboundMessage fixtureBorsh (Topic.blsPartial 8).wireName fixtureBytes = .error e := by
  have henc : fixtureBorsh.blsPartial.toVec fixture = .ok fixtureBytes :=
    oneValue_toVec _ _
  have hdec : fixtureBorsh.blsPartial.fromSlice fixtureBytes = .ok fixture :=
    oneValue_fromSlice _ _
  have hout : outboundBroadcast fixtureBorsh (.broadcastBlsPartial fixture) =
      .ok (some (.blsPartial 7, fixtureBytes)) := by
    rw [outboundBroadcast, onTopic, Codec.encodeActionPayload, henc]
    rfl
  obtain ⟨hactions, -, -, hmisdirected⟩ := wire_round_trip fixtureBorsh
  obtain ⟨e, he, hin⟩ := (hactions (.broadcastBlsPartial fixture)
    ⟨⟨fixtureBytes, henc, hdec⟩, by decide⟩).2 _ _ hout
  cases he
  exact ⟨hout, hin, hmisdirected fixture fixtureBytes 8 (by decide) hdec (by decide)⟩

end LuaDag
