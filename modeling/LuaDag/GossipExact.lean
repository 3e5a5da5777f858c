import LuaDag.BorshLayout

/-! Gossip without ambiguity: with a strict Borsh the host takes exactly those payloads off a topic
that an action puts there. -/
namespace LuaDag

/-- Bytes and values correspond one to one: the bytes of a value are read as this value, and what
is read as a value are its bytes. -/
def Codec.Exact {α : Type} (c : Codec α) : Prop :=
  ∀ a bytes, c.fromSlice bytes = .ok a ↔ c.toVec a = .ok bytes

/-- Borsh at the types that travel by gossip. -/
structure Borsh.Exact (borsh : Borsh) : Prop where
  microQc : borsh.microQc.Exact
  macroProposal : borsh.macroProposal.Exact
  blsPartial : borsh.blsPartial.Exact
  subnetAggregate : borsh.subnetAggregate.Exact
  macroQc : borsh.macroQc.Exact
  slashEvidence : borsh.slashEvidence.Exact
  vertexProposal : borsh.vertexProposal.Exact
  vertexPartial : borsh.vertexPartial.Exact
  certifiedVertex : borsh.certifiedVertex.Exact
  blobChunk : borsh.blobChunk.Exact

/- One codec. -/
section Rows
variable {borsh : Borsh} {α : Type} {c : Codec α} {a : α} {payload payload' : WireBytes}
  {event : α → Event} {e : Event} {topic topic' : Topic}

theorem mapError_ok {β : Type} {r : Except String β} {b : β} :
    r.mapError NetError.codec = .ok b ↔ r = .ok b := by
  cases r with
  | error msg => simp [Except.mapError]
  | ok b' => simp [Except.mapError]

theorem Codec.Exact.decode_iff (hc : c.Exact) :
    c.decodeEventPayload payload = .ok a ↔ c.encodeActionPayload a = .ok payload :=
  mapError_ok.trans ((hc a payload).trans mapError_ok.symm)

theorem Codec.Exact.asEvent_iff (hc : c.Exact) : asEvent c event payload = .ok (some e) ↔
    ∃ a, event a = e ∧ c.encodeActionPayload a = .ok payload := by
  rw [asEvent]
  cases h : c.decodeEventPayload payload with
  | error err =>
    simp only [Except.map, reduceCtorEq, false_iff, not_exists, not_and]
    intro a _ ha
    rw [hc.decode_iff.mpr ha] at h
    cases h
  | ok b =>
    simp only [Except.map, Except.ok.injEq, Option.some.injEq]
    constructor
    · intro hb
      exact ⟨b, hb, hc.decode_iff.mp h⟩
    · rintro ⟨a, rfl, ha⟩
      rw [hc.decode_iff.mpr ha] at h
      rw [Except.ok.inj h]

theorem onTopic_iff : onTopic topic c a = .ok (some (topic', payload)) ↔
    topic = topic' ∧ c.encodeActionPayload a = .ok payload := by
  rw [onTopic]
  cases c.encodeActionPayload a with
  | error err => simp [Except.map]
  | ok w => simp [Except.map]

theorem Codec.Exact.inbound_row (hc : c.Exact)
    (h : onTopic topic c a = .ok (some (topic', payload)))
    (hin : inboundOn borsh payload topic = asEvent c event payload) :
    inboundOn borsh payload topic' = .ok (some (event a)) := by
  obtain ⟨rfl, hw⟩ := onTopic_iff.mp h
  exact hin.trans (hc.asEvent_iff.mpr ⟨a, rfl, hw⟩)

theorem Codec.Exact.outbound_row (hc : c.Exact) (act : α → Action)
    (hevent : ∀ m, eventOf (act m) = some (event m))
    (hout : ∀ m, outboundBroadcast borsh (act m) = onTopic topic c m)
    (h : asEvent c event payload = .ok (some e)) :
    ∃ act, eventOf act = some e ∧
      outboundBroadcast borsh act = .ok (some (topic, payload)) := by
  obtain ⟨m, rfl, hw⟩ := hc.asEvent_iff.mp h
  exact ⟨act m, hevent m, (hout m).trans (onTopic_iff.mpr ⟨rfl, hw⟩)⟩

theorem Codec.Exact.payload_inj (hc : c.Exact) (hinj : Function.Injective event)
    (h : asEvent c event payload = .ok (some e)) (h' : asEvent c event payload' = .ok (some e)) :
    payload = payload' := by
  obtain ⟨m, rfl, hw⟩ := hc.asEvent_iff.mp h
  obtain ⟨m', he, hw'⟩ := hc.asEvent_iff.mp h'
  rw [hinj he, hw] at hw'
  exact Except.ok.inj hw'

end Rows

/- The tables. -/
section Tables
variable {borsh : Borsh} (hb : borsh.Exact) {payload payload' : WireBytes} {e : Event}
  {topic : Topic}
include hb

theorem inbound_of_outbound {act : Action} (he : eventOf act = some e)
    (h : outboundBroadcast borsh act = .ok (some (topic, payload))) :
    inboundOn borsh payload topic = .ok (some e) := by
  cases act with
  | broadcastBlsPartial p =>
    cases he
    obtain ⟨rfl, hw⟩ := onTopic_iff.mp h
    rw [inboundOn, hb.blsPartial.decode_iff.mpr hw]
    exact if_neg (not_not.mpr rfl)
  | broadcastMicroQc m =>
    cases he
    exact hb.microQc.inbound_row h rfl
  | broadcastMacroProposal m =>
    cases he
    exact hb.macroProposal.inbound_row h rfl
  | broadcastSubnetAggregate m =>
    cases he
    exact hb.subnetAggregate.inbound_row h rfl
  | broadcastMacroQc m =>
    cases he
    exact hb.macroQc.inbound_row h rfl
  | emitSlashEvidence offender m =>
    cases he
    exact hb.slashEvidence.inbound_row h rfl
  | broadcastVertexProposal m =>
    cases he
    exact hb.vertexProposal.inbound_row h rfl
  | broadcastVertexPartial m =>
    cases he
    exact hb.vertexPartial.inbound_row h rfl
  | broadcastCertifiedVertex m =>
    cases he
    exact hb.certifiedVertex.inbound_row h rfl
  | _ => cases h

theorem partial_of_inbound {s : SubnetId}
    (h : inboundOn borsh payload (.blsPartial s) = .ok (some e)) :
    ∃ p, p.subnet = s ∧ e = .blsPartialReceived p ∧
      borsh.blsPartial.encodeActionPayload p = .ok payload := by
  rw [inboundOn] at h
  split at h
  · cases h
  · rename_i p hdec
    split at h
    · cases h
    · rename_i hs
      cases h
      exact ⟨p, not_not.mp hs, rfl, hb.blsPartial.decode_iff.mp hdec⟩

theorem outbound_of_inbound (h : inboundOn borsh payload topic = .ok (some e)) :
    ∃ act, eventOf act = some e ∧
      outboundBroadcast borsh act = .ok (some (topic, payload)) := by
  cases topic with
  | blobChunk => cases h
  | blsPartial s =>
    obtain ⟨p, rfl, rfl, hw⟩ := partial_of_inbound hb h
    exact ⟨.broadcastBlsPartial p, rfl, onTopic_iff.mpr ⟨rfl, hw⟩⟩
  | microQc => exact hb.microQc.outbound_row .broadcastMicroQc (fun _ => rfl) (fun _ => rfl) h
  | macroProposal =>
    exact hb.macroProposal.outbound_row .broadcastMacroProposal (fun _ => rfl) (fun _ => rfl) h
  | subnetAggregate =>
    exact hb.subnetAggregate.outbound_row .broadcastSubnetAggregate (fun _ => rfl) (fun _ => rfl) h
  | macroQc => exact hb.macroQc.outbound_row .broadcastMacroQc (fun _ => rfl) (fun _ => rfl) h
  | slashEvidence =>
    exact hb.slashEvidence.outbound_row (.emitSlashEvidence ⟨0⟩) (fun _ => rfl) (fun _ => rfl) h
  | vertexProposal =>
    exact hb.vertexProposal.outbound_row .broadcastVertexProposal (fun _ => rfl) (fun _ => rfl) h
  | vertexPartial =>
    exact hb.vertexPartial.outbound_row .broadcastVertexPartial (fun _ => rfl) (fun _ => rfl) h
  | certifiedVertex =>
    exact hb.certifiedVertex.outbound_row .broadcastCertifiedVertex (fun _ => rfl) (fun _ => rfl) h

theorem inboundOn_inj (h : inboundOn borsh payload topic = .ok (some e))
    (h' : inboundOn borsh payload' topic = .ok (some e)) : payload = payload' := by
  cases topic with
  | blobChunk => cases h
  | blsPartial s =>
    obtain ⟨p, -, rfl, hw⟩ := partial_of_inbound hb h
    obtain ⟨p', -, he, hw'⟩ := partial_of_inbound hb h'
    cases he
    exact Except.ok.inj (hw.symm.trans hw')
  | microQc => exact hb.microQc.payload_inj (fun _ _ heq => Event.microQcAssembled.inj heq) h h'
  | macroProposal =>
    exact hb.macroProposal.payload_inj (fun _ _ heq => Event.macroProposalReceived.inj heq) h h'
  | subnetAggregate =>
    exact hb.subnetAggregate.payload_inj (fun _ _ heq => Event.subnetAggregateReceived.inj heq) h h'
  | macroQc => exact hb.macroQc.payload_inj (fun _ _ heq => Event.macroQcReceived.inj heq) h h'
  | slashEvidence =>
    exact hb.slashEvidence.payload_inj (fun _ _ heq => Event.slashEvidenceFound.inj heq) h h'
  | vertexProposal =>
    exact hb.vertexProposal.payload_inj (fun _ _ heq => Event.vertexProposalReceived.inj heq) h h'
  | vertexPartial =>
    exact hb.vertexPartial.payload_inj (fun _ _ heq => Event.vertexPartialReceived.inj heq) h h'
  | certifiedVertex =>
    exact hb.certifiedVertex.payload_inj (fun _ _ heq => Event.certifiedVertexReceived.inj heq) h h'

omit hb in
theorem inboundMessage_iff {name : String} :
    inboundMessage borsh name payload = .ok (some e) ↔
      ∃ topic, Topic.fromWireName name = some topic ∧
        inboundOn borsh payload topic = .ok (some e) := by
  rw [inboundMessage]
  cases Topic.fromWireName name with
  | none => simp
  | some topic => simp

theorem decodeBlobChunk_iff {name : String} {c : BlobChunk} :
    decodeBlobChunk borsh name payload = .ok (some c) ↔
      Topic.fromWireName name = some .blobChunk ∧
        encodeBlobChunk borsh c = .ok (.blobChunk, payload) := by
  have henc : encodeBlobChunk borsh c = .ok (.blobChunk, payload) ↔
      borsh.blobChunk.decodeEventPayload payload = .ok c := by
    rw [hb.blobChunk.decode_iff, encodeBlobChunk]
    cases borsh.blobChunk.encodeActionPayload c with
    | error err => simp [Except.map]
    | ok w => simp [Except.map]
  rw [henc, decodeBlobChunk]
  split
  · rename_i hname
    simp [hname]
  · rename_i hname
    rw [not_not] at hname
    cases borsh.blobChunk.decodeEventPayload payload with
    | error err => simp [Except.map]
    | ok b => simp [Except.map, hname]

end Tables

/-- With a strict Borsh the host takes a payload off a topic exactly if some action puts it there,
and hands on the event of that action; likewise for chunks of blobs. No event has two payloads
on a topic. -/
theorem gossip_exact (borsh : Borsh) (hb : borsh.Exact) (name : String) (payload : WireBytes)
    (e : Event) (c : BlobChunk) :
    (inboundMessage borsh name payload = .ok (some e) ↔
      ∃ topic act, Topic.fromWireName name = some topic ∧ eventOf act = some e ∧
        outboundBroadcast borsh act = .ok (some (topic, payload))) ∧
    (decodeBlobChunk borsh name payload = .ok (some c) ↔
      Topic.fromWireName name = some .blobChunk ∧
        encodeBlobChunk borsh c = .ok (.blobChunk, payload)) ∧
    ∀ payload', inboundMessage borsh name payload = .ok (some e) →
      inboundMessage borsh name payload' = .ok (some e) → payload = payload' := by
  refine ⟨?_, decodeBlobChunk_iff hb, ?_⟩
  · rw [inboundMessage_iff]
    constructor
    · rintro ⟨topic, hname, hin⟩
      obtain ⟨act, he, hout⟩ := outbound_of_inbound hb hin
      exact ⟨topic, act, hname, he, hout⟩
    · rintro ⟨topic, act, hname, he, hout⟩
      exact ⟨topic, hname, inbound_of_outbound hb he hout⟩
  · intro payload' h h'
    obtain ⟨topic, hname, hin⟩ := inboundMessage_iff.mp h
    obtain ⟨topic', hname', hin'⟩ := inboundMessage_iff.mp h'
    cases hname.symm.trans hname'
    exact inboundOn_inj hb hin hin'

/- The derived layouts are strict. -/

theorem Borsh.codec_exact {α : Type} (f : Layout8 α) : (Borsh.codec f).Exact := by
  have helim : ∀ {β : Type} {o : Option β} {msg : String} {b : β},
      (o.elim (.error msg) .ok : Except String β) = .ok b ↔ o = some b := by
    intro β o msg b
    cases o with
    | none => simp
    | some c => simp
  intro a bytes
  exact helim.trans (Layout.readAll_iff.trans helim.symm)

theorem derivedBorsh_exact : derivedBorsh.Exact :=
  ⟨Borsh.codec_exact _, Borsh.codec_exact _, Borsh.codec_exact _, Borsh.codec_exact _,
    Borsh.codec_exact _, Borsh.codec_exact _, Borsh.codec_exact _, Borsh.codec_exact _,
    Borsh.codec_exact _, Borsh.codec_exact _⟩

/-- A vote is taken off the topic of its subnet, with these bytes and no others. -/
theorem gossip_exact_fixture :
    inboundMessage derivedBorsh (Topic.blsPartial 7).wireName fixtureBytes =
        .ok (some (.blsPartialReceived fixture)) ∧
      inboundMessage derivedBorsh (Topic.blsPartial 7).wireName (fixtureBytes ++ [0#8]) ≠
        .ok (some (.blsPartialReceived fixture)) := by
  obtain ⟨htaken, -, hone⟩ := gossip_exact derivedBorsh derivedBorsh_exact
    (Topic.blsPartial 7).wireName fixtureBytes (.blsPartialReceived fixture)
    ⟨⟨0⟩, 0, .erasure 0 0 []⟩
  have hout : outboundBroadcast derivedBorsh (.broadcastBlsPartial fixture) =
      .ok (some (.blsPartial 7, fixtureBytes)) := by decide +kernel
  have hin := htaken.mpr ⟨.blsPartial 7, .broadcastBlsPartial fixture,
    Topic.fromWireName_wireName (show (7 : SubnetId) < 2 ^ 32 by decide), rfl, hout⟩
  refine ⟨hin, fun hlong => ?_⟩
  exact absurd (hone _ hin hlong) (by decide)

end LuaDag
