import LuaDag.GossipWire
import LuaDag.Layout

/-! A Borsh to calculate with, for what travels by gossip: integers with the lowest byte first,
byte arrays as they are, the fields of a record in order, a vector after its length, the variants
of an enumeration after their number. The theorems are about any Borsh; this one is an example. -/
open Layout

namespace LuaDag

/- Byte arrays. -/

def byteDigits : BitVec 8 ≃ Fin (2 ^ 8) where
  toFun b := b.toFin
  invFun d := ⟨d⟩
  left_inv _ := rfl
  right_inv _ := rfl

abbrev Layout8 := Layout (BitVec 8)

def byteArray (n : ℕ) : Layout8 ℕ := big byteDigits n

def ValidatorId.layout : Layout8 ValidatorId :=
  (byteArray 32).of ⟨ValidatorId.val, ValidatorId.mk, fun _ => rfl, fun _ => rfl⟩

def Hash32.layout : Layout8 Hash32 :=
  (byteArray 32).of ⟨Hash32.val, Hash32.mk, fun _ => rfl, fun _ => rfl⟩

namespace Borsh

def u8 : Layout8 ℕ := little byteDigits 1

def u32 : Layout8 ℕ := little byteDigits 4

def u64 : Layout8 ℕ := little byteDigits 8

def vec {α : Type} (f : Layout8 α) : Layout8 (List α) := counted u32 f

end Borsh

open Borsh (u8 u32 u64 vec)

/- The crate `types`. -/

def BlobId.layout : Layout8 BlobId :=
  (byteArray 32).of ⟨BlobId.val, BlobId.mk, fun _ => rfl, fun _ => rfl⟩

def BlsSig.layout : Layout8 BlsSig :=
  (byteArray 96).of ⟨BlsSig.val, BlsSig.mk, fun _ => rfl, fun _ => rfl⟩

def VrfProof.layout : Layout8 VrfProof :=
  (byteArray 80).of ⟨VrfProof.val, VrfProof.mk, fun _ => rfl, fun _ => rfl⟩

def BlsAggSig.layout : Layout8 BlsAggSig :=
  (BlsSig.layout.pair (vec (symbol _))).of
    ⟨fun a => (a.sig, a.bitmap), fun p => ⟨p.1, p.2⟩, fun _ => rfl, fun _ => rfl⟩

def BlobRef.layout : Layout8 BlobRef :=
  (BlobId.layout.pair (Hash32.layout.pair u64)).of
    ⟨fun b => (b.blobId, b.commitment, b.sizeBytes), fun p => ⟨p.1, p.2.1, p.2.2⟩,
      fun _ => rfl, fun _ => rfl⟩

def Vertex.layout : Layout8 Vertex :=
  (u64.pair (ValidatorId.layout.pair ((vec Hash32.layout).pair
    ((vec BlobRef.layout).pair Hash32.layout)))).of
    ⟨fun v => (v.round, v.author, v.parents, v.blobs, v.hash),
      fun p => ⟨p.1, p.2.1, p.2.2.1, p.2.2.2.1, p.2.2.2.2⟩, fun _ => rfl, fun _ => rfl⟩

def CertifiedVertex.layout : Layout8 CertifiedVertex :=
  (Vertex.layout.pair BlsAggSig.layout).of
    ⟨fun cv => (cv.vertex, cv.certificate), fun p => ⟨p.1, p.2⟩, fun _ => rfl, fun _ => rfl⟩

def VertexProposal.layout : Layout8 VertexProposal :=
  (Vertex.layout.pair BlsSig.layout).of
    ⟨fun p => (p.vertex, p.proposerSig), fun p => ⟨p.1, p.2⟩, fun _ => rfl, fun _ => rfl⟩

def VertexPartial.layout : Layout8 VertexPartial :=
  (Hash32.layout.pair (u64.pair (ValidatorId.layout.pair
    (ValidatorId.layout.pair BlsSig.layout)))).of
    ⟨fun p => (p.vertexHash, p.round, p.author, p.voter, p.sig),
      fun p => ⟨p.1, p.2.1, p.2.2.1, p.2.2.2.1, p.2.2.2.2⟩, fun _ => rfl, fun _ => rfl⟩

def MacroCheckpoint.layout : Layout8 MacroCheckpoint :=
  (u64.pair (u64.pair (Hash32.layout.pair (Hash32.layout.pair Hash32.layout)))).of
    ⟨fun cp => (cp.height, cp.epoch, cp.parent, cp.microRoot, cp.hash),
      fun p => ⟨p.1, p.2.1, p.2.2.1, p.2.2.2.1, p.2.2.2.2⟩, fun _ => rfl, fun _ => rfl⟩

def MacroProposal.layout : Layout8 MacroProposal :=
  (MacroCheckpoint.layout.pair (ValidatorId.layout.pair
    (VrfProof.layout.pair BlsSig.layout))).of
    ⟨fun p => (p.checkpoint, p.proposer, p.vrfProof, p.proposerSig),
      fun p => ⟨p.1, p.2.1, p.2.2.1, p.2.2.2⟩, fun _ => rfl, fun _ => rfl⟩

def AggregationMode.tag : PEquiv AggregationMode ℕ where
  toFun
    | .mode0Flat => some 0
    | .modeASubnet => some 1
    | .modeBLeaderless => some 2
  invFun
    | 0 => some .mode0Flat
    | 1 => some .modeASubnet
    | 2 => some .modeBLeaderless
    | _ => none
  inv := by rintro (_ | _ | _) (_ | _ | _ | n) <;> simp

def AggregationMode.layout : Layout8 AggregationMode := u8.along tag

def MacroQc.layout : Layout8 MacroQc :=
  (Hash32.layout.pair (AggregationMode.layout.pair BlsAggSig.layout)).of
    ⟨fun q => (q.checkpointHash, q.mode, q.agg), fun p => ⟨p.1, p.2.1, p.2.2⟩,
      fun _ => rfl, fun _ => rfl⟩

def MicroQc.layout : Layout8 MicroQc :=
  (Hash32.layout.pair BlsAggSig.layout).of
    ⟨fun q => (q.checkpointHash, q.agg), fun p => ⟨p.1, p.2⟩, fun _ => rfl, fun _ => rfl⟩

def MacroEquivocation.layout : Layout8 MacroEquivocation :=
  (ValidatorId.layout.pair ((MacroCheckpoint.layout.pair BlsSig.layout).pair
    (MacroCheckpoint.layout.pair BlsSig.layout))).of
    ⟨fun e => (e.validator, e.a, e.b), fun p => ⟨p.1, p.2.1, p.2.2⟩, fun _ => rfl, fun _ => rfl⟩

def SurroundVote.layout : Layout8 SurroundVote :=
  (ValidatorId.layout.pair (u64.pair (u64.pair (BlsSig.layout.pair (Hash32.layout.pair
    (u64.pair (u64.pair (BlsSig.layout.pair Hash32.layout)))))))).of
    ⟨fun e => (e.validator, e.aSource, e.aTarget, e.aSig, e.aCheckpoint, e.bSource, e.bTarget,
        e.bSig, e.bCheckpoint),
      fun p => ⟨p.1, p.2.1, p.2.2.1, p.2.2.2.1, p.2.2.2.2.1, p.2.2.2.2.2.1, p.2.2.2.2.2.2.1,
        p.2.2.2.2.2.2.2.1, p.2.2.2.2.2.2.2.2⟩, fun _ => rfl, fun _ => rfl⟩

def DoubleVote.layout : Layout8 DoubleVote :=
  (ValidatorId.layout.pair (u64.pair (Hash32.layout.pair (BlsSig.layout.pair
    (Hash32.layout.pair BlsSig.layout))))).of
    ⟨fun e => (e.validator, e.target, e.aCheckpoint, e.aSig, e.bCheckpoint, e.bSig),
      fun p => ⟨p.1, p.2.1, p.2.2.1, p.2.2.2.1, p.2.2.2.2.1, p.2.2.2.2.2⟩,
      fun _ => rfl, fun _ => rfl⟩

def VertexEquivocation.layout : Layout8 VertexEquivocation :=
  (ValidatorId.layout.pair ((Vertex.layout.pair BlsSig.layout).pair
    (Vertex.layout.pair BlsSig.layout))).of
    ⟨fun e => (e.validator, e.a, e.b), fun p => ⟨p.1, p.2.1, p.2.2⟩, fun _ => rfl, fun _ => rfl⟩

namespace SlashEvidence

def tag : SlashEvidence → ℕ
  | .macroEquivocation _ => 0
  | .surround _ => 1
  | .doubleVote _ => 2
  | .vertexEquivocation _ => 3

def kind {β : Type} (f : Layout8 β) (mk : β → SlashEvidence) (get : SlashEvidence → Option β)
    (h : ∀ e b, mk b = e ↔ get e = some b) : Layout8 SlashEvidence :=
  f.along ⟨get, fun b => some (mk b), by simpa using h⟩

def body : ℕ → Layout8 SlashEvidence
  | 0 => kind MacroEquivocation.layout .macroEquivocation
      (fun | .macroEquivocation e => some e | _ => none)
      (by rintro (_ | _ | _ | _) <;> simp [eq_comm])
  | 1 => kind SurroundVote.layout .surround (fun | .surround e => some e | _ => none)
      (by rintro (_ | _ | _ | _) <;> simp [eq_comm])
  | 2 => kind DoubleVote.layout .doubleVote (fun | .doubleVote e => some e | _ => none)
      (by rintro (_ | _ | _ | _) <;> simp [eq_comm])
  | 3 => kind VertexEquivocation.layout .vertexEquivocation
      (fun | .vertexEquivocation e => some e | _ => none)
      (by rintro (_ | _ | _ | _) <;> simp [eq_comm])
  | _ => never

theorem tag_of_body (i : ℕ) (e : SlashEvidence) (w : WireBytes) (h : (body i).write e = some w) :
    e.tag = i := by
  match i with
  | 0 | 1 | 2 | 3 =>
    obtain ⟨b, hb, -⟩ := Option.bind_eq_some_iff.mp h
    cases e <;> first | rfl | cases hb
  | n + 4 => cases h

def layout : Layout8 SlashEvidence := tagged u8 tag body tag_of_body

end SlashEvidence

/- The messages of `consensus::event` and `dag::blob::chunk`. -/

def BlsPartial.layout : Layout8 BlsPartial :=
  (u32.pair (ValidatorId.layout.pair (Hash32.layout.pair BlsSig.layout))).of
    ⟨fun p => (p.subnet, p.validator, p.checkpointHash, p.sig),
      fun p => ⟨p.1, p.2.1, p.2.2.1, p.2.2.2⟩, fun _ => rfl, fun _ => rfl⟩

def SubnetAggregate.layout : Layout8 SubnetAggregate :=
  (u32.pair (Hash32.layout.pair BlsAggSig.layout)).of
    ⟨fun a => (a.subnet, a.checkpointHash, a.agg), fun p => ⟨p.1, p.2.1, p.2.2⟩,
      fun _ => rfl, fun _ => rfl⟩

def ChunkPayload.layout : Layout8 ChunkPayload :=
  (u8.pair (u32.pair (u32.pair (vec ((symbol _).of
    ⟨Byte.bits, Byte.mk, fun _ => rfl, fun _ => rfl⟩))))).along
    ⟨fun | .erasure index n data => some (0, index, n, data),
      fun p => if p.1 = 0 then some (.erasure p.2.1 p.2.2.1 p.2.2.2) else none, by
        rintro ⟨index, n, data⟩ ⟨i, index', n', data'⟩
        constructor
        · intro h
          dsimp only at h
          split at h
          · rename_i hi
            cases h
            rw [hi]
          · cases h
        · intro h
          cases h
          rfl⟩

def BlobChunk.layout : Layout8 BlobChunk :=
  (BlobId.layout.pair (u64.pair ChunkPayload.layout)).of
    ⟨fun c => (c.blobId, c.sizeBytes, c.payload), fun p => ⟨p.1, p.2.1, p.2.2⟩,
      fun _ => rfl, fun _ => rfl⟩

def Borsh.codec {α : Type} (f : Layout8 α) : Codec α where
  toVec a := (f.write a).elim (.error "unwritable") .ok
  fromSlice s := (f.readAll s).elim (.error "unreadable") .ok

def derivedBorsh : Borsh where
  microQc := Borsh.codec MicroQc.layout
  macroProposal := Borsh.codec MacroProposal.layout
  blsPartial := Borsh.codec BlsPartial.layout
  subnetAggregate := Borsh.codec SubnetAggregate.layout
  macroQc := Borsh.codec MacroQc.layout
  slashEvidence := Borsh.codec SlashEvidence.layout
  vertexProposal := Borsh.codec VertexProposal.layout
  vertexPartial := Borsh.codec VertexPartial.layout
  certifiedVertex := Borsh.codec CertifiedVertex.layout
  blobChunk := Borsh.codec BlobChunk.layout

end LuaDag
