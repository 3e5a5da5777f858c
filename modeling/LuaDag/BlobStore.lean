import LuaDag.ReedSolomon
import LuaDag.Maps
import LuaDag.Types

/-! Chunks of blobs and the rows the node keeps of them (`dag::blob::chunk`,
`storage::stores`, `RocksBlobStore`). Rows are the values they encode; a batch is written as
a whole or not at all, and what is written stays. -/
namespace LuaDag
open ReedSolomon (Rows)

theorem BlobId.val_injective : Function.Injective BlobId.val := by
  intro a b h
  cases a
  cases b
  exact congrArg BlobId.mk h

instance : LinearOrder BlobId := LinearOrder.lift' BlobId.val BlobId.val_injective

/- Domain-separation tags and inputs of the hashes on the blob path. -/
inductive BlobDst where
  | blobId | blobShard | blobMerkleNode | blobRsRoot
deriving DecidableEq, Repr

inductive BlobText where
  | bytes (b : List Byte)
  | hash (h : Hash32)
  | pair (a b : Hash32)
deriving DecidableEq

abbrev BlobHash := BlobDst → BlobText → Hash32

def blobIdFromPayload (blake3 : BlobHash) (payload : List Byte) : BlobId :=
  ⟨(blake3 .blobId (.bytes payload)).val⟩

def shardLeafHash (blake3 : BlobHash) (shard : List Byte) : Hash32 :=
  blake3 .blobShard (.bytes shard)

def merkleLayer (blake3 : BlobHash) : List Hash32 → List Hash32
  | [] => []
  | [a] => [blake3 .blobMerkleNode (.pair a a)]
  | a :: b :: rest => blake3 .blobMerkleNode (.pair a b) :: merkleLayer blake3 rest

def merkleRoot (blake3 : BlobHash) : ℕ → List Hash32 → Hash32
  | 0, layer => layer.headD Hash32.zero
  | fuel + 1, layer =>
    if 1 < layer.length then merkleRoot blake3 fuel (merkleLayer blake3 layer)
    else layer.headD Hash32.zero

def rsMerkleCommitment (blake3 : BlobHash) (shards : Rows) : Hash32 :=
  let leaves := shards.map (shardLeafHash blake3)
  blake3 .blobRsRoot (.hash (merkleRoot blake3 leaves.length leaves))

inductive ChunkPayload where
  | erasure (index nShards : ℕ) (data : List Byte)
deriving DecidableEq

structure BlobChunk where
  blobId : BlobId
  sizeBytes : ℕ
  payload : ChunkPayload
deriving DecidableEq

namespace BlobChunk

def index (c : BlobChunk) : ℕ :=
  match c.payload with
  | .erasure index _ _ => index

def unitCount (c : BlobChunk) : ℕ :=
  match c.payload with
  | .erasure _ nShards _ => nShards

def data (c : BlobChunk) : List Byte :=
  match c.payload with
  | .erasure _ _ data => data

end BlobChunk

def erasureChunks (blobId : BlobId) (sizeBytes : ℕ) (shards : Rows) : List BlobChunk :=
  shards.zipIdx.map fun e => ⟨blobId, sizeBytes, .erasure e.2 shards.length e.1⟩

structure StoredChunk where
  totalChunks : ℕ
  sizeBytes : ℕ
  data : List Byte
deriving DecidableEq

inductive PublishState where
  /-- Locally durable, awaiting vertex attach. -/
  | ready
  /-- Included in a sealed local vertex proposal. -/
  | attached
deriving DecidableEq, Repr

structure PublishRecord where
  state : ℕ
  blobRef : BlobRef
deriving DecidableEq, Repr

inductive StorageError where
  | logic (msg : String)
  | rocks (msg : String)
deriving DecidableEq, Repr

namespace PublishState

def toByte : PublishState → ℕ
  | .ready => 0
  | .attached => 1

def fromByte : ℕ → Except StorageError PublishState
  | 0 => .ok .ready
  | 1 => .ok .attached
  | _ => .error (.logic "invalid publish state byte")

@[simp] theorem fromByte_toByte (s : PublishState) : fromByte s.toByte = .ok s := by
  cases s <;> rfl

theorem toByte_injective {s t : PublishState} (h : s.toByte = t.toByte) : s = t := by
  cases s <;> cases t <;> first | rfl | cases h

end PublishState

structure Database where
  blobChunk : Std.TreeMap (BlobId ×ₗ ℕ) StoredChunk := ∅
  blobPublish : Std.TreeMap BlobId PublishRecord := ∅

inductive RowPut where
  | chunk (id : BlobId) (index : ℕ) (row : StoredChunk)
  | publish (id : BlobId) (row : PublishRecord)

abbrev WriteBatch := List RowPut

namespace Database

def put (db : Database) : RowPut → Database
  | .chunk id index row => { db with blobChunk := db.blobChunk.insert (toLex (id, index)) row }
  | .publish id row => { db with blobPublish := db.blobPublish.insert id row }

def apply (io : Except StorageError Unit) (batch : WriteBatch) (db : Database) :
    Except StorageError Database :=
  io.map fun _ => batch.foldl put db

/- Chunk rows. -/

def rowOf (c : BlobChunk) : RowPut :=
  .chunk c.blobId c.index ⟨c.unitCount, c.sizeBytes, c.data⟩

def putChunk (io : Except StorageError Unit) (c : BlobChunk) (db : Database) :
    Except StorageError Database :=
  db.apply io [rowOf c]

def getChunk (db : Database) (id : BlobId) (index : ℕ) : Option (List Byte) :=
  db.blobChunk[toLex (id, index)]?.map (·.data)

def hasChunk (db : Database) (id : BlobId) (index : ℕ) : Bool :=
  db.blobChunk[toLex (id, index)]?.isSome

/- Publish rows. -/

def putReadyBatch (batch : WriteBatch) (id : BlobId) (record : PublishRecord) :
    Except StorageError WriteBatch :=
  if record.state ≠ PublishState.ready.toByte then
    .error (.logic "put_ready_batch requires Ready state")
  else .ok (batch ++ [.publish id record])

def publishBlobAtomic (io : Except StorageError Unit) (chunks : List BlobChunk)
    (record : PublishRecord) (db : Database) : Except StorageError Database :=
  match putReadyBatch (chunks.map rowOf) record.blobRef.blobId record with
  | .error e => .error e
  | .ok batch => db.apply io batch

/-- `put_attached` up to its write, `Ready -> Attached`: the row to write, none for a blob that is
attached already. -/
def attachedRow (db : Database) (id : BlobId) : Except StorageError (Option PublishRecord) :=
  match db.blobPublish[id]? with
  | none => .error (.logic "mark_attached: publish record missing")
  | some record =>
    match PublishState.fromByte record.state with
    | .error e => .error e
    | .ok .attached => .ok none
    | .ok .ready => .ok (some { record with state := PublishState.attached.toByte })

def isAttached (db : Database) (id : BlobId) : Except StorageError Bool :=
  match db.blobPublish[id]? with
  | none => .ok false
  | some record =>
    match PublishState.fromByte record.state with
    | .error e => .error e
    | .ok state => .ok (decide (state = .attached))

def scanRows : List (BlobId × PublishRecord) → Except StorageError (List BlobRef)
  | [] => .ok []
  | (_, record) :: rows =>
    match PublishState.fromByte record.state with
    | .error e => .error e
    | .ok state =>
      (scanRows rows).map fun refs => if state = .ready then record.blobRef :: refs else refs

def scanReady (db : Database) : Except StorageError (List BlobRef) :=
  scanRows db.blobPublish.toList

/- What the rows say. -/

def stateOf (db : Database) (id : BlobId) (state : PublishState) : Prop :=
  ∃ record : PublishRecord, db.blobPublish[id]? = some record ∧ record.state = state.toByte

/-- Every publish row has a known state and lies under its own key. -/
def WellFormed (db : Database) : Prop :=
  ∀ (id : BlobId) (record : PublishRecord), db.blobPublish[id]? = some record →
    (∃ state : PublishState, record.state = state.toByte) ∧ record.blobRef.blobId = id

section Rows
variable {db db' : Database} {id : BlobId} {io : Except StorageError Unit}

theorem stateOf_unique {s t : PublishState} (hs : db.stateOf id s) (ht : db.stateOf id t) :
    s = t := by
  obtain ⟨record, hrow, hstate⟩ := hs
  obtain ⟨record', hrow', hstate'⟩ := ht
  rw [hrow] at hrow'
  cases hrow'
  exact PublishState.toByte_injective (hstate.symm.trans hstate')

theorem stateOf_put {row : PublishRecord} {other : BlobId} {state : PublishState} :
    (db.put (.publish id row)).stateOf other state ↔
      if id = other then row.state = state.toByte else db.stateOf other state := by
  unfold stateOf put
  simp only [Maps.get_insert]
  by_cases h : id = other
  · rw [if_pos h, if_pos h]
    simp
  · rw [if_neg h, if_neg h]

theorem WellFormed.congr (hwf : db.WellFormed) (h : db'.blobPublish = db.blobPublish) :
    db'.WellFormed := by
  intro id record hrow
  rw [h] at hrow
  exact hwf id record hrow

theorem WellFormed.put_publish (hwf : db.WellFormed) {row : PublishRecord}
    (hstate : ∃ state : PublishState, row.state = state.toByte) (hid : row.blobRef.blobId = id) :
    (db.put (.publish id row)).WellFormed := by
  intro other record hrow
  simp only [put, Maps.get_insert] at hrow
  split at hrow
  · rename_i heq
    cases hrow
    exact ⟨hstate, hid.trans heq⟩
  · exact hwf other record hrow

theorem apply_ok {batch : WriteBatch} (h : db.apply io batch = .ok db') :
    io = .ok () ∧ db' = batch.foldl put db := by
  cases io with
  | error e => cases h
  | ok u =>
    cases h
    exact ⟨rfl, rfl⟩

theorem putChunks_publish (chunks : List BlobChunk) :
    ((chunks.map rowOf).foldl put db).blobPublish = db.blobPublish := by
  induction chunks generalizing db with
  | nil => rfl
  | cons c chunks ih =>
    rw [List.map_cons, List.foldl_cons, ih]
    rfl

theorem hasChunk_put {j : ℕ} {row : RowPut} (h : db.hasChunk id j = true) :
    (db.put row).hasChunk id j = true := by
  cases row with
  | chunk id' i row =>
    simp only [hasChunk, put, Maps.get_insert] at h ⊢
    split
    · rfl
    · exact h
  | publish id' row => exact h

theorem hasChunk_puts {j : ℕ} {batch : WriteBatch} (h : db.hasChunk id j = true) :
    (batch.foldl put db).hasChunk id j = true := by
  induction batch generalizing db with
  | nil => exact h
  | cons row batch ih => exact ih (hasChunk_put h)

theorem hasChunk_putChunks {chunks : List BlobChunk} {c : BlobChunk} (hc : c ∈ chunks) :
    ((chunks.map rowOf).foldl put db).hasChunk c.blobId c.index = true := by
  induction chunks generalizing db with
  | nil => cases hc
  | cons d chunks ih =>
    rw [List.map_cons, List.foldl_cons]
    cases List.mem_cons.mp hc with
    | inl heq =>
      subst heq
      refine hasChunk_puts ?_
      simp [hasChunk, put, rowOf]
    | inr hin => exact ih hin

theorem publishBlobAtomic_ok {chunks : List BlobChunk} {record : PublishRecord}
    (h : db.publishBlobAtomic io chunks record = .ok db') :
    record.state = PublishState.ready.toByte ∧ io = .ok () ∧
      db' = ((chunks.map rowOf).foldl put db).put (.publish record.blobRef.blobId record) := by
  unfold publishBlobAtomic putReadyBatch at h
  by_cases hready : record.state = PublishState.ready.toByte
  · rw [if_neg (not_not.mpr hready)] at h
    obtain ⟨hio, hdb⟩ := apply_ok h
    refine ⟨hready, hio, ?_⟩
    rw [hdb, List.foldl_append]
    rfl
  · rw [if_pos hready] at h
    cases h

theorem attachedRow_ok {row : PublishRecord} (h : db.attachedRow id = .ok (some row)) :
    ∃ record : PublishRecord, db.blobPublish[id]? = some record ∧
      record.state = PublishState.ready.toByte ∧
      row = { record with state := PublishState.attached.toByte } := by
  unfold attachedRow at h
  split at h
  · cases h
  rename_i record hrow
  split at h
  · cases h
  · cases h
  · rename_i hstate
    cases h
    refine ⟨record, hrow, ?_, rfl⟩
    unfold PublishState.fromByte at hstate
    split at hstate
    · assumption
    · cases hstate
    · cases hstate

theorem isAttached_iff (hwf : db.WellFormed) :
    ∃ b, db.isAttached id = .ok b ∧ (b = true ↔ db.stateOf id .attached) := by
  unfold isAttached stateOf
  cases hrow : db.blobPublish[id]? with
  | none => exact ⟨false, rfl, by simp⟩
  | some record =>
    obtain ⟨⟨state, hstate⟩, -⟩ := hwf id record hrow
    refine ⟨decide (state = .attached), by simp [hstate], ?_⟩
    simp only [decide_eq_true_eq, Option.some.injEq, exists_eq_left', hstate]
    exact ⟨fun h => by rw [h], PublishState.toByte_injective⟩

theorem scanRows_spec {rows : List (BlobId × PublishRecord)}
    (hwf : ∀ e ∈ rows, ∃ state : PublishState, e.2.state = state.toByte) :
    scanRows rows = .ok ((rows.filter fun e =>
      decide (e.2.state = PublishState.ready.toByte)).map (·.2.blobRef)) := by
  induction rows with
  | nil => rfl
  | cons e rows ih =>
    obtain ⟨id, record⟩ := e
    obtain ⟨state, hstate⟩ := hwf (id, record) List.mem_cons_self
    change record.state = state.toByte at hstate
    have hrest := ih fun e he => hwf e (List.mem_cons_of_mem _ he)
    unfold scanRows
    simp only [hstate, PublishState.fromByte_toByte, hrest, Except.map, List.filter_cons]
    cases state <;> simp [PublishState.toByte]

/-- A scan of well-formed rows finds each `Ready` blob once. -/
theorem scanReady_spec (hwf : db.WellFormed) : ∃ refs, db.scanReady = .ok refs ∧
    (refs.map (·.blobId)).Nodup ∧ ∀ ref, ref ∈ refs ↔ ∃ record,
      db.blobPublish[ref.blobId]? = some record ∧ record.state = PublishState.ready.toByte ∧
        record.blobRef = ref := by
  have hrow : ∀ e ∈ db.blobPublish.toList, db.blobPublish[e.1]? = some e.2 :=
    fun e he => (Maps.mem_toList _ e.1 e.2).mp he
  refine ⟨_, scanRows_spec fun e he => (hwf e.1 e.2 (hrow e he)).1, ?_, ?_⟩
  · have hkeys : ((db.blobPublish.toList.filter fun e =>
        decide (e.2.state = PublishState.ready.toByte)).map (·.2.blobRef)).map (·.blobId) =
        (db.blobPublish.toList.filter fun e =>
          decide (e.2.state = PublishState.ready.toByte)).map (·.1) := by
      rw [List.map_map]
      refine List.map_congr_left ?_
      intro e he
      exact (hwf e.1 e.2 (hrow e (List.mem_filter.mp he).1)).2
    rw [hkeys]
    have hlt := (Maps.keys_lt db.blobPublish).filter fun e =>
      decide (e.2.state = PublishState.ready.toByte)
    exact List.pairwise_map.mpr (hlt.imp fun h => ne_of_lt h)
  · intro ref
    simp only [List.mem_map, List.mem_filter, decide_eq_true_eq, Prod.exists, Maps.mem_toList]
    constructor
    · rintro ⟨id, record, ⟨hin, hready⟩, rfl⟩
      have hid := (hwf id record hin).2
      exact ⟨record, by rw [hid]; exact hin, hready, rfl⟩
    · rintro ⟨record, hin, hready, rfl⟩
      exact ⟨_, record, ⟨hin, hready⟩, rfl⟩

end Rows
end Database
end LuaDag
