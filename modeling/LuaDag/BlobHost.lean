import LuaDag.CustodyLedger
import LuaDag.KeyedQueue
import LuaDag.Trace

/-! The blob half of a node (`blob::BlobCustodyHandle` and `BlobCustody`): payloads are
published, chunks arrive by gossip, and blobs wait in a queue for a vertex. A task holds its
locks for one section at a time, so anything can happen between two sections; a crash leaves
the database and nothing else. -/
namespace LuaDag
open ReedSolomon (Rows encodeShards)

structure BlobCustodyConfig where
  erasure : ErasureConfig

inductive HostError where
  | message (text : String)
  | erasure (e : ErasureError)
  | storage (e : StorageError)
  | panic (text : String)
deriving DecidableEq

abbrev PendingQueue := KeyedQueue fun ref : BlobRef => ref.blobId

structure BlobCustodyHandle where
  db : Database
  ledger : CustodyLedger := {}
  pending : PendingQueue := .empty
  bootSyncDone : Bool := false

namespace BlobCustodyHandle

def isAvailable (h : BlobCustodyHandle) (id : BlobId) : Bool := h.ledger.isAvailable id

def enqueuePending (h : BlobCustodyHandle) (ref : BlobRef) : BlobCustodyHandle :=
  { h with pending := (h.pending.enqueue ref).2 }

def skipsDrained (db : Database) (ref : BlobRef) : Bool :=
  match db.isAttached ref.blobId with
  | .ok true => true
  | .ok false => false
  | .error _ => false

def drainPending (h : BlobCustodyHandle) : List BlobRef × BlobCustodyHandle :=
  if h.bootSyncDone = false then ([], h)
  else
    let drained := h.pending.drain
    (drained.1.filter fun ref => !skipsDrained h.db ref, { h with pending := drained.2 })

def registerChunkInLedger (cfg : BlobCustodyConfig) (c : BlobChunk) (h : BlobCustodyHandle) :
    BlobCustodyHandle :=
  { h with ledger := h.ledger.registerErasure c.blobId cfg.erasure c.unitCount c.sizeBytes }

def noteChunk (c : BlobChunk) (h : BlobCustodyHandle) : BlobCustodyHandle :=
  { h with ledger := (h.ledger.noteChunk h.db c.blobId c.index).2 }

/- Boot. -/

def validateChunks (db : Database) (id : BlobId) (n : ℕ) : Bool :=
  (List.range n).all fun index => db.hasChunk id index

def rehydrateLedger (cfg : BlobCustodyConfig) (ref : BlobRef) (h : BlobCustodyHandle) :
    BlobCustodyHandle :=
  let ledger := h.ledger.registerErasure ref.blobId cfg.erasure cfg.erasure.n ref.sizeBytes
  { h with ledger := (List.range cfg.erasure.n).foldl (fun ledger index =>
      if h.db.hasChunk ref.blobId index then (ledger.noteChunkPresent ref.blobId index).2
      else ledger) ledger }

def recoverBlob (cfg : BlobCustodyConfig) (h : BlobCustodyHandle) (ref : BlobRef) :
    BlobCustodyHandle :=
  if validateChunks h.db ref.blobId cfg.erasure.n then
    (h.rehydrateLedger cfg ref).enqueuePending ref
  else h

def runBootRecovery (cfg : BlobCustodyConfig) (h : BlobCustodyHandle) : BlobCustodyHandle :=
  match h.db.scanReady with
  | .error _ => h
  | .ok ready => ready.foldl (recoverBlob cfg) h

def spawn (cfg : BlobCustodyConfig) (db : Database) : BlobCustodyHandle :=
  { runBootRecovery cfg { db } with bootSyncDone := true }

/- Publication. -/

def blobRefCommitment (blake3 : BlobHash) (cfg : BlobCustodyConfig) (payload : List Byte) :
    Except HostError Hash32 :=
  match encodeShards payload cfg.erasure with
  | .error _ => .error (.panic "encode shards")
  | .ok shards => .ok (rsMerkleCommitment blake3 shards)

/-- What `publish_payload` does up to the commit of its batch: the blob's reference and chunks,
and the database with them. -/
def publishDurably (blake3 : BlobHash) (cfg : BlobCustodyConfig) (io : Except StorageError Unit)
    (payload : List Byte) (h : BlobCustodyHandle) :
    Except HostError (BlobRef × List BlobChunk × Database) :=
  if h.bootSyncDone = false then .error (.message "boot recovery not complete")
  else
    let blobId := blobIdFromPayload blake3 payload
    let sizeBytes := payload.length
    match encodeShards payload cfg.erasure with
    | .error e => .error (.erasure e)
    | .ok shards =>
      let chunks := erasureChunks blobId sizeBytes shards
      match blobRefCommitment blake3 cfg payload with
      | .error e => .error e
      | .ok commitment =>
        let blobRef : BlobRef := ⟨blobId, commitment, sizeBytes⟩
        let record : PublishRecord := ⟨PublishState.ready.toByte, blobRef⟩
        match h.db.publishBlobAtomic io chunks record with
        | .error e => .error (.storage e)
        | .ok db => .ok (blobRef, chunks, db)

end BlobCustodyHandle

inductive LedgerTask where
  | register (chunks : List BlobChunk)
  | note (chunk : BlobChunk) (rest : List BlobChunk)

inductive Task where
  /-- The blob is durable and goes into the queue. -/
  | enqueue (blobRef : BlobRef) (chunks : List BlobChunk)
  | ledger (rest : LedgerTask)
  /-- The record has been read; `row` is to be written. -/
  | attach (id : BlobId) (row : PublishRecord)

def LedgerTask.run (cfg : BlobCustodyConfig) (h : BlobCustodyHandle) :
    LedgerTask → Option LedgerTask × BlobCustodyHandle
  | .register [] => (none, h)
  | .register (c :: rest) => (some (.note c rest), h.registerChunkInLedger cfg c)
  | .note c rest => (some (.register rest), h.noteChunk c)

def Task.run (cfg : BlobCustodyConfig) (io : Except StorageError Unit) (h : BlobCustodyHandle) :
    Task → Outcome HostError Empty BlobRef (Option Task × BlobCustodyHandle)
  | .enqueue blobRef chunks =>
    .quiet (some (.ledger (.register chunks)), h.enqueuePending blobRef)
  | .ledger rest => .quiet ((rest.run cfg h).1.map .ledger, (rest.run cfg h).2)
  | .attach id row =>
    match h.db.apply io [.publish id row] with
    | .error e => .fail (none, h) (.storage e)
    | .ok db => .quiet (none, { h with db })

/-- A node: what its tasks share, the tasks under way, and what the ingest loop still has to do
for the chunk it has stored last. -/
structure World where
  host : BlobCustodyHandle
  tasks : List Task := []
  ingesting : Option LedgerTask := none

inductive HostMove where
  | publishPayload (payload : List Byte) (io : Except StorageError Unit)
  | drainPending
  | markAttached (id : BlobId)
  /-- The task with that number gets on with its next section. -/
  | proceed (task : ℕ) (io : Except StorageError Unit)
  /-- The ingest loop takes a chunk from its channel. -/
  | receive (chunk : BlobChunk) (io : Except StorageError Unit)
  | ingest
  | crash

namespace World
open BlobCustodyHandle

def boot (cfg : BlobCustodyConfig) (db : Database) : World := { host := spawn cfg db }

def replaceTask (tasks : List Task) (i : ℕ) : Option Task → List Task
  | none => tasks.eraseIdx i
  | some task => tasks.set i task

def step (blake3 : BlobHash) (cfg : BlobCustodyConfig) :
    HostMove → World → Outcome HostError Empty BlobRef World
  | .publishPayload payload io, w =>
    match w.host.publishDurably blake3 cfg io payload with
    | .error e => .fail w e
    | .ok (blobRef, chunks, db) =>
      .quiet { w with
        host := { w.host with db }
        tasks := w.tasks ++ [.enqueue blobRef chunks] }
  | .drainPending, w => .ok { w with host := w.host.drainPending.2 } w.host.drainPending.1
  | .markAttached id, w =>
    match w.host.db.attachedRow id with
    | .error e => .fail w (.storage e)
    | .ok none => .quiet w
    | .ok (some row) => .quiet { w with tasks := w.tasks ++ [.attach id row] }
  | .proceed i io, w =>
    match w.tasks[i]? with
    | none => .quiet w
    | some task => (task.run cfg io w.host).lift fun s =>
        { w with host := s.2, tasks := replaceTask w.tasks i s.1 }
  | .receive chunk io, w =>
    -- The loop takes no chunk before it is done with the last one.
    if w.ingesting.isSome then .quiet w
    else
      match w.host.db.putChunk io chunk with
      | .error _ => .quiet w
      | .ok db =>
        .quiet { w with host := { w.host with db }, ingesting := some (.register [chunk]) }
  | .ingest, w =>
    match w.ingesting with
    | none => .quiet w
    | some rest =>
      .quiet { w with host := (rest.run cfg w.host).2, ingesting := (rest.run cfg w.host).1 }
  | .crash, w => .quiet (boot cfg w.host.db)

end World

abbrev World.after (blake3 : BlobHash) (cfg : BlobCustodyConfig) (db : Database)
    (moves : List HostMove) : World :=
  Trace.final (World.step blake3 cfg) (World.boot cfg db) moves

abbrev World.history (blake3 : BlobHash) (cfg : BlobCustodyConfig) (db : Database)
    (moves : List HostMove) : List (Call HostMove World) :=
  Trace.calls (World.step blake3 cfg) (World.boot cfg db) moves

/- Frames: what the parts of the host leave alone. -/
namespace BlobCustodyHandle
variable {cfg : BlobCustodyConfig} {h : BlobCustodyHandle} {db : Database}

@[simp] theorem enqueuePending_db (ref : BlobRef) : (h.enqueuePending ref).db = h.db := rfl
@[simp] theorem rehydrateLedger_db (ref : BlobRef) : (h.rehydrateLedger cfg ref).db = h.db := rfl
@[simp] theorem rehydrateLedger_pending (ref : BlobRef) :
    (h.rehydrateLedger cfg ref).pending = h.pending := rfl

@[simp] theorem recoverBlob_db (ref : BlobRef) : (recoverBlob cfg h ref).db = h.db := by
  unfold recoverBlob
  split <;> rfl

theorem recoverBlobs_db (refs : List BlobRef) : (refs.foldl (recoverBlob cfg) h).db = h.db := by
  induction refs generalizing h with
  | nil => rfl
  | cons ref refs ih => rw [List.foldl_cons, ih, recoverBlob_db]

@[simp] theorem spawn_db : (spawn cfg db).db = db := by
  unfold spawn runBootRecovery
  dsimp only
  split
  · rfl
  · rw [recoverBlobs_db]

@[simp] theorem spawn_done : (spawn cfg db).bootSyncDone = true := rfl

@[simp] theorem drainPending_db : h.drainPending.2.db = h.db := by
  unfold drainPending
  split <;> rfl

@[simp] theorem drainPending_done : h.drainPending.2.bootSyncDone = h.bootSyncDone := by
  unfold drainPending
  split <;> rfl

/- Publication. -/
section Publication
variable {blake3 : BlobHash} {io : Except StorageError Unit} {payload : List Byte}

theorem publishDurably_ok {blobRef : BlobRef} {chunks : List BlobChunk} {db : Database}
    (hok : h.publishDurably blake3 cfg io payload = .ok (blobRef, chunks, db)) :
    ∃ shards, encodeShards payload cfg.erasure = .ok shards ∧ io = .ok () ∧
      blobRef.blobId = blobIdFromPayload blake3 payload ∧
      blobRef.sizeBytes = payload.length ∧
      chunks = erasureChunks blobRef.blobId payload.length shards ∧
      db = ((chunks.map Database.rowOf).foldl Database.put h.db).put
        (.publish blobRef.blobId ⟨PublishState.ready.toByte, blobRef⟩) := by
  unfold publishDurably at hok
  split at hok
  · cases hok
  dsimp only at hok
  split at hok
  · cases hok
  rename_i shards hshards
  split at hok
  · cases hok
  split at hok
  · cases hok
  rename_i db' hdb
  cases hok
  obtain ⟨-, hio, hdb⟩ := Database.publishBlobAtomic_ok hdb
  exact ⟨shards, hshards, hio, rfl, rfl, rfl, hdb⟩

/-- When a publication goes through: the parameters are sound, the payload fits and the disk
takes the batch. -/
theorem publishDurably_ok_iff (hdone : h.bootSyncDone = true) :
    (∃ r, h.publishDurably blake3 cfg io payload = .ok r) ↔
      ReedSolomon.Valid cfg.erasure ∧ payload.length ≤ cfg.erasure.paddedLen ∧ io = .ok () := by
  constructor
  · rintro ⟨⟨blobRef, chunks, db⟩, hok⟩
    obtain ⟨shards, hshards, hio, -⟩ := publishDurably_ok hok
    obtain ⟨hcfg, hlen⟩ := (ReedSolomon.encodeShards_ok_iff payload).mp ⟨shards, hshards⟩
    exact ⟨hcfg, hlen, hio⟩
  · rintro ⟨hcfg, hlen, rfl⟩
    obtain ⟨shards, hshards⟩ := (ReedSolomon.encodeShards_ok_iff payload).mpr ⟨hcfg, hlen⟩
    unfold publishDurably blobRefCommitment Database.publishBlobAtomic Database.putReadyBatch
    rw [hdone, if_neg (by decide)]
    dsimp only
    rw [hshards]
    exact ⟨_, rfl⟩

/-- A publication puts the record of its blob to `Ready` and leaves the other records alone. -/
theorem publishDurably_record {blobRef : BlobRef} {chunks : List BlobChunk} {db : Database}
    (hok : h.publishDurably blake3 cfg io payload = .ok (blobRef, chunks, db)) :
    db.blobPublish = h.db.blobPublish.insert (blobIdFromPayload blake3 payload)
      ⟨PublishState.ready.toByte, blobRef⟩ := by
  obtain ⟨shards, -, -, hid, -, -, rfl⟩ := publishDurably_ok hok
  rw [← hid]
  simp only [Database.put, Database.putChunks_publish]

end Publication
end BlobCustodyHandle

/- What a move can do. -/
section Moves
variable {blake3 : BlobHash} {cfg : BlobCustodyConfig} {w : World}
open BlobCustodyHandle

@[simp] theorem LedgerTask.run_db (rest : LedgerTask) (h : BlobCustodyHandle) :
    (rest.run cfg h).2.db = h.db := by
  cases rest with
  | register chunks => cases chunks <;> rfl
  | note c rest => rfl

@[simp] theorem LedgerTask.run_pending (rest : LedgerTask) (h : BlobCustodyHandle) :
    (rest.run cfg h).2.pending = h.pending := by
  cases rest with
  | register chunks => cases chunks <;> rfl
  | note c rest => rfl

@[simp] theorem LedgerTask.run_done (rest : LedgerTask) (h : BlobCustodyHandle) :
    (rest.run cfg h).2.bootSyncDone = h.bootSyncDone := by
  cases rest with
  | register chunks => cases chunks <;> rfl
  | note c rest => rfl

theorem Task.run_db (task : Task) (io : Except StorageError Unit) (h : BlobCustodyHandle) :
    (task.run cfg io h).state.2.db = h.db ∨ ∃ id row, task = .attach id row ∧
      (task.run cfg io h).state.2.db = h.db.put (.publish id row) := by
  cases task with
  | enqueue blobRef chunks => exact Or.inl rfl
  | ledger rest => exact Or.inl (rest.run_db h)
  | attach id row =>
    unfold run
    cases io with
    | error e => exact Or.inl rfl
    | ok u => exact Or.inr ⟨id, row, rfl, rfl⟩

theorem Task.run_rest {task : Task} {io : Except StorageError Unit} {h : BlobCustodyHandle}
    {id : BlobId} {row : PublishRecord} :
    (task.run cfg io h).state.1 ≠ some (.attach id row) := by
  intro heq
  cases task with
  | enqueue blobRef chunks => cases heq
  | ledger rest =>
    obtain ⟨t, -, ht⟩ := Option.map_eq_some_iff.mp heq
    cases ht
  | attach id' row' =>
    unfold run at heq
    cases io <;> cases heq

@[simp] theorem Task.run_done (task : Task) (io : Except StorageError Unit)
    (h : BlobCustodyHandle) : (task.run cfg io h).state.2.bootSyncDone = h.bootSyncDone := by
  cases task with
  | enqueue blobRef chunks => rfl
  | ledger rest => exact rest.run_done h
  | attach id row => cases io <;> rfl

namespace World

theorem mem_replaceTask {tasks : List Task} {i : ℕ} {rest : Option Task} {task : Task}
    (h : task ∈ replaceTask tasks i rest) : task ∈ tasks ∨ rest = some task := by
  cases rest with
  | none => exact Or.inl (List.mem_of_mem_eraseIdx h)
  | some rest =>
    cases List.mem_or_eq_of_mem_set h with
    | inl hold => exact Or.inl hold
    | inr heq => exact Or.inr (congrArg some heq.symm)

inductive Writes (blake3 : BlobHash) (cfg : BlobCustodyConfig) (w : World) :
    HostMove → Database → Prop
  | nothing (m : HostMove) : Writes blake3 cfg w m w.host.db
  | publish (payload : List Byte) (io : Except StorageError Unit) (blobRef : BlobRef)
      (chunks : List BlobChunk) (db : Database)
      (hok : w.host.publishDurably blake3 cfg io payload = .ok (blobRef, chunks, db)) :
      Writes blake3 cfg w (.publishPayload payload io) db
  | chunk (c : BlobChunk) (io : Except StorageError Unit) (db : Database)
      (hok : w.host.db.putChunk io c = .ok db) : Writes blake3 cfg w (.receive c io) db
  | attach (m : HostMove) (id : BlobId) (row : PublishRecord)
      (hrun : Task.attach id row ∈ w.tasks) :
      Writes blake3 cfg w m (w.host.db.put (.publish id row))

/-- A publication up to its ledger: the batch is written, and the chunks wait to be enqueued. -/
theorem step_publish {payload : List Byte} {io : Except StorageError Unit} {blobRef : BlobRef}
    {chunks : List BlobChunk} {db : Database}
    (hok : w.host.publishDurably blake3 cfg io payload = .ok (blobRef, chunks, db)) :
    (step blake3 cfg (.publishPayload payload io) w).state =
      { w with host := { w.host with db }, tasks := w.tasks ++ [.enqueue blobRef chunks] } := by
  simp only [step, hok, Outcome.quiet_state]

theorem step_writes (m : HostMove) (w : World) :
    Writes blake3 cfg w m (step blake3 cfg m w).state.host.db := by
  cases m with
  | publishPayload payload io =>
    simp only [step]
    split
    · exact .nothing _
    · rename_i blobRef chunks db hok
      exact .publish payload io blobRef chunks db hok
  | drainPending =>
    simp only [step, Outcome.ok_state, drainPending_db]
    exact .nothing _
  | markAttached id =>
    simp only [step]
    split <;> exact .nothing _
  | proceed i io =>
    simp only [step]
    split
    · exact .nothing _
    rename_i task htask
    have hin : task ∈ w.tasks := List.mem_of_getElem? htask
    cases @Task.run_db cfg task io w.host with
    | inl hsame =>
      simp only [Outcome.lift_state, hsame]
      exact .nothing _
    | inr hwrite =>
      obtain ⟨id, row, rfl, hdb⟩ := hwrite
      simp only [Outcome.lift_state, hdb]
      exact .attach _ id row hin
  | receive c io =>
    simp only [step]
    split
    · exact .nothing _
    split
    · exact .nothing _
    · rename_i db hok
      exact .chunk c io db hok
  | ingest =>
    simp only [step]
    split
    · exact .nothing _
    · simp only [Outcome.quiet_state, LedgerTask.run_db]
      exact .nothing _
  | crash =>
    simp only [step, boot, Outcome.quiet_state, spawn_db]
    exact .nothing _

/-- A write of `Attached` is under way only if the row has been read before. -/
theorem step_attach {m : HostMove} {id : BlobId} {row : PublishRecord}
    (h : Task.attach id row ∈ (step blake3 cfg m w).state.tasks) :
    Task.attach id row ∈ w.tasks ∨
      m = .markAttached id ∧ w.host.db.attachedRow id = .ok (some row) := by
  cases m with
  | publishPayload payload io =>
    simp only [step] at h
    split at h
    · exact Or.inl h
    · cases List.mem_append.mp h with
      | inl hold => exact Or.inl hold
      | inr hnew => cases List.mem_singleton.mp hnew
  | drainPending => exact Or.inl h
  | markAttached id' =>
    simp only [step] at h
    split at h
    · exact Or.inl h
    · exact Or.inl h
    · rename_i row' hrow
      cases List.mem_append.mp h with
      | inl hold => exact Or.inl hold
      | inr hnew =>
        cases List.mem_singleton.mp hnew
        exact Or.inr ⟨rfl, hrow⟩
  | proceed i io =>
    simp only [step] at h
    split at h
    · exact Or.inl h
    · cases mem_replaceTask h with
      | inl hold => exact Or.inl hold
      | inr hrest => exact absurd hrest Task.run_rest
  | receive c io =>
    simp only [step] at h
    split at h
    · exact Or.inl h
    split at h <;> exact Or.inl h
  | ingest =>
    simp only [step] at h
    split at h <;> exact Or.inl h
  | crash => simp [step, boot] at h

/-- Nobody meets a host that has not recovered. -/
theorem step_done {m : HostMove} (h : w.host.bootSyncDone = true) :
    (step blake3 cfg m w).state.host.bootSyncDone = true := by
  cases m with
  | publishPayload payload io =>
    simp only [step]
    split <;> exact h
  | drainPending =>
    simp only [step, Outcome.ok_state, drainPending_done, h]
  | markAttached id =>
    simp only [step]
    split <;> exact h
  | proceed i io =>
    simp only [step]
    split
    · exact h
    · simp only [Outcome.lift_state, Task.run_done, h]
  | receive c io =>
    simp only [step]
    split
    · exact h
    split <;> exact h
  | ingest =>
    simp only [step]
    split
    · exact h
    · simp only [Outcome.quiet_state, LedgerTask.run_done, h]
  | crash => rfl

end World
end Moves
end LuaDag
