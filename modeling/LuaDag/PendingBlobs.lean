import LuaDag.BlobLifecycle

/-! The queue of blobs that wait for a vertex. It holds what has arrived since it was last
emptied, each blob once, and a boot fills it with what is durable and not attached. -/
namespace LuaDag
open Database PublishState KeyedQueue

def recoverable (cfg : BlobCustodyConfig) (db : Database) : List BlobRef :=
  match db.scanReady with
  | .error _ => []
  | .ok refs => refs.filter fun ref =>
      BlobCustodyHandle.validateChunks db ref.blobId cfg.erasure.n

/-- The references that have arrived at the queue since it was last emptied or rebuilt, after one
more call. -/
def arrive (cfg : BlobCustodyConfig) (waiting : List BlobRef) (call : Call HostMove World) :
    List BlobRef :=
  match call.input with
  | .drainPending => []
  | .crash => recoverable cfg call.pre.host.db
  | .proceed i _ =>
    match call.pre.tasks[i]? with
    | some (.enqueue blobRef _) => waiting ++ [blobRef]
    | _ => waiting
  | _ => waiting

def waiting (cfg : BlobCustodyConfig) (db : Database) (hist : List (Call HostMove World)) :
    List BlobRef :=
  hist.foldl (arrive cfg) (recoverable cfg db)

/- Boot. -/
section Boot
variable {cfg : BlobCustodyConfig} {db : Database} {h : BlobCustodyHandle}
open BlobCustodyHandle

theorem validateChunks_iff (id : BlobId) (n : ℕ) :
    validateChunks db id n = true ↔ ∀ i < n, db.hasChunk id i = true := by
  unfold validateChunks
  rw [List.all_eq_true]
  simp only [List.mem_range]

theorem recoverBlobs_pending (refs : List BlobRef) {items : List BlobRef}
    (hq : h.pending.queue = firsts (·.blobId) items) :
    (refs.foldl (recoverBlob cfg) h).pending.queue =
      firsts (·.blobId) (items ++ refs.filter fun ref =>
        validateChunks h.db ref.blobId cfg.erasure.n) := by
  induction refs generalizing h items with
  | nil => simpa using hq
  | cons ref refs ih =>
    rw [List.foldl_cons, List.filter_cons]
    by_cases hvalid : validateChunks h.db ref.blobId cfg.erasure.n = true
    · have hnext : (recoverBlob cfg h ref).pending.queue =
          firsts (·.blobId) (items ++ [ref]) := by
        unfold recoverBlob
        rw [if_pos hvalid]
        exact enqueue_firsts hq ref
      rw [ih hnext, if_pos hvalid, recoverBlob_db, List.append_assoc, List.singleton_append]
    · have hnext : recoverBlob cfg h ref = h := by
        unfold recoverBlob
        rw [if_neg hvalid]
      rw [hnext, ih hq, if_neg hvalid]

theorem spawn_pending :
    (spawn cfg db).pending.queue = firsts (·.blobId) (recoverable cfg db) := by
  unfold spawn runBootRecovery recoverable
  dsimp only
  cases db.scanReady with
  | error e => rfl
  | ok refs =>
    have hempty : (⟨db, {}, .empty, false⟩ : BlobCustodyHandle).pending.queue =
        firsts (·.blobId) [] := rfl
    exact recoverBlobs_pending refs hempty

theorem recoverable_spec (hwf : db.WellFormed) :
    ((recoverable cfg db).map (·.blobId)).Nodup ∧
      ∀ ref, ref ∈ recoverable cfg db ↔ (∃ record : PublishRecord,
        db.blobPublish[ref.blobId]? = some record ∧ record.state = ready.toByte ∧
          record.blobRef = ref) ∧ ∀ i < cfg.erasure.n, db.hasChunk ref.blobId i = true := by
  obtain ⟨refs, hscan, hnodup, hmem⟩ := scanReady_spec hwf
  unfold recoverable
  rw [hscan]
  refine ⟨hnodup.sublist (List.filter_sublist.map _), ?_⟩
  intro ref
  rw [List.mem_filter, hmem, validateChunks_iff]

end Boot

namespace World
variable {blake3 : BlobHash} {cfg : BlobCustodyConfig} {db : Database} {w : World} {m : HostMove}

/- The queue. -/

theorem queue_step {items : List BlobRef}
    (hq : w.host.pending.queue = firsts (·.blobId) items) (hdone : w.host.bootSyncDone = true) :
    (step blake3 cfg m w).state.host.pending.queue =
      firsts (·.blobId) (arrive cfg items ⟨w, m⟩) := by
  cases m with
  | publishPayload payload io =>
    simp only [step, arrive]
    split <;> exact hq
  | drainPending =>
    simp only [step, arrive, Outcome.ok_state, BlobCustodyHandle.drainPending, hdone]
    rfl
  | markAttached id =>
    simp only [step, arrive]
    split <;> exact hq
  | proceed i io =>
    simp only [step, arrive]
    cases w.tasks[i]? with
    | none => exact hq
    | some task =>
      cases task with
      | enqueue blobRef chunks => exact enqueue_firsts hq blobRef
      | ledger rest =>
        refine Eq.trans ?_ hq
        exact congrArg KeyedQueue.queue (rest.run_pending w.host)
      | attach id row => cases io <;> exact hq
  | receive c io =>
    simp only [step, arrive]
    split
    · exact hq
    split <;> exact hq
  | ingest =>
    simp only [step, arrive]
    split
    · exact hq
    · rename_i rest _
      refine Eq.trans ?_ hq
      exact congrArg KeyedQueue.queue (rest.run_pending w.host)
  | crash => exact spawn_pending

theorem queue_after (moves : List HostMove) : (after blake3 cfg db moves).host.pending.queue =
    firsts (·.blobId) (waiting cfg db (history blake3 cfg db moves)) := by
  refine (Trace.invariant (step blake3 cfg) (fun _ => True)
    (fun hist w => Steady w ∧
      w.host.pending.queue = firsts (·.blobId) (waiting cfg db hist))
    (boot cfg db) ⟨steady_boot, spawn_pending⟩ ?_ moves fun _ _ => trivial).2
  intro hist w m hinv _
  refine ⟨hinv.1.next, ?_⟩
  rw [queue_step hinv.2 hinv.1.done, waiting, waiting, List.foldl_append]
  rfl

/- The rows. -/

/-- The publish rows are well formed, and so are those about to be written. -/
structure Orderly (w : World) : Prop extends Steady w where
  rows : w.host.db.WellFormed
  keys : ∀ id row, Task.attach id row ∈ w.tasks → row.blobRef.blobId = id

theorem orderly_boot (hwf : db.WellFormed) : Orderly (boot cfg db) :=
  ⟨steady_boot, by simpa [boot] using hwf, fun id row h => by simp [boot] at h⟩

theorem Orderly.next (h : Orderly w) : Orderly (step blake3 cfg m w).state := by
  refine ⟨h.toSteady.next, ?_, ?_⟩
  · have hw := @step_writes blake3 cfg m w
    generalize (step blake3 cfg m w).state.host.db = db' at hw ⊢
    cases hw with
    | nothing => exact h.rows
    | publish payload io blobRef chunks db' hok =>
      have hrecord := BlobCustodyHandle.publishDurably_record hok
      obtain ⟨shards, -, -, hid, -⟩ := BlobCustodyHandle.publishDurably_ok hok
      exact (h.rows.put_publish ⟨ready, rfl⟩ hid).congr hrecord
    | chunk c io db' hok =>
      obtain ⟨-, rfl⟩ := apply_ok hok
      exact h.rows.congr rfl
    | attach m id row hrun =>
      exact h.rows.put_publish ⟨attached, h.attaches id row hrun⟩ (h.keys id row hrun)
  · intro id row hrun
    cases step_attach hrun with
    | inl hold => exact h.keys id row hold
    | inr hnew =>
      obtain ⟨record, hrow, -, rfl⟩ := attachedRow_ok hnew.2
      exact (h.rows id record hrow).2

theorem orderly_after (hwf : db.WellFormed) (moves : List HostMove) :
    Orderly (after blake3 cfg db moves) :=
  Trace.invariant (step blake3 cfg) (fun _ => True) (fun _ w => Orderly w) (boot cfg db)
    (orderly_boot hwf) (fun _ _ _ h _ => h.next) moves fun _ _ => trivial

/- What is durable stays so. -/

structure Durable (cfg : BlobCustodyConfig) (db : Database) (id : BlobId) : Prop where
  record : ∃ record : PublishRecord, db.blobPublish[id]? = some record
  chunks : ∀ i < cfg.erasure.n, db.hasChunk id i = true

theorem Durable.put {id : BlobId} (h : Durable cfg db id) (row : RowPut) :
    Durable cfg (db.put row) id := by
  refine ⟨?_, fun i hi => hasChunk_put (h.chunks i hi)⟩
  obtain ⟨record, hrecord⟩ := h.record
  cases row with
  | chunk id' i row => exact ⟨record, hrecord⟩
  | publish id' row =>
    simp only [Database.put, Maps.get_insert]
    split
    · exact ⟨row, rfl⟩
    · exact ⟨record, hrecord⟩

theorem Durable.puts {id : BlobId} (h : Durable cfg db id) (batch : WriteBatch) :
    Durable cfg (batch.foldl Database.put db) id := by
  induction batch generalizing db with
  | nil => exact h
  | cons row batch ih => exact ih (h.put row)

theorem Durable.next {id : BlobId} (h : Durable cfg w.host.db id) :
    Durable cfg (step blake3 cfg m w).state.host.db id := by
  have hw := @step_writes blake3 cfg m w
  generalize (step blake3 cfg m w).state.host.db = db' at hw ⊢
  cases hw with
  | nothing => exact h
  | publish payload io blobRef chunks db' hok =>
    obtain ⟨shards, -, -, -, -, -, rfl⟩ := BlobCustodyHandle.publishDurably_ok hok
    exact (h.puts _).put _
  | chunk c io db' hok =>
    obtain ⟨-, rfl⟩ := apply_ok hok
    exact h.puts _
  | attach m id' row hrun => exact h.put _

theorem publish_durable {payload : List Byte} (hdone : w.host.bootSyncDone = true)
    (hp : Publishes cfg m payload) :
    Durable cfg (step blake3 cfg m w).state.host.db (blobIdFromPayload blake3 payload) := by
  obtain ⟨rfl, hcfg, hlen⟩ := hp
  have hok : ∃ r, w.host.publishDurably blake3 cfg (.ok ()) payload = .ok r :=
    (BlobCustodyHandle.publishDurably_ok_iff hdone).mpr ⟨hcfg, hlen, rfl⟩
  obtain ⟨⟨blobRef, chunks, db'⟩, hok⟩ := hok
  have hdb : (step blake3 cfg (.publishPayload payload (.ok ())) w).state.host.db = db' := by
    rw [step_publish hok]
  rw [hdb]
  refine ⟨⟨⟨ready.toByte, blobRef⟩, ?_⟩, ?_⟩
  · rw [BlobCustodyHandle.publishDurably_record hok, Maps.get_insert, if_pos rfl]
  · intro i hi
    obtain ⟨shards, hshards, -, hid, -, rfl, rfl⟩ := BlobCustodyHandle.publishDurably_ok hok
    obtain ⟨E, data, -, -, -, hw, -⟩ := ReedSolomon.encodeShards_inv hshards
    have hlt : i < shards.length := by
      rw [hw.shaped.length]
      exact hi
    have hchunk : (⟨blobRef.blobId, payload.length, .erasure i shards.length shards[i]⟩ :
        BlobChunk) ∈ erasureChunks blobRef.blobId payload.length shards := by
      refine List.mem_map.mpr ⟨(shards[i], i), ?_, rfl⟩
      exact List.mk_mem_zipIdx_iff_getElem?.mpr (List.getElem?_eq_getElem hlt)
    rw [← hid]
    exact hasChunk_put (hasChunk_putChunks hchunk)

theorem durable_after (moves : List HostMove) : ∀ call ∈ history blake3 cfg db moves,
    ∀ payload, Publishes cfg call.input payload →
      Durable cfg (after blake3 cfg db moves).host.db (blobIdFromPayload blake3 payload) := by
  refine (Trace.invariant (step blake3 cfg) (fun _ => True)
    (fun hist w => Steady w ∧ ∀ call ∈ hist, ∀ payload, Publishes cfg call.input payload →
      Durable cfg w.host.db (blobIdFromPayload blake3 payload))
    (boot cfg db) ⟨steady_boot, fun _ h => by cases h⟩ ?_ moves fun _ _ => trivial).2
  intro hist w m hinv _
  refine ⟨hinv.1.next, ?_⟩
  intro call hcall payload hp
  cases List.mem_append.mp hcall with
  | inl hold => exact (hinv.2 call hold payload hp).next
  | inr hnew =>
    rw [List.mem_singleton.mp hnew] at hp
    exact publish_durable hinv.1.done hp

theorem skipsDrained_iff (hwf : db.WellFormed) (ref : BlobRef) :
    BlobCustodyHandle.skipsDrained db ref = true ↔ db.stateOf ref.blobId attached := by
  obtain ⟨b, hb, hiff⟩ := @isAttached_iff db ref.blobId hwf
  unfold BlobCustodyHandle.skipsDrained
  rw [hb, ← hiff]
  cases b <;> simp

end World

/-- The promises of the queue at the end of a run. -/
structure QueueKept (blake3 : BlobHash) (cfg : BlobCustodyConfig) (db : Database)
    (moves : List HostMove) : Prop where
  /-- After a crash the blobs that are `Ready` and complete are queued, each once. -/
  once : ((World.after blake3 cfg db (moves ++ [.crash])).host.pending.queue.map
    (·.blobId)).Nodup
  recovered : ∀ ref, ref ∈ (World.after blake3 cfg db (moves ++ [.crash])).host.pending.queue ↔
    (∃ record : PublishRecord,
      (World.after blake3 cfg db moves).host.db.blobPublish[ref.blobId]? = some record ∧
        record.state = ready.toByte ∧ record.blobRef = ref) ∧
    ∀ i < cfg.erasure.n, (World.after blake3 cfg db moves).host.db.hasChunk ref.blobId i = true
  /-- So a blob that has been published and is not attached is pending again. -/
  published : ∀ call ∈ World.history blake3 cfg db moves, ∀ payload,
    Publishes cfg call.input payload →
    ¬ (World.after blake3 cfg db moves).host.db.stateOf (blobIdFromPayload blake3 payload)
      attached →
    ∃ ref ∈ (World.after blake3 cfg db (moves ++ [.crash])).host.pending.queue,
      ref.blobId = blobIdFromPayload blake3 payload
  /-- Draining now gives the first arrivals that are not attached, in their order, each blob once,
  and leaves nothing. -/
  drained : ∃ drained,
    (World.step blake3 cfg .drainPending (World.after blake3 cfg db moves)).result = .ok drained ∧
    drained.Sublist (firsts (·.blobId) (waiting cfg db (World.history blake3 cfg db moves))) ∧
    (drained.map (·.blobId)).Nodup ∧
    (∀ ref, ref ∈ drained ↔
      ref ∈ firsts (·.blobId) (waiting cfg db (World.history blake3 cfg db moves)) ∧
        ¬ (World.after blake3 cfg db moves).host.db.stateOf ref.blobId attached) ∧
    (World.after blake3 cfg db (moves ++ [.drainPending])).host.pending.queue = []

/-- Whatever a node publishes, attaches, drains and ingests, and whenever it crashes, its queue
keeps its promises. -/
theorem queue_kept (blake3 : BlobHash) (cfg : BlobCustodyConfig) (db : Database)
    (hwf : db.WellFormed) (moves : List HostMove) : QueueKept blake3 cfg db moves := by
  have horder := @World.orderly_after blake3 cfg db hwf moves
  obtain ⟨hnodup, hmem⟩ := @recoverable_spec cfg _ horder.rows
  have hqueue : (World.after blake3 cfg db (moves ++ [.crash])).host.pending.queue =
      recoverable cfg (World.after blake3 cfg db moves).host.db := by
    rw [World.after_snoc, ← firsts_of_nodup hnodup]
    exact spawn_pending
  have hdrain : (World.after blake3 cfg db moves).host.drainPending.1 =
      (World.after blake3 cfg db moves).host.pending.queue.filter fun ref =>
        !BlobCustodyHandle.skipsDrained (World.after blake3 cfg db moves).host.db ref := by
    unfold BlobCustodyHandle.drainPending
    rw [horder.done]
    rfl
  rw [World.queue_after] at hdrain
  refine ⟨by rw [hqueue]; exact hnodup, by rw [hqueue]; exact hmem, ?_, ?_⟩
  · intro call hcall payload hp hpending
    have hdurable := World.durable_after moves call hcall payload hp
    obtain ⟨record, hrecord⟩ := hdurable.record
    obtain ⟨⟨state, hstate⟩, hid⟩ := horder.rows _ record hrecord
    have hready : state = ready := by
      cases state with
      | ready => rfl
      | attached => exact absurd ⟨record, hrecord, hstate⟩ hpending
    subst hready
    refine ⟨record.blobRef, ?_, hid⟩
    rw [hqueue, hmem, hid]
    exact ⟨⟨record, hrecord, hstate, rfl⟩, hdurable.chunks⟩
  · refine ⟨_, rfl, ?_, ?_, ?_, ?_⟩
    · rw [hdrain]
      exact List.filter_sublist
    · rw [hdrain]
      exact (firsts_nodup _).sublist (List.filter_sublist.map _)
    · intro ref
      rw [hdrain, List.mem_filter, Bool.not_eq_true', ← Bool.not_eq_true,
        World.skipsDrained_iff horder.rows]
    · rw [World.after_snoc]
      simp only [World.step, Outcome.ok_state, BlobCustodyHandle.drainPending, horder.done]
      rfl

/-- A crash between the commit of a publication and its place in the queue. -/
theorem queue_kept_crash : QueueKept lengthHash ⟨⟨1, 2, 4⟩⟩ {}
    [.publishPayload [1, 0] (.ok ()), .crash] :=
  queue_kept lengthHash ⟨⟨1, 2, 4⟩⟩ {} (fun id record h => by simp at h) _

end LuaDag
