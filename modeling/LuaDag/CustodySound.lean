import LuaDag.BlobLifecycle
import Mathlib.Data.Nat.Digits.Defs

/-! What a blob that the ledger marks available can be read as. The ledger knows shards by their
numbers and asks no more than that they decode; whether they are the blob's is not checked. -/
namespace LuaDag
open CustodyLedger ReedSolomon

/-- The call marks the blob available, and not by a boot. -/
structure Marks (blake3 : BlobHash) (cfg : BlobCustodyConfig) (call : Call HostMove World)
    (id : BlobId) : Prop where
  noted : call.input ≠ .crash
  before : id ∉ call.pre.host.ledger.available
  after : id ∈ (World.step blake3 cfg call.input call.pre).state.host.ledger.available

def storedPayload (h : BlobCustodyHandle) (id : BlobId) : Option (List Byte) :=
  match h.ledger.blobMeta[id]? with
  | none => none
  | some m => (decodeShards (storedShards h.db id m.received) m.cfg m.sizeBytes).toOption

theorem storedPayload_eq {h : BlobCustodyHandle} {id : BlobId} {m : BlobMeta}
    (hm : h.ledger.blobMeta[id]? = some m) : storedPayload h id =
      (decodeShards (storedShards h.db id m.received) m.cfg m.sizeBytes).toOption := by
  rw [storedPayload, hm]

/-- Whenever a blob is marked available, what is stored of it decodes to its payload. -/
def CustodySound (blake3 : BlobHash) (cfg : BlobCustodyConfig) : Prop :=
  ∀ (db : Database) (moves : List HostMove), ∀ call ∈ World.history blake3 cfg db moves,
    ∀ id, Marks blake3 cfg call id → ∃ payload,
      storedPayload (World.step blake3 cfg call.input call.pre).state.host id = some payload ∧
        blobIdFromPayload blake3 payload = id

section Marking
variable {blake3 : BlobHash} {cfg : BlobCustodyConfig} {db : Database} {w : World} {m : HostMove}
  {h : BlobCustodyHandle} {id : BlobId}
open BlobCustodyHandle

theorem LedgerTask.run_marks {rest : LedgerTask} (hbefore : id ∉ h.ledger.available)
    (hafter : id ∈ (rest.run cfg h).2.ledger.available) :
    ∃ c, (rest.run cfg h).2 = h.noteChunk c ∧ c.blobId = id := by
  cases rest with
  | register chunks =>
    cases chunks with
    | nil => exact absurd hafter hbefore
    | cons c rest => exact absurd hafter hbefore
  | note c rest => exact ⟨c, rfl, (noteWith_marks hbefore hafter).1⟩

theorem World.step_marks (hmarks : Marks blake3 cfg ⟨w, m⟩ id) :
    ∃ c, (step blake3 cfg m w).state.host = w.host.noteChunk c ∧ c.blobId = id := by
  obtain ⟨hnoted, hbefore, hafter⟩ := hmarks
  dsimp only at hnoted hbefore hafter
  cases m with
  | publishPayload payload io =>
    simp only [step] at hafter
    split at hafter <;> exact absurd hafter hbefore
  | drainPending =>
    simp only [step, Outcome.ok_state, drainPending] at hafter
    split at hafter <;> exact absurd hafter hbefore
  | markAttached id' =>
    simp only [step] at hafter
    split at hafter <;> exact absurd hafter hbefore
  | proceed i io =>
    simp only [step] at hafter ⊢
    split at hafter
    · exact absurd hafter hbefore
    rename_i task htask
    simp only [Outcome.lift_state] at hafter ⊢
    cases task with
    | enqueue blobRef chunks => exact absurd hafter hbefore
    | ledger rest => exact LedgerTask.run_marks hbefore hafter
    | attach id' row => cases io <;> exact absurd hafter hbefore
  | receive c io =>
    simp only [step] at hafter
    split at hafter
    · exact absurd hafter hbefore
    split at hafter <;> exact absurd hafter hbefore
  | ingest =>
    simp only [step] at hafter ⊢
    split at hafter
    · exact absurd hafter hbefore
    exact LedgerTask.run_marks hbefore hafter
  | crash => exact absurd rfl hnoted

/- The parameters of the node are those of its blobs. -/

theorem noteStored_configured (indices : List ℕ) {ledger : CustodyLedger}
    (hc : Configured cfg.erasure ledger) :
    Configured cfg.erasure (indices.foldl (fun ledger index =>
      if db.hasChunk id index then (ledger.noteChunkPresent id index).2 else ledger) ledger) := by
  induction indices generalizing ledger with
  | nil => exact hc
  | cons index indices ih =>
    refine ih ?_
    dsimp only
    split
    · exact hc.note _ index
    · exact hc

theorem recoverBlobs_configured (refs : List BlobRef) (hc : Configured cfg.erasure h.ledger) :
    Configured cfg.erasure (refs.foldl (recoverBlob cfg) h).ledger := by
  induction refs generalizing h with
  | nil => exact hc
  | cons ref refs ih =>
    refine ih ?_
    unfold recoverBlob
    split
    · exact noteStored_configured _ (hc.register _ _)
    · exact hc

theorem spawn_configured : Configured cfg.erasure (spawn cfg db).ledger := by
  have hempty : Configured cfg.erasure ({ db } : BlobCustodyHandle).ledger := by
    intro id m hm
    simp at hm
  unfold spawn runBootRecovery
  dsimp only
  split
  · exact hempty
  · exact recoverBlobs_configured _ hempty

theorem LedgerTask.run_configured (rest : LedgerTask) (hc : Configured cfg.erasure h.ledger) :
    Configured cfg.erasure (rest.run cfg h).2.ledger := by
  cases rest with
  | register chunks =>
    cases chunks with
    | nil => exact hc
    | cons c rest => exact hc.register c.unitCount c.sizeBytes
  | note c rest => exact hc.note _ _

theorem World.step_configured (hc : Configured cfg.erasure w.host.ledger) :
    Configured cfg.erasure (step blake3 cfg m w).state.host.ledger := by
  cases m with
  | publishPayload payload io =>
    simp only [step]
    split <;> exact hc
  | drainPending =>
    simp only [step, Outcome.ok_state, drainPending]
    split <;> exact hc
  | markAttached id' =>
    simp only [step]
    split <;> exact hc
  | proceed i io =>
    simp only [step]
    split
    · exact hc
    rename_i task htask
    cases task with
    | enqueue blobRef chunks => exact hc
    | ledger rest => exact rest.run_configured hc
    | attach id' row => cases io <;> exact hc
  | receive c io =>
    simp only [step]
    split
    · exact hc
    split <;> exact hc
  | ingest =>
    simp only [step]
    split
    · exact hc
    · exact LedgerTask.run_configured _ hc
  | crash => exact spawn_configured

theorem World.configured_after (moves : List HostMove) :
    Configured cfg.erasure (after blake3 cfg db moves).host.ledger :=
  Trace.invariant (step blake3 cfg) (fun _ => True)
    (fun _ w => Configured cfg.erasure w.host.ledger) (boot cfg db) spawn_configured
    (fun _ _ _ hc _ => step_configured hc) moves fun _ _ => trivial

/-- A blob that noting a shard has made available can be decoded, and to its payload if the `k`
shards with the lowest numbers are genuine. -/
theorem marked_decodes {c : BlobChunk} (hc : Configured cfg.erasure h.ledger)
    (hbefore : c.blobId ∉ h.ledger.available)
    (hafter : c.blobId ∈ (h.noteChunk c).ledger.available) :
    ∃ m out, (h.noteChunk c).ledger.blobMeta[c.blobId]? = some m ∧ m.cfg = cfg.erasure ∧
      decodeShards (storedShards (h.noteChunk c).db c.blobId m.received) m.cfg m.sizeBytes =
        .ok out ∧
      ∀ payload code, encodeShards payload cfg.erasure = .ok code →
        m.sizeBytes = payload.length →
        (∀ q ∈ (storedShards (h.noteChunk c).db c.blobId m.received).take cfg.erasure.k,
          code[q.1]? = some q.2) → out = payload := by
  obtain ⟨-, m, hm, hcomplete⟩ := noteWith_marks hbefore hafter
  have hcfg : m.cfg = cfg.erasure := hc.note _ _ _ m hm
  have hok : (decodeShards (storedShards h.db c.blobId m.received) m.cfg
      m.sizeBytes).isOk = true :=
    (decodeShards_ok_iff storedShards_nodup _).mpr ((erasureAvailable_iff m).mp hcomplete)
  obtain ⟨out, hout⟩ := Outcome.exists_of_isOk hok
  refine ⟨m, out, hm, hcfg, hout, ?_⟩
  intro payload code hcode hsize hgenuine
  rw [hcfg, hsize] at hok hout
  have hdecode := decodeShards_genuine hcode storedShards_sorted hok hgenuine
  exact Except.ok.inj (hout.symm.trans hdecode)

end Marking

/- Runs of one chunk. -/

/-- Where one shard is enough, the first chunk of the right form makes its blob available. -/
theorem first_chunk_marks (blake3 : BlobHash) {cfg : BlobCustodyConfig} {c : BlobChunk}
    (hcfg : Valid cfg.erasure) (hk : cfg.erasure.k = 1) (hindex : c.index < cfg.erasure.n)
    (hlen : c.data.length = cfg.erasure.dataShardSize) :
    let w := World.after blake3 cfg {} [.receive c (.ok ()), .ingest]
    ⟨w, .ingest⟩ ∈ World.history blake3 cfg {} [.receive c (.ok ()), .ingest, .ingest] ∧
      Marks blake3 cfg ⟨w, .ingest⟩ c.blobId ∧
      (World.step blake3 cfg .ingest w).state.host.ledger.blobMeta[c.blobId]? =
        some ⟨c.sizeBytes, cfg.erasure, {c.index}⟩ ∧
      storedShards (World.step blake3 cfg .ingest w).state.host.db c.blobId {c.index} =
        [(c.index, c.data)] := by
  intro w
  let db : Database := Database.put {} (Database.rowOf c)
  let ledger := ({} : CustodyLedger).registerErasure c.blobId cfg.erasure c.unitCount c.sizeBytes
  have hw : w = ⟨⟨db, ledger, .empty, true⟩, [], some (.note c [])⟩ := by
    rfl
  have hmeta : ledger.blobMeta[c.blobId]? = some ⟨c.sizeBytes, cfg.erasure, ∅⟩ := by
    simp [ledger, receivedOf]
  have hstored : storedShards db c.blobId {c.index} = [(c.index, c.data)] := by
    simp [storedShards, db, Database.put, Database.rowOf, Database.getChunk]
  have hcomplete : erasureAvailable db c.blobId ⟨c.sizeBytes, cfg.erasure, {c.index}⟩ = true := by
    rw [erasureAvailable_iff]
    dsimp only
    rw [hstored, hk]
    refine ⟨hcfg, Nat.le_refl 1, ?_⟩
    intro q hq
    rw [List.mem_singleton.mp hq]
    exact ⟨hindex, hlen⟩
  have hbefore : c.blobId ∉ ledger.available := Finset.notMem_empty _
  have hnote := noteWith_counted (erasureAvailable db c.blobId) c.index hbefore hmeta
  rw [insert_empty_eq] at hnote
  rw [hcomplete] at hnote
  have hhost : (World.step blake3 cfg .ingest w).state.host =
      ⟨db, (ledger.noteChunk db c.blobId c.index).2, .empty, true⟩ := by
    rw [hw]
    rfl
  rw [hhost]
  unfold noteChunk
  rw [hnote]
  refine ⟨List.mem_cons_of_mem _ (List.mem_cons_of_mem _ List.mem_cons_self),
    ⟨by simp, ?_, ?_⟩, ?_, hstored⟩
  · rw [hw]
    exact hbefore
  · dsimp only
    rw [hhost]
    unfold noteChunk
    rw [hnote]
    exact Finset.mem_insert_self _ _
  · dsimp only
    rw [Maps.get_insert, if_pos rfl]

/-- Whenever a chunk makes a blob available, the shards stored under its counted numbers decode,
and to the blob's payload as soon as the `k` of them with the lowest numbers are shards of that
payload and the size last registered is its length. -/
theorem custody_decodes (blake3 : BlobHash) (cfg : BlobCustodyConfig) (db : Database)
    (moves : List HostMove) : ∀ call ∈ World.history blake3 cfg db moves, ∀ id,
      Marks blake3 cfg call id →
        let host := (World.step blake3 cfg call.input call.pre).state.host
        ∃ m out, host.ledger.blobMeta[id]? = some m ∧ storedPayload host id = some out ∧
          ∀ payload code, blobIdFromPayload blake3 payload = id →
            encodeShards payload cfg.erasure = .ok code → m.sizeBytes = payload.length →
            (∀ q ∈ (storedShards host.db id m.received).take cfg.erasure.k,
              code[q.1]? = some q.2) →
            out = payload ∧ blobIdFromPayload blake3 out = id := by
  intro call hcall id hmarks host
  obtain ⟨before, -, -, hpre⟩ := Trace.mem_calls _ hcall
  have hc : Configured cfg.erasure call.pre.host.ledger := by
    rw [hpre]
    exact World.configured_after before
  obtain ⟨w, mv⟩ := call
  obtain ⟨c, hhost, rfl⟩ := World.step_marks hmarks
  have hafter := hmarks.after
  rw [hhost] at hafter
  obtain ⟨m, out, hm, hcfg, hout, hgenuine⟩ := marked_decodes hc hmarks.before hafter
  rw [show host = w.host.noteChunk c from hhost]
  refine ⟨m, out, hm, ?_, ?_⟩
  · rw [storedPayload_eq hm, hout]
    rfl
  · intro payload code hid hcode hsize hq
    have heq := hgenuine payload code hcode hsize hq
    exact ⟨heq, heq ▸ hid⟩

def numberHash : BlobHash
  | _, .bytes b => ⟨Nat.ofDigits 257 (b.map fun x => x.bits.toNat + 1)⟩
  | _, _ => ⟨0⟩

/-- No two payloads have the same identifier. -/
def CollisionFree (blake3 : BlobHash) : Prop :=
  Function.Injective (blobIdFromPayload blake3)

theorem numberHash_collisionFree : CollisionFree numberHash := by
  intro p q h
  have hnum : Nat.ofDigits 257 (p.map fun x => x.bits.toNat + 1) =
      Nat.ofDigits 257 (q.map fun x => x.bits.toNat + 1) := congrArg BlobId.val h
  have hdigits : ∀ p : List Byte, Nat.digits 257
      (Nat.ofDigits 257 (p.map fun x => x.bits.toNat + 1)) = p.map fun x => x.bits.toNat + 1 := by
    intro p
    refine Nat.digits_ofDigits 257 (by decide) _ ?_ ?_
    · intro d hd
      obtain ⟨x, -, rfl⟩ := List.mem_map.mp hd
      have hlt := x.bits.isLt
      omega
    · intro hne
      obtain ⟨x, -, hx⟩ := List.mem_map.mp (List.getLast_mem hne)
      omega
  have hmap := (hdigits p).symm.trans ((congrArg (Nat.digits 257) hnum).trans (hdigits q))
  refine List.map_injective_iff.mpr ?_ hmap
  intro x y hxy
  exact Byte.ext (BitVec.eq_of_toNat_eq (Nat.succ.inj hxy))

theorem rows_of_bytes {rows : List (List Byte)} (h : ∀ row ∈ rows, row.length = 1) :
    rows = rows.flatten.map fun x => [x] := by
  induction rows with
  | nil => rfl
  | cons row rows ih =>
    obtain ⟨x, rfl⟩ := List.length_eq_one_iff.mp (h row (by simp))
    rw [List.flatten_cons, List.singleton_append, List.map_cons,
      ← ih fun row hrow => h row (List.mem_cons_of_mem _ hrow)]

theorem encode_bytes {payload : List Byte} {n : ℕ} (hvalid : Valid ⟨payload.length, n, 1⟩) :
    ∃ code, encodeShards payload ⟨payload.length, n, 1⟩ = .ok code ∧
      ∀ i, i < payload.length → code[i]? = (payload[i]?).map fun x => [x] := by
  have hroom : payload.length ≤ ErasureConfig.paddedLen ⟨payload.length, n, 1⟩ :=
    Nat.le_of_eq (Nat.mul_one _).symm
  obtain ⟨code, hcode⟩ := (encodeShards_ok_iff payload).mpr ⟨hvalid, hroom⟩
  obtain ⟨E, data, -, -, -, hw, hflat⟩ := encodeShards_inv hcode
  have hpad : padToKShards payload ⟨payload.length, n, 1⟩ = payload := by
    simp [padToKShards, ErasureConfig.paddedLen, zeroShard]
  have hdata : data = payload.map fun x => [x] := by
    rw [rows_of_bytes hw.cut.width, hflat, hpad]
  refine ⟨code, hcode, fun i hi => ?_⟩
  rw [← List.getElem?_map, ← hdata, ← hw.first, List.getElem?_take_of_lt hi]

theorem encode_byte (x : Byte) : ∃ code, encodeShards [x] ⟨1, 2, 1⟩ = .ok code ∧
    code[0]? = some [x] := by
  have hvalid : Valid ⟨1, 2, 1⟩ := ⟨by decide, by decide, by decide, by decide⟩
  obtain ⟨code, hcode, hfirst⟩ := @encode_bytes [x] 2 hvalid
  exact ⟨code, hcode, hfirst 0 Nat.zero_lt_one⟩

/-- One forged chunk, which carries the shard of another payload, makes a blob available. -/
theorem custody_forged :
    CollisionFree numberHash ∧ ¬ CustodySound numberHash ⟨⟨1, 2, 1⟩⟩ := by
  refine ⟨numberHash_collisionFree, ?_⟩
  intro hsound
  have hvalid : Valid ⟨1, 2, 1⟩ := ⟨by decide, by decide, by decide, by decide⟩
  let c : BlobChunk := ⟨blobIdFromPayload numberHash [0], 1, .erasure 0 2 [1]⟩
  obtain ⟨hcall, hmarks, hm, hstored⟩ :=
    @first_chunk_marks numberHash ⟨⟨1, 2, 1⟩⟩ c hvalid rfl (by decide) rfl
  obtain ⟨payload, hpayload, hid⟩ := hsound {} _ _ hcall _ hmarks
  obtain ⟨code, hcode, hfirst⟩ := encode_byte 1
  have hdecode : decodeShards [(0, [1])] ⟨1, 2, 1⟩ 1 = .ok [1] := by
    have hok : (decodeShards [(0, [(1 : Byte)])] ⟨1, 2, 1⟩ 1).isOk = true := by
      rw [decodeShards_ok_iff (by simp)]
      exact ⟨hvalid, Nat.le_refl 1, by simp⟩
    exact decodeShards_genuine hcode (List.pairwise_singleton _ _) hok (by simpa using hfirst)
  have hforged : payload = [1] := by
    have hsome := hpayload.symm.trans (storedPayload_eq hm)
    rw [hstored, show c.index = 0 from rfl, show c.data = [1] from rfl, hdecode] at hsome
    exact Option.some.inj hsome
  rw [hforged] at hid
  exact absurd (numberHash_collisionFree hid) (by decide)

def twoBytes : List Byte := [⟨5⟩, ⟨7⟩]

def twoCfg : BlobCustodyConfig := ⟨⟨2, 3, 1⟩⟩

def twoId : BlobId := blobIdFromPayload numberHash twoBytes

def twoChunk (index : ℕ) : BlobChunk :=
  ⟨twoId, 2, .erasure index 3 [if index = 0 then ⟨5⟩ else ⟨7⟩]⟩

def twoMoves : List HostMove :=
  [.receive (twoChunk 1) (.ok ()), .ingest, .ingest, .ingest, .receive (twoChunk 0) (.ok ()),
    .ingest, .ingest]

theorem two_marks :
    let w := World.after numberHash twoCfg {} (twoMoves.take 6)
    let host := (World.step numberHash twoCfg .ingest w).state.host
    ⟨w, .ingest⟩ ∈ World.history numberHash twoCfg {} twoMoves ∧
      Marks numberHash twoCfg ⟨w, .ingest⟩ twoId ∧
      host.ledger.blobMeta[twoId]? = some ⟨2, twoCfg.erasure, {0, 1}⟩ ∧
      storedShards host.db twoId {0, 1} = [(0, [⟨5⟩]), (1, [⟨7⟩])] := by
  intro w host
  let db : Database := Database.put {} (Database.rowOf (twoChunk 1))
  let first := ({} : CustodyLedger).registerErasure twoId twoCfg.erasure 3 2
  let noted := (first.noteChunk db twoId 1).2
  let db' : Database := db.put (Database.rowOf (twoChunk 0))
  let second := noted.registerErasure twoId twoCfg.erasure 3 2
  have hw : w = ⟨⟨db', second, .empty, true⟩, [], some (.note (twoChunk 0) [])⟩ := rfl
  have hhost : host = ⟨db', (second.noteChunk db' twoId 0).2, .empty, true⟩ := rfl
  -- one shard is counted, and is not enough
  have hmeta : first.blobMeta[twoId]? = some ⟨2, twoCfg.erasure, ∅⟩ := by
    simp [first, receivedOf]
  have hfew : erasureAvailable db twoId ⟨2, twoCfg.erasure, {1}⟩ = false := if_pos (by decide)
  have hnote := noteWith_counted (erasureAvailable db twoId) 1
    (Finset.notMem_empty twoId : twoId ∉ first.available) hmeta
  rw [insert_empty_eq, hfew] at hnote
  have hnoted : noted = ⟨first.blobMeta.insert twoId ⟨2, twoCfg.erasure, {1}⟩, ∅⟩ :=
    congrArg Prod.snd hnote
  have hmeta' : second.blobMeta[twoId]? = some ⟨2, twoCfg.erasure, {1}⟩ := by
    simp [second, receivedOf, hnoted]
  have hbefore : twoId ∉ second.available := by
    simp [second, registerErasure, hnoted]
  -- the other one completes the blob
  have hstored : storedShards db' twoId {0, 1} = [(0, [⟨5⟩]), (1, [⟨7⟩])] := by
    have hsort : ({0, 1} : Finset ℕ).sort (· ≤ ·) = [0, 1] := by
      rw [Finset.sort_insert _ (by simp) (by simp), Finset.sort_singleton]
    rw [storedShards, hsort]
    rfl
  have hcomplete : erasureAvailable db' twoId ⟨2, twoCfg.erasure, {0, 1}⟩ = true := by
    rw [erasureAvailable_iff]
    dsimp only
    rw [hstored]
    exact ⟨⟨by decide, by decide, by decide, by decide⟩, by decide, by decide⟩
  have hnote' := noteWith_counted (erasureAvailable db' twoId) 0 hbefore hmeta'
  dsimp only at hnote'
  rw [hcomplete, if_pos rfl] at hnote'
  have hledger : host.ledger = ⟨second.blobMeta.insert twoId ⟨2, twoCfg.erasure, {0, 1}⟩,
      insert twoId second.available⟩ := congrArg Prod.snd hnote'
  refine ⟨?_, ⟨by simp, hbefore, ?_⟩, ?_, hstored⟩
  · have hsplit : twoMoves = twoMoves.take 6 ++ [.ingest] := rfl
    rw [World.history, hsplit, Trace.calls_append]
    exact List.mem_append_right _ List.mem_cons_self
  · change twoId ∈ host.ledger.available
    rw [hledger]
    exact Finset.mem_insert_self _ _
  · rw [hledger, Maps.get_insert, if_pos rfl]

theorem custody_decodes_genuine :
    let w := World.after numberHash twoCfg {} twoMoves
    storedPayload w.host twoId = some twoBytes := by
  intro w
  obtain ⟨hcall, hmarks, hm, hstored⟩ := two_marks
  obtain ⟨m, out, hm', hout, hgenuine⟩ := custody_decodes numberHash twoCfg {} twoMoves _ hcall _
    hmarks
  cases hm.symm.trans hm'
  obtain ⟨code, hcode, hdata⟩ :=
    @encode_bytes twoBytes 3 ⟨by decide, by decide, by decide, by decide⟩
  obtain ⟨rfl, -⟩ := hgenuine twoBytes code rfl hcode rfl (by
    dsimp only
    rw [hstored]
    have h0 := hdata 0 (by decide)
    have h1 := hdata 1 (by decide)
    intro q hq
    obtain rfl | rfl : q = (0, [⟨5⟩]) ∨ q = (1, [⟨7⟩]) := by simpa using List.mem_of_mem_take hq
    · exact h0
    · exact h1)
  exact hout

end LuaDag
