import LuaDag.CustodySound

/-! What it takes for a blob to become available by gossip. Every number that has arrived takes
part in the attempt to decode, so a chunk that does not fit stands in the way of the others until
its row is overwritten, and one with a number beyond the last shard for ever. -/
namespace LuaDag
open CustodyLedger ReedSolomon

abbrev ChunkArrival := BlobChunk × Except StorageError Unit

def ingestMoves (a : ChunkArrival) : List HostMove :=
  [.receive a.1 a.2, .ingest, .ingest, .ingest]

def ingestChunk (cfg : BlobCustodyConfig) (h : BlobCustodyHandle) (a : ChunkArrival) :
    BlobCustodyHandle :=
  match h.db.putChunk a.2 a.1 with
  | .error _ => h
  | .ok db => ({ h with db }.registerChunkInLedger cfg a.1).noteChunk a.1

def stored (id : BlobId) (arrivals : List ChunkArrival) : List BlobChunk :=
  (arrivals.filter fun a => a.2.isOk && decide (a.1.blobId = id)).map (·.1)

def numbers (cs : List BlobChunk) : Finset ℕ := (cs.map (·.index)).toFinset

def lastOf (i : ℕ) (cs : List BlobChunk) : Option BlobChunk :=
  cs.reverse.find? fun c => decide (c.index = i)

/-- The chunks name `k` shards; none of them has a number beyond the last shard, and the last one
of each number has the length of a shard. -/
structure Whole (cfg : ErasureConfig) (cs : List BlobChunk) : Prop where
  enough : cfg.k ≤ (numbers cs).card
  fits : ∀ i c, lastOf i cs = some c → i < cfg.n ∧ c.data.length = cfg.dataShardSize

section Lists
variable {cs : List BlobChunk} {c : BlobChunk} {i : ℕ}

theorem lastOf_snoc (i : ℕ) (cs : List BlobChunk) (c : BlobChunk) :
    lastOf i (cs ++ [c]) = if c.index = i then some c else lastOf i cs := by
  unfold lastOf
  rw [List.reverse_append, List.reverse_singleton, List.singleton_append, List.find?_cons]
  by_cases h : c.index = i <;> simp [h]

theorem numbers_snoc : numbers (cs ++ [c]) = insert c.index (numbers cs) := by
  ext i
  simp [numbers]

theorem mem_numbers_iff : i ∈ numbers cs ↔ ∃ c, lastOf i cs = some c := by
  unfold numbers lastOf
  rw [List.mem_toFinset, List.mem_map, ← Option.isSome_iff_exists, List.find?_isSome]
  simp

theorem stored_snoc (id : BlobId) (arrivals : List ChunkArrival) (a : ChunkArrival) :
    stored id (arrivals ++ [a]) = if a.2.isOk = true ∧ a.1.blobId = id
      then stored id arrivals ++ [a.1] else stored id arrivals := by
  unfold stored
  rw [List.filter_append, List.map_append, List.filter_singleton]
  by_cases h : a.2.isOk = true ∧ a.1.blobId = id
  · rw [if_pos h]
    simp [h]
  · rw [if_neg h]
    have hfalse : (a.2.isOk && decide (a.1.blobId = id)) = false := by
      simpa using h
    simp [hfalse]

theorem whole_snoc (cfg : ErasureConfig) : (∃ pre, pre <+: cs ++ [c] ∧ Whole cfg pre) ↔
    (∃ pre, pre <+: cs ∧ Whole cfg pre) ∨ Whole cfg (cs ++ [c]) := by
  constructor
  · rintro ⟨pre, hpre, hwhole⟩
    cases List.prefix_concat_iff.mp hpre with
    | inl heq => exact Or.inr (heq ▸ hwhole)
    | inr hshort => exact Or.inl ⟨pre, hshort, hwhole⟩
  · rintro (⟨pre, hpre, hwhole⟩ | hwhole)
    · exact ⟨pre, hpre.trans (List.prefix_append _ _), hwhole⟩
    · exact ⟨_, List.prefix_rfl, hwhole⟩

end Lists

/-- What the host knows of a blob of which these chunks have been stored. -/
structure Tracks (cfg : ErasureConfig) (id : BlobId) (cs : List BlobChunk)
    (h : BlobCustodyHandle) : Prop where
  rows : ∀ i c, lastOf i cs = some c → h.db.getChunk id i = some c.data
  counted : id ∉ h.ledger.available → h.ledger.receivedOf id = numbers cs
  available : id ∈ h.ledger.available ↔ ∃ pre, pre <+: cs ∧ Whole cfg pre

section Tracking
variable {cfg : BlobCustodyConfig} {id : BlobId} {cs : List BlobChunk} {h : BlobCustodyHandle}

theorem available_iff_whole (hcfg : Valid cfg.erasure) {db : Database} {size : ℕ}
    (hrows : ∀ i c, lastOf i cs = some c → db.getChunk id i = some c.data) :
    erasureAvailable db id ⟨size, cfg.erasure, numbers cs⟩ = true ↔ Whole cfg.erasure cs := by
  have hmem : ∀ q : ℕ × List Byte, q ∈ storedShards db id (numbers cs) ↔
      ∃ c, lastOf q.1 cs = some c ∧ c.data = q.2 := by
    intro q
    rw [mem_storedShards, mem_numbers_iff]
    constructor
    · rintro ⟨⟨c, hc⟩, hget⟩
      rw [hrows q.1 c hc] at hget
      exact ⟨c, hc, Option.some.inj hget⟩
    · rintro ⟨c, hc, hdata⟩
      exact ⟨⟨c, hc⟩, by rw [hrows q.1 c hc, hdata]⟩
  have hall : ∀ i ∈ numbers cs, (db.getChunk id i).isSome = true := by
    intro i hi
    obtain ⟨c, hc⟩ := mem_numbers_iff.mp hi
    rw [hrows i c hc]
    rfl
  rw [erasureAvailable_iff]
  dsimp only
  rw [storedShards_length hall]
  constructor
  · rintro ⟨-, hcount, hfit⟩
    exact ⟨hcount, fun i c hc => hfit (i, c.data) ((hmem _).mpr ⟨c, hc, rfl⟩)⟩
  · rintro ⟨hcount, hfit⟩
    refine ⟨hcfg, hcount, ?_⟩
    intro q hq
    obtain ⟨c, hc, hdata⟩ := (hmem q).mp hq
    rw [← hdata]
    exact hfit q.1 c hc

theorem getChunk_put (db : Database) (c : BlobChunk) (id : BlobId) (i : ℕ) :
    (db.put (Database.rowOf c)).getChunk id i =
      if c.blobId = id ∧ c.index = i then some c.data else db.getChunk id i := by
  simp only [Database.getChunk, Database.put, Database.rowOf, Maps.get_insert]
  by_cases heq : c.blobId = id ∧ c.index = i
  · rw [if_pos heq, if_pos (by rw [heq.1, heq.2])]
    rfl
  · rw [if_neg heq, if_neg]
    intro hlex
    obtain ⟨hid, hi⟩ := Prod.mk.inj (toLex.injective hlex)
    exact heq ⟨hid, hi⟩

theorem Tracks.other (ht : Tracks cfg.erasure id cs h) {c : BlobChunk} (hne : c.blobId ≠ id) :
    Tracks cfg.erasure id cs
      (({ h with db := h.db.put (Database.rowOf c) }.registerChunkInLedger cfg c).noteChunk c) := by
  obtain ⟨hreceived, havailable⟩ := noted_other (h.db.put (Database.rowOf c)) h.ledger cfg.erasure
    c.unitCount c.sizeBytes c.index hne
  refine ⟨?_, ?_, ?_⟩
  · intro i d hd
    change (h.db.put (Database.rowOf c)).getChunk id i = _
    rw [getChunk_put, if_neg fun heq => hne heq.1]
    exact ht.rows i d hd
  · intro hnot
    refine hreceived.trans ?_
    exact ht.counted fun hin => hnot (havailable.mpr hin)
  · exact havailable.trans ht.available

theorem Tracks.own (hcfg : Valid cfg.erasure) (ht : Tracks cfg.erasure id cs h) {c : BlobChunk}
    (hid : c.blobId = id) :
    Tracks cfg.erasure id (cs ++ [c])
      (({ h with db := h.db.put (Database.rowOf c) }.registerChunkInLedger cfg c).noteChunk c) := by
  subst hid
  have hrows : ∀ i d, lastOf i (cs ++ [c]) = some d →
      (h.db.put (Database.rowOf c)).getChunk c.blobId i = some d.data := by
    intro i d hd
    rw [lastOf_snoc] at hd
    rw [getChunk_put]
    by_cases hi : c.index = i
    · rw [if_pos hi] at hd
      cases hd
      rw [if_pos ⟨rfl, hi⟩]
    · rw [if_neg hi] at hd
      rw [if_neg fun heq => hi heq.2]
      exact ht.rows i d hd
  by_cases hin : c.blobId ∈ h.ledger.available
  · have hstill : c.blobId ∈ (({ h with db := h.db.put (Database.rowOf c)
        }.registerChunkInLedger cfg c).noteChunk c).ledger.available := noteWith_available hin
    refine ⟨hrows, fun hnot => absurd hstill hnot, ?_⟩
    rw [whole_snoc]
    exact ⟨fun _ => Or.inl (ht.available.mp hin), fun _ => hstill⟩
  · obtain ⟨hreceived, havailable⟩ := noted_own (h.db.put (Database.rowOf c)) cfg.erasure
      c.unitCount c.sizeBytes c.index hin
    rw [ht.counted hin, ← numbers_snoc] at hreceived havailable
    refine ⟨hrows, fun _ => hreceived, ?_⟩
    refine havailable.trans ?_
    rw [whole_snoc, ← ht.available, or_iff_right hin, available_iff_whole hcfg hrows]

theorem Tracks.turn (hcfg : Valid cfg.erasure) {arrivals : List ChunkArrival}
    (ht : Tracks cfg.erasure id (stored id arrivals) h) (a : ChunkArrival) :
    Tracks cfg.erasure id (stored id (arrivals ++ [a])) (ingestChunk cfg h a) := by
  obtain ⟨c, io⟩ := a
  rw [stored_snoc]
  unfold ingestChunk
  cases io with
  | error e =>
    rw [if_neg (by simp [Except.isOk, Except.toBool])]
    exact ht
  | ok u =>
    by_cases hid : c.blobId = id
    · rw [if_pos ⟨rfl, hid⟩]
      exact ht.own hcfg hid
    · rw [if_neg fun hc => hid hc.2]
      exact ht.other hid

theorem ingest_turn (blake3 : BlobHash) {w : World} (hidle : w.ingesting = none)
    (a : ChunkArrival) :
    Trace.final (World.step blake3 cfg) w (ingestMoves a) =
      { w with host := ingestChunk cfg w.host a } := by
  obtain ⟨host, tasks, ingesting⟩ := w
  obtain ⟨c, io⟩ := a
  dsimp only at hidle
  subst hidle
  cases io <;> rfl

theorem tracks_run (blake3 : BlobHash) (hcfg : Valid cfg.erasure) (arrivals : List ChunkArrival)
    {before : List ChunkArrival} {w : World} (hidle : w.ingesting = none)
    (ht : Tracks cfg.erasure id (stored id before) w.host) :
    Tracks cfg.erasure id (stored id (before ++ arrivals))
      (Trace.final (World.step blake3 cfg) w (arrivals.flatMap ingestMoves)).host := by
  induction arrivals generalizing before w with
  | nil =>
    rw [List.append_nil]
    exact ht
  | cons a arrivals ih =>
    rw [List.flatMap_cons, Trace.final_append, ingest_turn blake3 hidle, List.append_cons]
    exact ih hidle (ht.turn hcfg a)

end Tracking

/-- The ingest loop waits for a chunk, and the ledger does not know the blob. -/
structure Unknown (id : BlobId) (w : World) : Prop where
  idle : w.ingesting = none
  unregistered : w.host.ledger.blobMeta[id]? = none
  unavailable : id ∉ w.host.ledger.available

/-- Chunks with the right shards and size arrive for `k` numbers at least, and no other chunks of
the blob for these. -/
def Delivered (blake3 : BlobHash) (cfg : BlobCustodyConfig) (id : BlobId)
    (arrivals : List ChunkArrival) : Prop :=
  ∃ (payload : List Byte) (code : Rows) (right : Finset ℕ),
    blobIdFromPayload blake3 payload = id ∧ encodeShards payload cfg.erasure = .ok code ∧
      cfg.erasure.k ≤ right.card ∧ right ⊆ numbers (stored id arrivals) ∧
      ∀ c ∈ stored id arrivals, c.index ∈ right →
        code[c.index]? = some c.data ∧ c.sizeBytes = payload.length

/-- A blob of which enough has been delivered is available. -/
def Unpoisoned (blake3 : BlobHash) (cfg : BlobCustodyConfig) : Prop :=
  ∀ (w : World) (id : BlobId) (arrivals : List ChunkArrival), Unknown id w →
    Delivered blake3 cfg id arrivals →
      (Trace.final (World.step blake3 cfg) w (arrivals.flatMap ingestMoves)).host.isAvailable
        id = true

/-- What arrives of an unknown blob makes it available when, and only when, some beginning of it
is whole. -/
theorem available_after_iff {blake3 : BlobHash} {cfg : BlobCustodyConfig}
    (hcfg : Valid cfg.erasure) {w : World} {id : BlobId} (hw : Unknown id w)
    (arrivals : List ChunkArrival) :
    (Trace.final (World.step blake3 cfg) w (arrivals.flatMap ingestMoves)).host.isAvailable
        id = true ↔ ∃ pre, pre <+: stored id arrivals ∧ Whole cfg.erasure pre := by
  have hstart : Tracks cfg.erasure id (stored id []) w.host := by
    refine ⟨?_, ?_, ?_⟩
    · intro i c hc
      cases hc
    · intro _
      unfold receivedOf
      rw [hw.unregistered]
      rfl
    · refine iff_of_false hw.unavailable ?_
      rintro ⟨pre, hpre, hwhole⟩
      rw [List.prefix_nil.mp hpre] at hwhole
      exact absurd hcfg.data (Nat.not_lt.mpr hwhole.enough)
  have hend := tracks_run blake3 hcfg arrivals hw.idle hstart
  rw [List.nil_append] at hend
  rw [← hend.available]
  exact decide_eq_true_iff

/-- Of a blob that has been delivered, with whatever else under other numbers, the node says that
it is available if and only if at some moment `k` numbers had arrived, none of them beyond the
last shard, and the last chunk of each had the length of a shard. -/
theorem custody_unpoisoned_iff (blake3 : BlobHash) (cfg : BlobCustodyConfig) (w : World)
    (id : BlobId) (arrivals : List ChunkArrival) (hw : Unknown id w)
    (hdelivered : Delivered blake3 cfg id arrivals) :
    (Trace.final (World.step blake3 cfg) w (arrivals.flatMap ingestMoves)).host.isAvailable
        id = true ↔ ∃ pre, pre <+: stored id arrivals ∧ Whole cfg.erasure pre := by
  obtain ⟨payload, code, right, -, hcode, -⟩ := hdelivered
  have hcfg := ((encodeShards_ok_iff payload).mp ⟨code, hcode⟩).1
  exact available_after_iff hcfg hw arrivals

/-- The genuine chunk of a blob arrives, and before it one with a number that no shard has. -/
theorem custody_poisoned : ¬ Unpoisoned numberHash ⟨⟨1, 2, 1⟩⟩ := by
  intro hclaim
  obtain ⟨code, hcode, hfirst⟩ := encode_byte 1
  let id := blobIdFromPayload numberHash [1]
  let arrivals : List ChunkArrival :=
    [(⟨id, 1, .erasure 2 2 [0]⟩, .ok ()), (⟨id, 1, .erasure 0 2 [1]⟩, .ok ())]
  have hvalid : Valid ⟨1, 2, 1⟩ := ⟨by decide, by decide, by decide, by decide⟩
  have hstored : stored id arrivals =
      [⟨id, 1, .erasure 2 2 [0]⟩, ⟨id, 1, .erasure 0 2 [1]⟩] := by
    simp [stored, arrivals, Except.isOk, Except.toBool]
  have hw : Unknown id (World.boot ⟨⟨1, 2, 1⟩⟩ {}) := ⟨rfl, rfl, Finset.notMem_empty _⟩
  have hdelivered : Delivered numberHash ⟨⟨1, 2, 1⟩⟩ id arrivals := by
    refine ⟨[1], code, {0}, rfl, hcode, Nat.le_refl 1, by decide, ?_⟩
    rw [hstored]
    intro c hc hright
    cases List.mem_cons.mp hc with
    | inl heq =>
      rw [heq] at hright
      exact absurd hright (by decide)
    | inr hlast =>
      rw [List.mem_singleton.mp hlast]
      exact ⟨hfirst, rfl⟩
  obtain ⟨pre, hpre, henough, hfits⟩ :=
    (available_after_iff hvalid hw arrivals).mp (hclaim _ id arrivals hw hdelivered)
  rw [hstored] at hpre
  obtain ⟨rest, hrest⟩ := hpre
  cases pre with
  | nil => exact absurd henough (by decide)
  | cons c pre =>
    -- The first chunk is never overwritten.
    obtain ⟨rfl, hlast⟩ := List.cons.inj hrest
    obtain ⟨rfl, -⟩ | ⟨rfl, -⟩ := List.append_eq_singleton_iff.mp hlast
    · exact absurd (hfits 2 _ rfl).1 (by decide)
    · exact absurd (hfits 2 _ rfl).1 (by decide)

theorem custody_unpoisoned_genuine :
    let id := blobIdFromPayload numberHash [1]
    let arrivals : List ChunkArrival :=
      [(⟨id, 1, .erasure 0 2 [1]⟩, .ok ()), (⟨id, 1, .erasure 2 2 [0]⟩, .ok ())]
    (Trace.final (World.step numberHash ⟨⟨1, 2, 1⟩⟩) (World.boot ⟨⟨1, 2, 1⟩⟩ {})
      (arrivals.flatMap ingestMoves)).host.isAvailable id = true := by
  intro id arrivals
  obtain ⟨code, hcode, hfirst⟩ := encode_byte 1
  have hstored : stored id arrivals =
      [⟨id, 1, .erasure 0 2 [1]⟩, ⟨id, 1, .erasure 2 2 [0]⟩] := by
    simp [stored, arrivals, Except.isOk, Except.toBool]
  have hdelivered : Delivered numberHash ⟨⟨1, 2, 1⟩⟩ id arrivals := by
    refine ⟨[1], code, {0}, rfl, hcode, Nat.le_refl 1, by decide, ?_⟩
    rw [hstored]
    intro c hc hright
    cases List.mem_cons.mp hc with
    | inl heq =>
      rw [heq]
      exact ⟨hfirst, rfl⟩
    | inr hlast =>
      rw [List.mem_singleton.mp hlast] at hright
      exact absurd hright (by decide)
  refine (custody_unpoisoned_iff numberHash ⟨⟨1, 2, 1⟩⟩ (World.boot ⟨⟨1, 2, 1⟩⟩ {}) id arrivals
    ⟨rfl, rfl, Finset.notMem_empty _⟩ hdelivered).mpr ⟨[⟨id, 1, .erasure 0 2 [1]⟩], ?_, ?_⟩
  · rw [hstored]
    exact ⟨_, rfl⟩
  · refine ⟨Nat.le_refl 1, ?_⟩
    intro i c hc
    rw [← List.nil_append [_], lastOf_snoc] at hc
    split at hc
    · rename_i hi
      cases hc
      rw [← hi]
      exact ⟨by decide, rfl⟩
    · cases hc

end LuaDag
