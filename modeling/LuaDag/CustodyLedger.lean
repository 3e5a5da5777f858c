import LuaDag.BlobStore
import Mathlib.Data.Finset.Sort

/-! Which blobs the node can read (`dag::blob::custody`). A shard is counted by its number; a
blob is available once the shards stored under the counted numbers decode. -/
namespace LuaDag
open ReedSolomon (decodeShards)

structure BlobMeta where
  sizeBytes : ℕ
  cfg : ErasureConfig
  received : Finset ℕ

structure CustodyLedger where
  blobMeta : Std.TreeMap BlobId BlobMeta := ∅
  available : Finset BlobId := ∅

def storedShards (db : Database) (id : BlobId) (received : Finset ℕ) : List (ℕ × List Byte) :=
  (received.sort (· ≤ ·)).filterMap fun index =>
    (db.getChunk id index).map fun data => (index, data)

def erasureAvailable (db : Database) (id : BlobId) (entry : BlobMeta) : Bool :=
  if entry.received.card < entry.cfg.k then false
  else
    let present := storedShards db id entry.received
    if present.length < entry.cfg.k then false
    else (decodeShards present entry.cfg entry.sizeBytes).isOk

namespace CustodyLedger

def registerErasure (ledger : CustodyLedger) (id : BlobId) (cfg : ErasureConfig)
    (_nShards sizeBytes : ℕ) : CustodyLedger :=
  let entry : BlobMeta :=
    match ledger.blobMeta[id]? with
    | some m => { m with sizeBytes, cfg }
    | none => ⟨sizeBytes, cfg, ∅⟩
  { ledger with blobMeta := ledger.blobMeta.insert id entry }

/-- Counts the shard and asks `complete` whether that makes the blob available; says whether it
has become so. -/
def noteWith (complete : BlobMeta → Bool) (ledger : CustodyLedger) (id : BlobId) (index : ℕ) :
    Bool × CustodyLedger :=
  if id ∈ ledger.available then (false, ledger)
  else
    match ledger.blobMeta[id]? with
    | none => (false, ledger)
    | some m =>
      let m : BlobMeta := { m with received := insert index m.received }
      let ledger := { ledger with blobMeta := ledger.blobMeta.insert id m }
      if complete m then (true, { ledger with available := insert id ledger.available })
      else (false, ledger)

def noteChunk (db : Database) (ledger : CustodyLedger) (id : BlobId) (index : ℕ) :
    Bool × CustodyLedger :=
  noteWith (erasureAvailable db id) ledger id index

def noteChunkPresent (ledger : CustodyLedger) (id : BlobId) (index : ℕ) :
    Bool × CustodyLedger :=
  noteWith (fun m => decide (m.cfg.k ≤ m.received.card)) ledger id index

def isAvailable (ledger : CustodyLedger) (id : BlobId) : Bool := decide (id ∈ ledger.available)

end CustodyLedger

section Stored
variable {db : Database} {id : BlobId} {received : Finset ℕ}

theorem mem_storedShards (q : ℕ × List Byte) : q ∈ storedShards db id received ↔
    q.1 ∈ received ∧ db.getChunk id q.1 = some q.2 := by
  obtain ⟨index, data⟩ := q
  simp only [storedShards, List.mem_filterMap, Finset.mem_sort, Option.map_eq_some_iff,
    Prod.mk.injEq]
  constructor
  · rintro ⟨i, hi, d, hd, rfl, rfl⟩
    exact ⟨hi, hd⟩
  · rintro ⟨hi, hd⟩
    exact ⟨index, hi, data, hd, rfl, rfl⟩

theorem storedShards_indices : (storedShards db id received).map (·.1) =
    (received.sort (· ≤ ·)).filter fun index => (db.getChunk id index).isSome := by
  unfold storedShards
  induction received.sort (· ≤ ·) with
  | nil => rfl
  | cons index rest ih =>
    rw [List.filterMap_cons, List.filter_cons]
    cases db.getChunk id index with
    | none => exact ih
    | some data => exact congrArg (index :: ·) ih

theorem storedShards_nodup : ((storedShards db id received).map (·.1)).Nodup := by
  rw [storedShards_indices]
  exact (received.sort_nodup _).filter _

theorem storedShards_sorted :
    ((storedShards db id received).map (·.1)).Pairwise (· < ·) := by
  rw [storedShards_indices]
  refine List.Pairwise.filter _ ?_
  exact (Finset.sortedLT_sort received).pairwise

/-- When every counted shard is stored, none is left out. -/
theorem storedShards_length (hstored : ∀ i ∈ received, (db.getChunk id i).isSome = true) :
    (storedShards db id received).length = received.card := by
  rw [← List.length_map (·.1), storedShards_indices, List.filter_eq_self.mpr, Finset.length_sort]
  exact fun i hi => hstored i ((Finset.mem_sort _).mp hi)

/-- Availability, shard by shard: the parameters are sound, `k` shards are stored under the
counted numbers, and all that are have a number below `n` and the full length. -/
theorem erasureAvailable_iff (entry : BlobMeta) : erasureAvailable db id entry = true ↔
    ReedSolomon.Valid entry.cfg ∧ entry.cfg.k ≤ (storedShards db id entry.received).length ∧
      ∀ q ∈ storedShards db id entry.received,
        q.1 < entry.cfg.n ∧ q.2.length = entry.cfg.dataShardSize := by
  have hle : (storedShards db id entry.received).length ≤ entry.received.card := by
    rw [← Finset.length_sort (· ≤ ·)]
    exact List.length_filterMap_le _ _
  have hok : (decodeShards (storedShards db id entry.received) entry.cfg
      entry.sizeBytes).isOk = true ↔ _ :=
    ReedSolomon.decodeShards_ok_iff storedShards_nodup entry.sizeBytes
  unfold erasureAvailable
  constructor
  · intro h
    split at h
    · cases h
    dsimp only at h
    split at h
    · cases h
    exact hok.mp h
  · rintro ⟨hcfg, hcount, hfit⟩
    rw [if_neg (by omega)]
    dsimp only
    rw [if_neg (by omega)]
    exact hok.mpr ⟨hcfg, hcount, hfit⟩

end Stored

namespace CustodyLedger
variable {ledger : CustodyLedger} {id : BlobId}

def receivedOf (ledger : CustodyLedger) (id : BlobId) : Finset ℕ :=
  (ledger.blobMeta[id]?.map (·.received)).getD ∅

@[simp] theorem registerErasure_meta (cfg : ErasureConfig) (nShards size : ℕ) (other : BlobId) :
    (ledger.registerErasure id cfg nShards size).blobMeta[other]? =
      if id = other then some ⟨size, cfg, ledger.receivedOf id⟩
      else ledger.blobMeta[other]? := by
  unfold registerErasure receivedOf
  rw [Maps.get_insert]
  by_cases h : id = other
  · rw [if_pos h, if_pos h]
    cases ledger.blobMeta[id]? <;> rfl
  · rw [if_neg h, if_neg h]

@[simp] theorem registerErasure_received (cfg : ErasureConfig) (nShards size : ℕ)
    (other : BlobId) :
    (ledger.registerErasure id cfg nShards size).receivedOf other = ledger.receivedOf other := by
  unfold receivedOf
  rw [registerErasure_meta]
  by_cases h : id = other
  · subst h
    rw [if_pos rfl]
    rfl
  · rw [if_neg h]

/-- What noting a shard does: nothing for an available blob or one that nobody has registered,
else it counts the shard and asks whether that completes the blob. -/
theorem noteWith_cases (complete : BlobMeta → Bool) (ledger : CustodyLedger) (id : BlobId)
    (index : ℕ) :
    (noteWith complete ledger id index = (false, ledger) ∧
      (id ∈ ledger.available ∨ ledger.blobMeta[id]? = none)) ∨
    ∃ m : BlobMeta, id ∉ ledger.available ∧ ledger.blobMeta[id]? = some m ∧
      noteWith complete ledger id index =
        (complete { m with received := insert index m.received },
          ⟨ledger.blobMeta.insert id { m with received := insert index m.received },
            if complete { m with received := insert index m.received }
            then insert id ledger.available else ledger.available⟩) := by
  unfold noteWith
  by_cases hin : id ∈ ledger.available
  · rw [if_pos hin]
    exact Or.inl ⟨rfl, Or.inl hin⟩
  rw [if_neg hin]
  cases hm : ledger.blobMeta[id]? with
  | none => exact Or.inl ⟨rfl, Or.inr rfl⟩
  | some m =>
    refine Or.inr ⟨m, hin, rfl, ?_⟩
    dsimp only
    cases complete { m with received := insert index m.received } <;> rfl

/-- A shard of a registered blob that is not available yet is counted. -/
theorem noteWith_counted (complete : BlobMeta → Bool) (index : ℕ) {m : BlobMeta}
    (hnot : id ∉ ledger.available) (hm : ledger.blobMeta[id]? = some m) :
    noteWith complete ledger id index =
      (complete { m with received := insert index m.received },
        ⟨ledger.blobMeta.insert id { m with received := insert index m.received },
          if complete { m with received := insert index m.received }
          then insert id ledger.available else ledger.available⟩) := by
  obtain ⟨-, hin | hnone⟩ | ⟨m', -, hm', hnote⟩ := noteWith_cases complete ledger id index
  · exact absurd hin hnot
  · rw [hm] at hnone
    cases hnone
  · cases hm.symm.trans hm'
    exact hnote

/- A chunk that is registered and counted. -/

theorem noted_other (db : Database) (ledger : CustodyLedger) (cfg : ErasureConfig)
    (nShards size index : ℕ) {other : BlobId} (hne : id ≠ other) :
    let noted := ((ledger.registerErasure id cfg nShards size).noteChunk db id index).2
    noted.receivedOf other = ledger.receivedOf other ∧
      (other ∈ noted.available ↔ other ∈ ledger.available) := by
  intro noted
  obtain ⟨hsame, -⟩ | ⟨m, -, -, hnote⟩ := noteWith_cases (erasureAvailable db id)
    (ledger.registerErasure id cfg nShards size) id index
  · have hnoted : noted = ledger.registerErasure id cfg nShards size := congrArg Prod.snd hsame
    rw [hnoted]
    exact ⟨registerErasure_received _ _ _ _, Iff.rfl⟩
  · have hnoted := congrArg Prod.snd hnote
    change noted = _ at hnoted
    rw [hnoted]
    constructor
    · unfold receivedOf
      dsimp only
      rw [Maps.get_insert, if_neg hne, registerErasure_meta, if_neg hne]
    · dsimp only
      split
      · rw [Finset.mem_insert]
        exact or_iff_right hne.symm
      · exact Iff.rfl

theorem noted_own (db : Database) {ledger : CustodyLedger} (cfg : ErasureConfig)
    (nShards size index : ℕ) (hnot : id ∉ ledger.available) :
    let noted := ((ledger.registerErasure id cfg nShards size).noteChunk db id index).2
    noted.receivedOf id = insert index (ledger.receivedOf id) ∧
      (id ∈ noted.available ↔
        erasureAvailable db id ⟨size, cfg, insert index (ledger.receivedOf id)⟩ = true) := by
  intro noted
  have hmeta : (ledger.registerErasure id cfg nShards size).blobMeta[id]? =
      some ⟨size, cfg, ledger.receivedOf id⟩ := by
    rw [registerErasure_meta, if_pos rfl]
  have hnot' : id ∉ (ledger.registerErasure id cfg nShards size).available := hnot
  have hnoted := congrArg Prod.snd (noteWith_counted (erasureAvailable db id) index hnot' hmeta)
  change noted = _ at hnoted
  rw [hnoted]
  constructor
  · unfold receivedOf
    dsimp only
    rw [Maps.get_insert, if_pos rfl]
    rfl
  · dsimp only
    split
    · rename_i hcomplete
      exact ⟨fun _ => hcomplete, fun _ => Finset.mem_insert_self _ _⟩
    · rename_i hcomplete
      exact ⟨fun hin => absurd hin hnot, fun h => absurd h hcomplete⟩

theorem noteWith_available {complete : BlobMeta → Bool} {other : BlobId} {index : ℕ}
    (hin : id ∈ ledger.available) : id ∈ (noteWith complete ledger other index).2.available := by
  obtain ⟨hsame, -⟩ | ⟨m, -, -, hnote⟩ := noteWith_cases complete ledger other index
  · rw [hsame]
    exact hin
  · rw [hnote]
    dsimp only
    split
    · exact Finset.mem_insert_of_mem hin
    · exact hin

/-- What it means that noting a shard has made a blob available. -/
theorem noteWith_marks {complete : BlobMeta → Bool} {other : BlobId} {index : ℕ}
    (hbefore : id ∉ ledger.available)
    (hafter : id ∈ (noteWith complete ledger other index).2.available) :
    other = id ∧ ∃ m, (noteWith complete ledger other index).2.blobMeta[id]? = some m ∧
      complete m = true := by
  obtain ⟨hsame, -⟩ | ⟨m, -, -, hnote⟩ := noteWith_cases complete ledger other index
  · rw [hsame] at hafter
    exact absurd hafter hbefore
  rw [hnote] at hafter ⊢
  dsimp only at hafter ⊢
  split at hafter
  · rename_i hcomplete
    cases Finset.mem_insert.mp hafter with
    | inr hold => exact absurd hold hbefore
    | inl heq =>
      subst heq
      exact ⟨rfl, _, by rw [Maps.get_insert, if_pos rfl], hcomplete⟩
  · exact absurd hafter hbefore

def Configured (cfg : ErasureConfig) (ledger : CustodyLedger) : Prop :=
  ∀ (id : BlobId) (m : BlobMeta), ledger.blobMeta[id]? = some m → m.cfg = cfg

theorem Configured.register {cfg : ErasureConfig} (h : Configured cfg ledger) (nShards size : ℕ) :
    Configured cfg (ledger.registerErasure id cfg nShards size) := by
  intro other m hm
  rw [registerErasure_meta] at hm
  split at hm
  · cases hm
    rfl
  · exact h other m hm

theorem Configured.note {cfg : ErasureConfig} (h : Configured cfg ledger)
    (complete : BlobMeta → Bool) (index : ℕ) :
    Configured cfg (noteWith complete ledger id index).2 := by
  obtain ⟨hsame, -⟩ | ⟨m, -, hm, hnote⟩ := noteWith_cases complete ledger id index
  · rw [hsame]
    exact h
  · rw [hnote]
    intro other m' hm'
    rw [Maps.get_insert] at hm'
    split at hm'
    · cases hm'
      exact h id m hm
    · exact h other m' hm'

end CustodyLedger
end LuaDag
