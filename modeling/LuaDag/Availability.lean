import LuaDag.Commitment

/-! Challenges to the availability of a blob (`dag::da::challenge`): what an accepted response says
about the shards in it. -/
namespace LuaDag
open ReedSolomon

structure AvailabilityChallenge where
  blobId : BlobId
  shardIndices : List ℕ
  challenger : ValidatorId
deriving DecidableEq, Repr

structure AvailabilityResponse where
  blobId : BlobId
  shards : List (ℕ × List Byte)
deriving DecidableEq, Repr

inductive ChallengeError where
  | mismatch (what : String)
  | commitment (text : String)
  | panic (text : String)
deriving DecidableEq, Repr

def ChallengeError.ofErasure : ErasureError → ChallengeError
  | .config msg => .commitment ("invalid erasure config: " ++ msg)
  | .codec msg => .commitment ("erasure codec error: " ++ msg)
  | .panic msg => .panic msg

def compareShards (fullShards : Rows) : List (ℕ × List Byte) → Except ChallengeError Unit
  | [] => .ok ()
  | (index, data) :: rest =>
    match fullShards[index]? with
    | none => .error (.panic "index out of bounds")
    | some shard =>
      if shard ≠ data then
        .error (.commitment ("tampered shard at index " ++ toString index))
      else compareShards fullShards rest

def verifyAvailabilityResponse (blake3 : BlobHash) (challenge : AvailabilityChallenge)
    (response : AvailabilityResponse) (expectedCommitment : Hash32) (blobRef : BlobRef)
    (cfg : ErasureConfig) : Except ChallengeError Unit :=
  if response.blobId ≠ challenge.blobId then .error (.mismatch "blob_id")
  else if (response.shards.map (·.1)).insertionSort (· ≤ ·) ≠
      challenge.shardIndices.insertionSort (· ≤ ·) then .error (.mismatch "shard_indices")
  else if response.shards.length < cfg.k then .ok ()
  else
    match decodeShards response.shards cfg blobRef.sizeBytes with
    | .error e => .error (.ofErasure e)
    | .ok decoded =>
      match encodeShards decoded cfg with
      | .error e => .error (.ofErasure e)
      | .ok fullShards =>
        if rsMerkleCommitment blake3 fullShards ≠ expectedCommitment then
          .error (.commitment "recomputed merkle root mismatch")
        else compareShards fullShards response.shards

/-- Every shard in the response is the one of `code` under its index. -/
def AvailabilityResponse.Genuine (response : AvailabilityResponse) (code : Rows) : Prop :=
  ∀ q ∈ response.shards, code[q.1]? = some q.2

section Verify
variable {blake3 : BlobHash} {cfg : ErasureConfig} {challenge : AvailabilityChallenge}
  {response : AvailabilityResponse} {root : Hash32} {blobRef : BlobRef} {code : Rows}

theorem compareShards_ok (shards : List (ℕ × List Byte)) :
    compareShards code shards = .ok () ↔ ∀ q ∈ shards, code[q.1]? = some q.2 := by
  induction shards with
  | nil => simp [compareShards]
  | cons q rest ih =>
    obtain ⟨index, data⟩ := q
    rw [List.forall_mem_cons, ← ih, compareShards]
    cases hshard : code[index]? with
    | none => simp
    | some shard =>
      by_cases heq : shard = data
      · simp [heq]
      · simp [heq]

theorem encodeShards_shaped {payload : List Byte} (h : encodeShards payload cfg = .ok code) :
    Shaped cfg.n cfg.dataShardSize code := by
  cases hcfg : validateCfg cfg with
  | error e => simp [encodeShards, hcfg] at h
  | ok u =>
    have hvalid := Valid.of_accepted hcfg
    obtain ⟨E, hE, hsys⟩ := hvalid.matrix
    by_cases hlong : cfg.paddedLen < payload.length
    · simp [encodeShards, hcfg, hlong] at h
    · obtain ⟨data, shards, hok, hcode, -⟩ := encodeShards_spec hvalid hE hsys (Nat.not_lt.mp hlong)
      cases hok.symm.trans h
      exact hcode.shaped

/-- An accepted response answers the indices of the challenge, each as often as it is there. -/
theorem verify_indices
    (h : verifyAvailabilityResponse blake3 challenge response root blobRef cfg = .ok ()) :
    (response.shards.map (·.1)).Perm challenge.shardIndices := by
  unfold verifyAvailabilityResponse at h
  split at h
  · cases h
  split at h
  · cases h
  rename_i hsorted
  have hsame := Decidable.not_not.mp hsorted
  have hleft := List.perm_insertionSort (· ≤ ·) (response.shards.map (·.1))
  have hright := List.perm_insertionSort (· ≤ ·) challenge.shardIndices
  exact hleft.symm.trans (hsame ▸ hright)

/-- From `k` shards on, the response is compared with the code behind the commitment. -/
theorem verify_genuine (hinj : TagsInjective blake3) {payload : List Byte}
    (hcode : encodeShards payload cfg = .ok code) (hmany : cfg.k ≤ response.shards.length)
    (h : verifyAvailabilityResponse blake3 challenge response (rsMerkleCommitment blake3 code)
      blobRef cfg = .ok ()) : response.Genuine code := by
  unfold verifyAvailabilityResponse at h
  split at h
  · cases h
  split at h
  · cases h
  rw [if_neg (Nat.not_lt.mpr hmany)] at h
  split at h
  · cases h
  split at h
  · cases h
  rename_i fullShards hfull
  split at h
  · cases h
  rename_i hroot
  have hlen : fullShards.length = code.length := by
    rw [(encodeShards_shaped hfull).length, (encodeShards_shaped hcode).length]
  rw [commitment_binding blake3 hinj fullShards code hlen (Decidable.not_not.mp hroot)] at h
  exact (compareShards_ok _).mp h

theorem verify_unseen (shard : List Byte) (hfew : challenge.shardIndices.length < cfg.k) :
    verifyAvailabilityResponse blake3 challenge
      ⟨challenge.blobId, challenge.shardIndices.map fun index => (index, shard)⟩ root blobRef cfg =
        .ok () := by
  simp [verifyAvailabilityResponse, Function.comp_def, hfew]

end Verify

/-- Accepted responses are genuine, for a challenge of no index or of at least `k`, and for no
other one. -/
theorem availability_sound_iff (blake3 : BlobHash) (hinj : TagsInjective blake3)
    (cfg : ErasureConfig) (payload : List Byte) (code : Rows)
    (hcode : encodeShards payload cfg = .ok code) (blobRef : BlobRef)
    (challenge : AvailabilityChallenge) :
    (∀ response, verifyAvailabilityResponse blake3 challenge response
        (rsMerkleCommitment blake3 code) blobRef cfg = .ok () → response.Genuine code) ↔
      challenge.shardIndices = [] ∨ cfg.k ≤ challenge.shardIndices.length := by
  constructor
  · intro hsound
    by_contra hcond
    rw [not_or, not_le] at hcond
    obtain ⟨index, hindex⟩ := List.exists_mem_of_ne_nil _ hcond.1
    -- a byte more than any shard has
    have hforged := hsound _ (verify_unseen (zeroShard (cfg.dataShardSize + 1)) hcond.2)
    have hshard := List.mem_of_getElem? (hforged _ (List.mem_map_of_mem hindex))
    have hlen := (encodeShards_shaped hcode).width _ hshard
    simp [zeroShard] at hlen
  · intro hcond response h
    have hlen := (verify_indices h).length_eq
    rw [List.length_map] at hlen
    cases hcond with
    | inl hnone =>
      rw [hnone, List.length_nil, List.length_eq_zero_iff] at hlen
      simp [AvailabilityResponse.Genuine, hlen]
    | inr hmany => exact verify_genuine hinj hcode (hlen ▸ hmany) h

theorem encode_two : encodeShards [0, 1] ⟨2, 3, 1⟩ = .ok [[0], [1], [⟨2#8⟩]] := by
  decide +kernel

/-- One of three shards is challenged, two decode; a shard that is not the blob's passes. -/
theorem availability_forged :
    let cfg : ErasureConfig := ⟨2, 3, 1⟩
    TagsInjective textHash ∧ ∃ code, encodeShards [0, 1] cfg = .ok code ∧
      verifyAvailabilityResponse textHash ⟨⟨5⟩, [0], ⟨0⟩⟩ ⟨⟨5⟩, [(0, [1])]⟩
        (rsMerkleCommitment textHash code) ⟨⟨5⟩, rsMerkleCommitment textHash code, 2⟩ cfg = .ok () ∧
      ¬ AvailabilityResponse.Genuine ⟨⟨5⟩, [(0, [1])]⟩ code := by
  refine ⟨textHash_injective, [[0], [1], [⟨2#8⟩]], encode_two, ?_, ?_⟩
  · exact verify_unseen [1] (by decide)
  · intro hgenuine
    exact absurd (hgenuine (0, [1]) (List.mem_singleton.mpr rfl)) (by decide)

theorem availability_sound_two :
    encodeShards [0, 1] ⟨2, 3, 1⟩ = .ok [[0], [1], [⟨2#8⟩]] ∧
      ∀ response, verifyAvailabilityResponse textHash ⟨⟨5⟩, [0, 2], ⟨0⟩⟩ response
          (rsMerkleCommitment textHash [[0], [1], [⟨2#8⟩]]) ⟨⟨5⟩, ⟨0⟩, 2⟩ ⟨2, 3, 1⟩ = .ok () →
        response.Genuine [[0], [1], [⟨2#8⟩]] :=
  ⟨encode_two, (availability_sound_iff textHash textHash_injective ⟨2, 3, 1⟩ [0, 1]
    [[0], [1], [⟨2#8⟩]] encode_two ⟨⟨5⟩, ⟨0⟩, 2⟩ ⟨⟨5⟩, [0, 2], ⟨0⟩⟩).mpr (Or.inr (by decide))⟩

end LuaDag
