import LuaDag.CustodySound
import Mathlib.Data.Nat.Pairing

/-! The commitment to the shards of a blob binds them: layer by layer, from the root down, equal
nodes have equal children. -/
namespace LuaDag
open ReedSolomon (Rows)

/-- Under one tag no two inputs have the same hash. -/
def TagsInjective (blake3 : BlobHash) : Prop := ∀ dst, Function.Injective (blake3 dst)

section Tree
variable {blake3 : BlobHash}

theorem length_merkleLayer (layer : List Hash32) :
    (merkleLayer blake3 layer).length = (layer.length + 1) / 2 := by
  induction layer using merkleLayer.induct with
  | case1 => rfl
  | case2 a => simp [merkleLayer]
  | case3 a b rest ih =>
    simp only [merkleLayer, List.length_cons, ih]
    omega

/-- A layer determines the one below, once it is known whether its last node had a partner. -/
theorem merkleLayer_inj (hinj : TagsInjective blake3) {as bs : List Hash32}
    (hlen : as.length = bs.length) (h : merkleLayer blake3 as = merkleLayer blake3 bs) :
    as = bs := by
  induction as using merkleLayer.induct generalizing bs with
  | case1 => exact (List.length_eq_zero_iff.mp hlen.symm).symm
  | case2 a =>
    obtain ⟨b, rfl⟩ := List.length_eq_one_iff.mp hlen.symm
    have hnode := hinj _ (List.cons.inj h).1
    rw [(BlobText.pair.inj hnode).1]
  | case3 a a' rest ih =>
    match bs, hlen with
    | b :: b' :: rest', hlen =>
      have hrest : rest.length = rest'.length := by simpa using hlen
      have hnode := BlobText.pair.inj (hinj _ (List.cons.inj h).1)
      rw [hnode.1, hnode.2, ih hrest (List.cons.inj h).2]

/-- The induction is on the layers above: there are fewer of them than nodes. -/
theorem merkleRoot_inj (hinj : TagsInjective blake3) {fuel : ℕ} {as bs : List Hash32}
    (hfuel : as.length ≤ fuel) (hlen : as.length = bs.length)
    (h : merkleRoot blake3 fuel as = merkleRoot blake3 fuel bs) : as = bs := by
  induction fuel generalizing as bs with
  | zero =>
    have has := List.length_eq_zero_iff.mp (Nat.le_zero.mp hfuel)
    have hbs := List.length_eq_zero_iff.mp (hlen.symm.trans (Nat.le_zero.mp hfuel))
    rw [has, hbs]
  | succ fuel ih =>
    unfold merkleRoot at h
    by_cases hmany : 1 < as.length
    · rw [if_pos hmany, if_pos (hlen ▸ hmany)] at h
      have hlayer : (merkleLayer blake3 as).length = (merkleLayer blake3 bs).length := by
        rw [length_merkleLayer, length_merkleLayer, hlen]
      have hroom : (merkleLayer blake3 as).length ≤ fuel := by
        rw [length_merkleLayer]
        omega
      exact merkleLayer_inj hinj hlen (ih hroom hlayer h)
    · rw [if_neg hmany, if_neg (hlen ▸ hmany)] at h
      match as, bs, hlen with
      | [], [], _ => rfl
      | [a], [b], _ => exact congrArg (fun x => [x]) h
      | a :: a' :: as, _, _ => exact absurd hmany (by simp)

end Tree

/-- The commitment binds: one root has one list of shards of a given length. -/
theorem commitment_binding (blake3 : BlobHash) (hinj : TagsInjective blake3) (a b : Rows)
    (hlen : a.length = b.length)
    (h : rsMerkleCommitment blake3 a = rsMerkleCommitment blake3 b) : a = b := by
  have hleaf : Function.Injective (shardLeafHash blake3) := fun s t hst =>
    BlobText.bytes.inj (hinj _ hst)
  have hroot := BlobText.hash.inj (hinj _ h)
  rw [List.length_map, List.length_map, ← hlen] at hroot
  refine List.map_injective_iff.mpr hleaf (merkleRoot_inj hinj (le_of_eq ?_) ?_ hroot)
  · exact List.length_map _
  · rw [List.length_map, List.length_map, hlen]

def textHash : BlobHash
  | _, .bytes b => ⟨3 * (blobIdFromPayload numberHash b).val⟩
  | _, .hash h => ⟨3 * h.val + 1⟩
  | _, .pair a b => ⟨3 * Nat.pair a.val b.val + 2⟩

theorem textHash_injective : TagsInjective textHash := by
  intro dst s t h
  have hval := congrArg Hash32.val h
  cases s <;> cases t <;> simp only [textHash] at hval <;> try omega
  case bytes.bytes p q =>
    have hid : blobIdFromPayload numberHash p = blobIdFromPayload numberHash q :=
      BlobId.val_injective (by omega)
    rw [numberHash_collisionFree hid]
  case hash.hash a b =>
    have hab : a = b := Hash32.val_injective (by omega)
    rw [hab]
  case pair.pair a b c d =>
    have hpair := Nat.pair_eq_pair.mp (by omega : Nat.pair a.val b.val = Nat.pair c.val d.val)
    rw [Hash32.val_injective hpair.1, Hash32.val_injective hpair.2]

theorem commitment_binding_five :
    rsMerkleCommitment textHash [[0], [1], [0], [1], [0]] ≠
      rsMerkleCommitment textHash [[0], [1], [0], [1], [1]] := by
  intro h
  have heq : ([[0], [1], [0], [1], [0]] : Rows) = [[0], [1], [0], [1], [1]] :=
    commitment_binding textHash textHash_injective _ _ rfl h
  exact absurd heq (by decide)

end LuaDag
