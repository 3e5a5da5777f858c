import LuaDag.CertProduction

/-! Assembled certificates: the producer counts and aggregates what is in its list, the verifier
counts the bits that the list sets. -/
namespace LuaDag
open VertexCert

/-- A list of contributions that `assemble_cert` takes, whatever the signatures are. -/
structure Assembles (set : ValidatorSet) (contributors : List (Nat × BlsSig)) : Prop where
  members : set.entries.length < 2 ^ 32
  entries : contributors.length < 2 ^ 32
  quorum : quorumThreshold set.entries.length ≤ contributors.length
  inside : ∀ c ∈ contributors, c.1 < set.entries.length

/-- One entry an index. -/
def OncePerIndex (contributors : List (Nat × BlsSig)) : Prop := (contributors.map (·.1)).Nodup

section Assembly
variable {cr : Crypto} {set : ValidatorSet} {vertex : Vertex} {contributors : List (Nat × BlsSig)}
  {cv : CertifiedVertex}

theorem assembles_of_ok (h : assembleCert cr vertex set contributors = .ok cv) :
    Assembles set contributors := by
  unfold assembleCert at h
  split at h
  · cases h
  rename_i n hn
  have hbig : set.entries.length < 2 ^ 32 ∧ n = set.entries.length := by
    unfold toU32 at hn
    split at hn
    · rename_i hlt
      exact ⟨hlt, (Option.some.inj hn).symm⟩
    · cases hn
  dsimp only at h
  split at h
  · cases h
  rename_i hgot
  have hlong : contributors.length < 2 ^ 32 ∧ quorumThreshold n ≤ contributors.length := by
    unfold toU32 at hgot
    split at hgot
    · rename_i hlt
      exact ⟨hlt, Nat.le_of_not_lt hgot⟩
    · exact absurd (Nat.succ_pos _) hgot
  split at h
  · cases h
  rename_i hfind
  refine ⟨hbig.1, hlong.1, hbig.2 ▸ hlong.2, ?_⟩
  intro c hc
  have hin := List.find?_eq_none.mp hfind c hc
  simpa using hin

theorem certKeys_length {L : List Nat} {pks : List PublicKey} (h : certKeys cr set L = .ok pks) :
    pks.length = L.length := by
  induction L generalizing pks with
  | nil =>
    cases h
    rfl
  | cons i L ih =>
    unfold certKeys at h
    split at h
    · cases h
    split at h
    · cases h
    cases hrest : certKeys cr set L with
    | error e =>
      rw [hrest] at h
      cases h
    | ok rest =>
      rw [hrest] at h
      cases h
      rw [List.length_cons, List.length_cons, ih hrest]

theorem length_positions {n : Nat} {is : List Nat} (hin : ∀ i ∈ is, i < n) :
    ((List.range n).filter fun i => decide (i ∈ is)).length = is.toFinset.card := by
  rw [← List.toFinset_card_of_nodup (List.nodup_range.filter _)]
  congr 1
  ext i
  simp only [List.mem_toFinset, List.mem_filter, List.mem_range, decide_eq_true_eq]
  constructor
  · exact fun h => h.2
  · exact fun h => ⟨hin i h, h⟩

theorem verified_keys {agg : BlsSig} {is : List Nat} (hin : ∀ i ∈ is, i < set.entries.length)
    (h : verifyCertifiedVertex cr ⟨vertex, ⟨agg, Bitmap.setAll
      (Bitmap.zeros set.entries.length) is⟩⟩ set = .ok ()) :
    ∃ pks, pks.length = is.toFinset.card ∧
      cr.verifyAggregate pks .vertexCert (signingBytes vertex) agg = true := by
  unfold verifyCertifiedVertex at h
  split at h
  · cases h
  split at h
  · cases h
  rename_i n hn
  have hlen : n = set.entries.length := by
    unfold toU32 at hn
    split at hn
    · exact (Option.some.inj hn).symm
    · cases hn
  subst hlen
  dsimp only at h
  rw [bitmapIndices_setAll hin] at h
  dsimp only at h
  split at h
  · cases h
  split at h
  · cases h
  rename_i pks hpks
  split at h
  · rename_i hver
    exact ⟨pks, (certKeys_length hpks).trans (length_positions hin), hver⟩
  · cases h

end Assembly

/- Aggregates that keep nothing but the number of signatures. -/

def countingCrypto (h : Hash32) : Crypto where
  blake3WithDst := fun _ _ => h
  pkFromBytes := fun b => some ⟨b.val⟩
  verify := fun _ _ _ _ => true
  aggregateSigs := fun sigs => if sigs.isEmpty then none else some ⟨sigs.length⟩
  verifyAggregate := fun pks _ _ sig => decide (sig.val = pks.length)
  vrfVerify := fun _ _ _ => true
  sortitionScore := fun _ _ _ _ => 0

theorem countingCrypto_anyOrder (h : Hash32) : AggregatesAnyOrder (countingCrypto h) := by
  intro votes pks dst msg hne hvalid hperm
  refine ⟨⟨votes.length⟩, by simp [countingCrypto, hne], ?_⟩
  simp [countingCrypto, hperm.length_eq]

/-- Whatever primitives aggregate as they should, certificates assembled from valid signatures
verify: that is so iff the list, if it is one that is taken, names no index twice. -/
theorem assembled_verifies_iff (vertex : Vertex) (set : ValidatorSet)
    (contributors : List (Nat × BlsSig)) :
    (∀ cr, AggregatesAnyOrder cr → vertex.hash = contentHash cr vertex →
      (∀ c ∈ contributors, VoteAt cr set vertex c) →
        ∀ cv, assembleCert cr vertex set contributors = .ok cv →
          verifyCertifiedVertex cr cv set = .ok ()) ↔
      (Assembles set contributors → OncePerIndex contributors) := by
  constructor
  · intro hverifies htaken
    have hin : ∀ i ∈ contributors.map (·.1), i < set.entries.length := by
      intro i hi
      obtain ⟨c, hc, rfl⟩ := List.mem_map.mp hi
      exact htaken.inside c hc
    have hvotes : ∀ c ∈ contributors, VoteAt (countingCrypto vertex.hash) set vertex c := by
      intro c hc
      have hget := List.getElem?_eq_getElem (htaken.inside c hc)
      exact ⟨⟨(set.entries.get ⟨c.1, htaken.inside c hc⟩).blsPubkey.val⟩, by
        simp [keyAt, hget, countingCrypto], rfl⟩
    have hne : contributors ≠ [] := by
      intro hnil
      have hquorum := htaken.quorum
      rw [hnil] at hquorum
      exact absurd hquorum (Nat.not_succ_le_zero _)
    have hagg : (countingCrypto vertex.hash).aggregateSigs (contributors.map (·.2)) =
        some ⟨contributors.length⟩ := by
      simp [countingCrypto, hne]
    have hok := hverifies _ (countingCrypto_anyOrder vertex.hash) rfl hvotes _
      (assembleCert_ok htaken.members htaken.entries htaken.quorum htaken.inside hagg)
    obtain ⟨pks, hpks, hver⟩ := verified_keys hin hok
    have hcount : contributors.length = pks.length := of_decide_eq_true hver
    rw [hpks, List.card_toFinset, ← List.length_map (·.1)] at hcount
    have hself := (List.dedup_sublist (contributors.map (·.1))).eq_of_length hcount.symm
    exact List.dedup_eq_self.mp hself
  · intro hcond cr hany hhash hvotes cv hcv
    have htaken := assembles_of_ok hcv
    obtain ⟨cv', hcv', hver⟩ := certificate_of_distinct hany htaken.members hhash hvotes
      (hcond htaken) htaken.quorum
    cases hcv.symm.trans hcv'
    exact hver

section Devnet
open Devnet

/-- Three entries, all of the first validator. -/
theorem assembled_repeats :
    let v := sealHash openCrypto ⟨0, ⟨0⟩, [], [], Hash32.zero⟩
    let vote : Nat × BlsSig := (0, sigOf ⟨0⟩)
    AggregatesAnyOrder openCrypto ∧ v.hash = contentHash openCrypto v ∧
      VoteAt openCrypto validators v vote ∧
      ∃ cv, assembleCert openCrypto v validators [vote, vote, vote] = .ok cv ∧
        verifyCertifiedVertex openCrypto cv validators = .error (.insufficientSigners 1 3) := by
  refine ⟨aggregatesAnyOrder _, rfl, ⟨⟨0⟩, rfl, rfl⟩, _, rfl, ?_⟩
  decide

end Devnet
end LuaDag
