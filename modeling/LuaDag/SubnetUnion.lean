import LuaDag.MacroQuorum
import LuaDag.Devnet

/-! Finalizing by subnet counts the bits of a merged bitmap, finalizing flat counts ids. For
distinct ids both do the same. -/
namespace LuaDag
open MacroFin

def coveredIds (set : ValidatorSet) (aggs : List SubnetAggregate) : Finset ValidatorId :=
  (aggs.flatMap fun a => (listed set a.agg.bitmap).map (·.id)).toFinset

section Union
variable {set : ValidatorSet} {aggs : List SubnetAggregate}

theorem mem_coveredIndices (i : Nat) : i ∈ coveredIndices set aggs ↔
    i < set.entries.length ∧ ∃ a ∈ aggs, Bitmap.test a.agg.bitmap i = true := by
  simp only [coveredIndices, List.mem_flatMap, List.mem_filter, List.mem_range]
  constructor
  · intro h
    obtain ⟨a, ha, hi, ht⟩ := h
    exact ⟨hi, a, ha, ht⟩
  · intro h
    obtain ⟨hi, a, ha, ht⟩ := h
    exact ⟨a, ha, hi, ht⟩

theorem mem_coveredIds (v : ValidatorId) : v ∈ coveredIds set aggs ↔
    ∃ a ∈ aggs, ∃ e ∈ listed set a.agg.bitmap, e.id = v := by
  simp [coveredIds]

theorem mem_coveredIds_at (hids : (set.entries.map (·.id)).Nodup) {i : Nat} {e : ValidatorEntry}
    (he : set.entries[i]? = some e) :
    e.id ∈ coveredIds set aggs ↔ ∃ a ∈ aggs, Bitmap.test a.agg.bitmap i = true := by
  rw [mem_coveredIds]
  constructor
  · intro h
    obtain ⟨a, ha, e', he', hid⟩ := h
    obtain ⟨j, hj, ht⟩ := mem_listed.mp he'
    have hget : (set.entries.map (·.id))[i]? = (set.entries.map (·.id))[j]? := by
      simp [he, hj, hid]
    have hi : i < (set.entries.map (·.id)).length := by
      simpa using (List.getElem?_eq_some_iff.mp he).1
    rw [(List.getElem?_inj hi hids).mp hget]
    exact ⟨a, ha, ht⟩
  · intro h
    obtain ⟨a, ha, ht⟩ := h
    exact ⟨a, ha, e, mem_listed.mpr ⟨i, he, ht⟩, rfl⟩

theorem merged_eq (hids : (set.entries.map (·.id)).Nodup) :
    Bitmap.setAll (Bitmap.zeros set.entries.length) (coveredIndices set aggs) =
      Bitmap.setAll (Bitmap.zeros set.entries.length)
        (Bullshark.indicesWhere set.entries fun e => decide (e.id ∈ coveredIds set aggs)) := by
  refine Bitmap.setAll_zeros_congr _ (fun i hi => ((mem_coveredIndices i).mp hi).1) ?_
  intro i
  rw [mem_coveredIndices, Bullshark.indicesWhere, List.mem_filter, List.mem_range]
  by_cases hi : i < set.entries.length
  · have hget : set.entries[i]? = some (set.entries.get ⟨i, hi⟩) := List.getElem?_eq_getElem hi
    rw [hget, Option.any_some, decide_eq_true_iff, mem_coveredIds_at hids hget]
  · simp [hi]

theorem length_listed (bitmap : List (BitVec 8)) :
    (listed set bitmap).length = (Bitmap.members bitmap set.entries.length).card := by
  have hrange : set.entries.zipIdx.map (·.2) = List.range set.entries.length := by
    simp [List.range_eq_range']
  rw [Bitmap.card_members, ← hrange, List.filter_map, List.length_map, listed, List.length_map]
  rfl

theorem countOnes_merged (hids : (set.entries.map (·.id)).Nodup) :
    Bitmap.countOnes (Bitmap.setAll (Bitmap.zeros set.entries.length)
      (coveredIndices set aggs)) = (coveredIds set aggs).card := by
  rw [Bitmap.countOnes_eq_card _ set.entries.length, ← length_listed, merged_eq hids,
    listed_indicesWhere, ← List.length_map (·.id), ← List.toFinset_card_of_nodup]
  · congr 1
    ext v
    rw [List.mem_toFinset, List.mem_map]
    constructor
    · intro h
      obtain ⟨e, he, hv⟩ := h
      rw [← hv]
      simpa using (List.mem_filter.mp he).2
    · intro h
      obtain ⟨a, ha, e, he, hv⟩ := (mem_coveredIds v).mp h
      obtain ⟨i, hi, -⟩ := mem_listed.mp he
      refine ⟨e, List.mem_filter.mpr ⟨List.mem_of_getElem? hi, ?_⟩, hv⟩
      rw [hv]
      exact decide_eq_true h
  · exact hids.sublist (List.filter_sublist.map _)
  · rw [Bitmap.setAll_length, Bitmap.zeros_length]
    omega
  · intro i hi
    rw [Bitmap.test_setAll_zeros _ i _ fun j hj => ((mem_coveredIndices j).mp hj).1]
    simp [mem_coveredIndices, Nat.not_lt_of_le hi]

end Union

theorem tryFinalizeModeA_perm (cr : Crypto) (set : ValidatorSet) (sigs : PartialSigs)
    (target : Hash32) {aggs aggs' : List SubnetAggregate} (hperm : aggs.Perm aggs') :
    tryFinalizeModeA cr set sigs target aggs = tryFinalizeModeA cr set sigs target aggs' := by
  have hmerged : Bitmap.setAll (Bitmap.zeros set.entries.length) (coveredIndices set aggs) =
      Bitmap.setAll (Bitmap.zeros set.entries.length) (coveredIndices set aggs') := by
    refine Bitmap.setAll_zeros_congr _ (fun i hi => ((mem_coveredIndices i).mp hi).1) ?_
    intro i
    simp only [mem_coveredIndices, hperm.mem_iff]
  unfold tryFinalizeModeA
  dsimp only
  rw [hmerged]

/-- Mode A is Mode 0 on the ids whose bit is set in at least one aggregate, in whatever order the
aggregates come. -/
theorem mode_a_eq_mode0 (cr : Crypto) (set : ValidatorSet)
    (hids : (set.entries.map (·.id)).Nodup) (sigs : PartialSigs) (target : Hash32)
    (aggs : List SubnetAggregate) :
    (tryFinalizeModeA cr set sigs target aggs =
      (tryFinalizeMode0 cr set sigs target (coveredIds set aggs)).map fun qc =>
        { qc with mode := .modeASubnet }) ∧
      ∀ aggs', aggs.Perm aggs' →
        tryFinalizeModeA cr set sigs target aggs' = tryFinalizeModeA cr set sigs target aggs := by
  refine ⟨?_, fun aggs' hperm => (tryFinalizeModeA_perm cr set sigs target hperm).symm⟩
  unfold tryFinalizeModeA tryFinalizeMode0 aggregateOf
  dsimp only
  rw [countOnes_merged hids, merged_eq hids, listed_indicesWhere]
  split
  · rfl
  · split
    · rfl
    · cases (set.entries.filter fun e => decide (e.id ∈ coveredIds set aggs)).mapM
          fun e => sigs[toLex (target, e.id)]? with
      | none => rfl
      | some ss =>
        dsimp only
        cases cr.aggregateSigs ss <;> rfl

section Devnet
open Devnet

/-- An aggregate over members 0 and 1, one over 1 and 2 whose buffer runs past the set, and one
without a buffer. -/
def overlapping (x : Hash32) : List SubnetAggregate :=
  [⟨0, x, ⟨⟨0⟩, [3#8]⟩⟩, ⟨1, x, ⟨⟨0⟩, [6#8, 255#8]⟩⟩, ⟨2, x, ⟨⟨0⟩, []⟩⟩]

def partialSigsOn (signers : List Nat) (x : Hash32) : PartialSigs :=
  signers.foldl (fun m i => m.insert (toLex (x, ⟨i⟩)) (sigOf ⟨i⟩)) ∅

theorem mode_a_eq_mode0_overlapping :
    tryFinalizeModeA openCrypto validators (partialSigsOn [0, 1, 2] ⟨7⟩) ⟨7⟩ (overlapping ⟨7⟩) =
      (tryFinalizeMode0 openCrypto validators (partialSigsOn [0, 1, 2] ⟨7⟩) ⟨7⟩
        {⟨0⟩, ⟨1⟩, ⟨2⟩}).map fun qc => { qc with mode := .modeASubnet } := by
  have hcovered : coveredIds validators (overlapping ⟨7⟩) = {⟨0⟩, ⟨1⟩, ⟨2⟩} := by
    decide
  rw [← hcovered]
  exact (mode_a_eq_mode0 openCrypto validators (by decide) _ _ _).1

end Devnet
end LuaDag
