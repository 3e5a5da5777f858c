import LuaDag.MacroLock

/-! The two-chain rule over runs: what is finalized, in which order, and what is
justified. Votes write the rule as well as adoptions, so each result names the votes
it has to exclude. -/
namespace LuaDag
open MacroFin

namespace TwoChainRule

def entry (r : TwoChainRule) (cp : MacroCheckpoint) : MacroCheckpoint :=
  r.adopted[cp.height]?.getD cp

theorem adopt_get (r : TwoChainRule) (cp : MacroCheckpoint) (h : Height) :
    (r.adopt cp).adopted[h]? = if cp.height = h then some (r.entry cp) else r.adopted[h]? := by
  simp [adopt, entry]

theorem adopt_get_of_some {r : TwoChainRule} {cp a : MacroCheckpoint} {h : Height}
    (ha : r.adopted[h]? = some a) : (r.adopt cp).adopted[h]? = some a := by
  rw [adopt_get]
  split
  · rename_i heq
    rw [entry, heq, ha]
    rfl
  · exact ha

theorem adopt_finalizedHead (r : TwoChainRule) (cp : MacroCheckpoint) :
    (r.adopt cp).finalizedHead = r.finalizedHead := rfl

theorem adopt_head (r : TwoChainRule) (cp : MacroCheckpoint) :
    (r.adopt cp).justifiedHead =
      if (r.entry cp).hash = cp.hash then some cp.hash else r.justifiedHead := rfl

theorem headHeight_spec {r : TwoChainRule} {k : Height} (h : r.justifiedHeadHeight = some k) :
    ∃ head a, r.justifiedHead = some head ∧ r.adopted[k]? = some a ∧ a.hash = head ∧
      ∀ (j : Height) (b : MacroCheckpoint), r.adopted[j]? = some b → b.hash = head → j ≤ k := by
  unfold justifiedHeadHeight at h
  obtain ⟨head, hhead, hfind⟩ := Option.bind_eq_some_iff.mp h
  obtain ⟨⟨k', a⟩, hf, rfl⟩ := Option.map_eq_some_iff.mp hfind
  obtain ⟨hget, hp, hmax⟩ := Maps.find_reverse_spec r.adopted _ k' a hf
  refine ⟨head, a, hhead, hget, by simpa using hp, ?_⟩
  intro j b hb hbh
  exact hmax j b hb (by simpa using hbh)

theorem headHeight_of_get {r : TwoChainRule} {j : Height} {a : MacroCheckpoint}
    (hhead : r.justifiedHead = some a.hash) (ha : r.adopted[j]? = some a) :
    ∃ k, r.justifiedHeadHeight = some k ∧ j ≤ k := by
  have hsome : (r.adopted.toList.reverse.find? (·.2.hash = a.hash)).isSome := by
    rw [List.find?_isSome]
    exact ⟨(j, a), List.mem_reverse.mpr ((Maps.mem_toList _ j a).mpr ha), by simp⟩
  obtain ⟨⟨k, b⟩, hf⟩ := Option.isSome_iff_exists.mp hsome
  refine ⟨k, ?_, (Maps.find_reverse_spec r.adopted _ k b hf).2.2 j a ha (by simp)⟩
  simp [justifiedHeadHeight, hhead, hf]

/-- Adopting at the greatest height never lowers the height of the head. -/
theorem headHeight_adopt {r : TwoChainRule} {cp : MacroCheckpoint} {k : Height}
    (hkeys : ∀ (h : Height) (a : MacroCheckpoint), r.adopted[h]? = some a → h ≤ cp.height)
    (hk : r.justifiedHeadHeight = some k) :
    ∃ k', (r.adopt cp).justifiedHeadHeight = some k' ∧ k ≤ k' := by
  obtain ⟨head, a, hhead, ha, hah, -⟩ := headHeight_spec hk
  by_cases hentry : (r.entry cp).hash = cp.hash
  · have hget : (r.adopt cp).adopted[cp.height]? = some (r.entry cp) := by
      rw [adopt_get, if_pos rfl]
    obtain ⟨k', hk', hle⟩ := headHeight_of_get
      (by rw [adopt_head, if_pos hentry, hentry]) hget
    exact ⟨k', hk', Nat.le_trans (hkeys k a ha) hle⟩
  · exact headHeight_of_get (by rw [adopt_head, if_neg hentry, hhead, hah]) (adopt_get_of_some ha)

/-- After an adoption that takes the head, the head is at the greatest height. -/
theorem headHeight_adopt_self {r : TwoChainRule} {cp : MacroCheckpoint}
    (hkeys : ∀ (h : Height) (a : MacroCheckpoint), r.adopted[h]? = some a → h ≤ cp.height)
    (hentry : (r.entry cp).hash = cp.hash) :
    (r.adopt cp).justifiedHeadHeight = some cp.height := by
  have hget : (r.adopt cp).adopted[cp.height]? = some (r.entry cp) := by
    rw [adopt_get, if_pos rfl]
  obtain ⟨k, hk, hle⟩ := headHeight_of_get
    (by rw [adopt_head, if_pos hentry, hentry]) hget
  obtain ⟨-, a, -, ha, -, -⟩ := headHeight_spec hk
  have hub : k ≤ cp.height := by
    rw [adopt_get] at ha
    split at ha
    · rename_i heq
      exact heq.symm.le
    · exact hkeys k a ha
  rw [hk, Nat.le_antisymm hub hle]

theorem newlyFinalized_spec {r : TwoChainRule} {prev : Height}
    (h : r.newlyFinalizedHeight = some prev) :
    ∃ head cp, r.justifiedHeadHeight = some (prev + 1) ∧ r.adopted[prev + 1]? = some head ∧
      r.adopted[prev]? = some cp ∧ head.parent = cp.hash ∧ r.finalizedHead ≠ some cp.hash := by
  unfold newlyFinalizedHeight at h
  split at h
  · cases h
  · cases h
  · rename_i k hk
    split at h
    · rename_i head cp hhead hcp
      split at h
      · rename_i hcond
        cases h
        exact ⟨head, cp, hk, hhead, hcp, hcond.1, hcond.2⟩
      · cases h
    · cases h

theorem newlyFinalized_of {r : TwoChainRule} {prev : Height} {head cp : MacroCheckpoint}
    (hk : r.justifiedHeadHeight = some (prev + 1)) (hhead : r.adopted[prev + 1]? = some head)
    (hcp : r.adopted[prev]? = some cp) (hparent : head.parent = cp.hash)
    (hfin : r.finalizedHead ≠ some cp.hash) : r.newlyFinalizedHeight = some prev := by
  unfold newlyFinalizedHeight
  rw [hk]
  dsimp only
  rw [hhead, hcp]
  simp [hparent, hfin]

theorem settle_spec (r : TwoChainRule) :
    r.settle.adopted = r.adopted ∧ r.settle.justifiedHead = r.justifiedHead ∧
      ((r.newlyFinalizedHeight = none ∧ r.settle.finalizedHead = r.finalizedHead) ∨
        ∃ prev cp, r.newlyFinalizedHeight = some prev ∧ r.adopted[prev]? = some cp ∧
          r.settle.finalizedHead = some cp.hash) := by
  unfold settle
  split
  · rename_i hnone
    exact ⟨rfl, rfl, Or.inl ⟨hnone, rfl⟩⟩
  · rename_i prev hprev
    obtain ⟨-, cp, -, -, hcp, -, -⟩ := newlyFinalized_spec hprev
    unfold markFinalized
    rw [hcp]
    exact ⟨rfl, rfl, Or.inr ⟨prev, cp, hprev, hcp, rfl⟩⟩

theorem settle_headHeight (r : TwoChainRule) :
    r.settle.justifiedHeadHeight = r.justifiedHeadHeight := by
  obtain ⟨hadopted, hhead, -⟩ := r.settle_spec
  simp [justifiedHeadHeight, hadopted, hhead]

end TwoChainRule
end LuaDag
