import LuaDag.Quorum
import LuaDag.MacroFin
import LuaDag.WavePass

/-! The quorum threshold, derived anew by every layer, and how much two quorums share. -/
namespace LuaDag
open Bullshark MacroFin

def unionBitmap (set : ValidatorSet) (aggs : List SubnetAggregate) : List (BitVec 8) :=
  Bitmap.setAll (Bitmap.zeros set.entries.length) (coveredIndices set aggs)

/-- Among `n` validators every layer waits for `q`: certificates, waves, micro QCs, and macro QCs
of Mode 0 and of Mode A. -/
structure ComputedThreshold (n q : ℕ) : Prop where
  cert : quorumThreshold n = q
  wave : ∀ (cr : Crypto) (wave : WaveId) (cfg : Config) (set : ValidatorSet) (ctx : HostContext)
    (timedOut : Bool) (author : ValidatorId) (vs : List CertifiedVertex)
    (anchor : CertifiedVertex) (shortcut slow : Finset ValidatorId), set.entries.length = n →
    selectAnchor cr wave set ctx = .ok author →
    ctx.dag.verticesAtRound (firstRound wave) = .ok vs →
    vs.find? (fun v => decide (v.vertex.author = author)) = some anchor →
    countSupporters anchor.vertex.hash (firstRound wave) ctx cfg.bullshark.shortcutRoundCount =
      .ok shortcut →
    countSupporters anchor.vertex.hash (firstRound wave) ctx cfg.bullshark.slowPathRoundCount =
      .ok slow →
    ((∃ d, tryCommitWave cr wave cfg set ctx timedOut = .ok (some d)) ↔
      q ≤ shortcut.card ∨ timedOut = true ∧ q ≤ slow.card)
  micro : ∀ (hash : Hash32) (linearized : List CertifiedVertex) (ctx : HostContext)
    (set : ValidatorSet), activeSet ctx = .ok set → set.entries.length = n →
    ((∃ qc, microQcTryFinalize hash linearized ctx = .ok (some qc)) ↔
      q ≤ (linearized.map (·.vertex.author)).toFinset.card)
  mode0 : ∀ (cr : Crypto) (set : ValidatorSet) (partialSigs : PartialSigs) (target : Hash32)
    (signers : Finset ValidatorId), set.entries.length = n →
    ((tryFinalizeMode0 cr set partialSigs target signers).isSome ↔
      q ≤ signers.card ∧ (aggregateOf cr set partialSigs target signers).isSome)
  modeA : ∀ (cr : Crypto) (set : ValidatorSet) (partialSigs : PartialSigs) (target : Hash32)
    (aggs : List SubnetAggregate), set.entries.length = n →
    ((tryFinalizeModeA cr set partialSigs target aggs).isSome ↔
      q ≤ Bitmap.countOnes (unionBitmap set aggs) ∧
        ∃ sigs, ((listed set (unionBitmap set aggs)).mapM fun e =>
          partialSigs[toLex (target, e.id)]?) = some sigs ∧ (cr.aggregateSigs sigs).isSome)

section Layers
variable {n : ℕ}

theorem microQc_threshold (hn : 1 ≤ n) (hash : Hash32) (linearized : List CertifiedVertex)
    {ctx : HostContext} {set : ValidatorSet} (hset : activeSet ctx = .ok set)
    (hlen : set.entries.length = n) :
    (∃ qc, microQcTryFinalize hash linearized ctx = .ok (some qc)) ↔
      2 * ((n - 1) / 3) + 1 ≤ (linearized.map (·.vertex.author)).toFinset.card := by
  unfold microQcTryFinalize
  rw [hset]
  dsimp only
  rw [hlen, if_neg (by omega)]
  split
  · rename_i hlt
    exact iff_of_false (by simp) (not_le.mpr hlt)
  · rename_i hge
    exact iff_of_true ⟨_, rfl⟩ (not_lt.mp hge)

theorem mode0_threshold (hn : 1 ≤ n) (cr : Crypto) {set : ValidatorSet} (partialSigs : PartialSigs)
    (target : Hash32) (signers : Finset ValidatorId) (hlen : set.entries.length = n) :
    (tryFinalizeMode0 cr set partialSigs target signers).isSome ↔
      2 * ((n - 1) / 3) + 1 ≤ signers.card ∧
        (aggregateOf cr set partialSigs target signers).isSome := by
  unfold tryFinalizeMode0
  dsimp only
  rw [hlen, if_neg (by omega)]
  split
  · rename_i hlt
    simp [not_le.mpr hlt]
  · rename_i hge
    simp [not_lt.mp hge]

theorem modeA_threshold (hn : 1 ≤ n) (cr : Crypto) {set : ValidatorSet} (partialSigs : PartialSigs)
    (target : Hash32) (aggs : List SubnetAggregate) (hlen : set.entries.length = n) :
    (tryFinalizeModeA cr set partialSigs target aggs).isSome ↔
      2 * ((n - 1) / 3) + 1 ≤ Bitmap.countOnes (unionBitmap set aggs) ∧
        ∃ sigs, ((listed set (unionBitmap set aggs)).mapM fun e =>
          partialSigs[toLex (target, e.id)]?) = some sigs ∧ (cr.aggregateSigs sigs).isSome := by
  subst hlen
  unfold tryFinalizeModeA unionBitmap
  dsimp only
  rw [if_neg (by omega)]
  split
  · rename_i hlt
    simp [not_le.mpr hlt]
  rename_i hge
  split
  · rename_i hnone
    simp [hnone]
  · rename_i sigs hsigs
    simp [not_lt.mp hge, hsigs]

theorem computedThreshold (hn : 1 ≤ n) : ComputedThreshold n (2 * ((n - 1) / 3) + 1) := by
  refine ⟨rfl, ?_, ?_, ?_, ?_⟩
  · intro cr wave cfg set ctx timedOut author vs anchor shortcut slow hset hselect hvs hfind hshort
    rw [← hset]
    exact tryCommitWave_threshold timedOut hselect hvs hfind hshort
  · intro hash linearized ctx set hset hlen
    exact microQc_threshold hn hash linearized hset hlen
  · exact fun cr _ sigs target signers hlen => mode0_threshold hn cr sigs target signers hlen
  · exact fun cr _ sigs target aggs hlen => modeA_threshold hn cr sigs target aggs hlen

end Layers

/-- Of `n` validators, any two sets of the threshold's size share more than `⌊(n-1)/3⌋`. -/
def QuorumsIntersect (n : ℕ) : Prop :=
  ∃ q, ComputedThreshold n q ∧ q ≤ n ∧ ∀ validators : Finset ValidatorId,
    validators.card = n → Quorum.SharesMore validators q ((n - 1) / 3)

def firstIds (n : ℕ) : Finset ValidatorId :=
  (Finset.range n).map ⟨ValidatorId.mk, fun _ _ h => ValidatorId.mk.inj h⟩

theorem firstIds_card (n : ℕ) : (firstIds n).card = n := by
  rw [firstIds, Finset.card_map, Finset.card_range]

/-- Quorum intersection. The layers agree on their threshold, and two quorums have an honest
validator in common, exactly for the sizes `3f+1`. -/
theorem quorums_intersect_iff (n : ℕ) : QuorumsIntersect n ↔ n % 3 = 1 := by
  constructor
  · rintro ⟨q, hq, hle, hshares⟩
    have hcert : 2 * ((n - 1) / 3) + 1 = q := hq.cert
    have hroom := (Quorum.sharesMore_iff ((firstIds_card n).symm ▸ hle)).mp
      (hshares (firstIds n) (firstIds_card n))
    rw [firstIds_card] at hroom
    omega
  · intro hn
    refine ⟨_, computedThreshold (by omega), by omega, ?_⟩
    intro validators hcard
    rw [Quorum.sharesMore_iff (by omega)]
    omega

/-- Of five validators, three and three may share one, and that one may be faulty. -/
theorem quorums_intersect_fails : ¬ ∀ n, 1 ≤ n → QuorumsIntersect n := by
  intro h
  obtain ⟨q, hq, -, hshares⟩ := h 5 (by decide)
  cases (hq.cert : 3 = q)
  exact absurd (hshares (firstIds 5) (firstIds_card 5) {⟨0⟩, ⟨1⟩, ⟨2⟩} (by decide)
    {⟨2⟩, ⟨3⟩, ⟨4⟩} (by decide) (by decide) (by decide)) (by decide)

end LuaDag
