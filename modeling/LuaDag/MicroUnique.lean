import LuaDag.Publication
import LuaDag.MacroQuorum

/-! Micro QCs of two nodes for one checkpoint. The checkpoint hash covers every hash of a
linearization, the bitmap the authors of those vertices among them that the view holds. -/
namespace LuaDag
open Bullshark MacroFin

def microQcOver (cr : Crypto) (set : ValidatorSet) (order : List Hash32)
    (authors : Finset ValidatorId) : MicroQc :=
  ⟨checkpointHashFromLinearization cr order, repeatedSig 0xAB,
    Bitmap.setAll (Bitmap.zeros set.entries.length)
      (indicesWhere set.entries fun e => decide (e.id ∈ authors))⟩

/-- The call publishes `order`, the linearization of the anchor `a`. -/
def NodeCall.publishes (cr : Crypto) (call : NodeCall) (a : Hash32) (order : List Hash32) : Prop :=
  (∃ w, Linearizes cr call w a order) ∧
    checkpointHashFromLinearization cr order ∈ (call.microQcs cr).map (·.checkpointHash)

/-- The views of the two calls hold vertices of the same members in the causal past of `a`. -/
def SameMembers (set : ValidatorSet) (c d : NodeCall) (a : Hash32) : Prop :=
  ∀ e ∈ set.entries, (e.id ∈ c.ctx.dag.pastAuthors a ↔ e.id ∈ d.ctx.dag.pastAuthors a)

section Qcs
variable {cr : Crypto} {set : ValidatorSet}

theorem microQcOver_inj {order : List Hash32} {authors authors' : Finset ValidatorId} :
    microQcOver cr set order authors = microQcOver cr set order authors' ↔
      ∀ e ∈ set.entries, (e.id ∈ authors ↔ e.id ∈ authors') := by
  constructor
  · intro heq e he
    have hbits := congrArg (fun q : MicroQc => listed set q.agg.bitmap) heq
    simp only [microQcOver, listed_indicesWhere] at hbits
    have hmem : ∀ S : Finset ValidatorId,
        e ∈ set.entries.filter (fun e => decide (e.id ∈ S)) ↔ e.id ∈ S := by
      intro S
      simp [he]
    rw [← hmem authors, ← hmem authors', hbits]
  · intro hsame
    have hwhere : indicesWhere set.entries (fun e => decide (e.id ∈ authors)) =
        indicesWhere set.entries fun e => decide (e.id ∈ authors') := by
      unfold indicesWhere
      refine List.filter_congr ?_
      intro i hi
      have hlt : i < set.entries.length := List.mem_range.mp hi
      simp [hlt, hsame _ (List.getElem_mem hlt)]
    simp only [microQcOver, hwhere]

theorem mem_lookupAll {dag : DagView} {hs : List Hash32} {vs : List CertifiedVertex}
    (h : lookupAll dag hs = .ok vs) (v : CertifiedVertex) :
    v ∈ vs ↔ ∃ x ∈ hs, dag.vertex x = .ok (some v) := by
  induction hs generalizing vs with
  | nil =>
    cases h
    simp
  | cons x hs ih =>
    unfold lookupAll at h
    cases hx : dag.vertex x with
    | error e => simp [hx] at h
    | ok o =>
      rw [hx] at h
      cases hrest : lookupAll dag hs with
      | error e => simp [hrest, Except.map] at h
      | ok us =>
        simp only [hrest, Except.map, Except.ok.injEq] at h
        rw [← h, List.mem_append, Option.mem_toList, ih hrest]
        simp [hx]

/-- What a commit yields is made of its linearization and of the authors that the view holds
in the past of the anchor. -/
theorem freshQc_over {a : Hash32} {ctx : HostContext} {emitted : Finset Hash32} {q : MicroQc}
    (h : freshQc cr a ctx emitted = .ok (some q)) :
    ∃ set order authors, activeSet ctx = .ok set ∧ closureOfAnchor a ctx = .ok order ∧
      q = microQcOver cr set order authors ∧ ∀ i, i ∈ authors ↔ i ∈ ctx.dag.pastAuthors a := by
  unfold freshQc at h
  cases horder : closureOfAnchor a ctx with
  | error e => simp [horder] at h
  | ok order =>
    rw [horder] at h
    dsimp only at h
    split at h
    · cases h
    cases hlook : lookupAll ctx.dag order with
    | error e => simp [hlook] at h
    | ok vs =>
      rw [hlook] at h
      dsimp only at h
      unfold microQcTryFinalize at h
      cases hset : activeSet ctx with
      | error e => simp [hset] at h
      | ok set =>
        rw [hset] at h
        dsimp only at h
        split at h
        · cases h
        split at h
        · cases h
        cases h
        refine ⟨set, order, (vs.map (·.vertex.author)).toFinset, rfl, rfl, ?_, ?_⟩
        · simp only [microQcOver]
        intro i
        simp only [List.mem_toFinset, List.mem_map, mem_lookupAll hlook, DagView.pastAuthors,
          Set.mem_ofPred_eq, mem_closureOfAnchor horder]
        constructor
        · rintro ⟨v, ⟨x, hr, hv⟩, hi⟩
          exact ⟨x, v, hr, hv, hi⟩
        · rintro ⟨x, v, hr, hv, hi⟩
          exact ⟨v, ⟨x, hr, hv⟩, hi⟩

theorem microQc_source {call : NodeCall} {q : MicroQc} (hq : q ∈ call.microQcs cr) :
    ∃ w a order authors set, Linearizes cr call w a order ∧ activeSet call.ctx = .ok set ∧
      q = microQcOver cr set order authors ∧
        ∀ i, i ∈ authors ↔ i ∈ call.ctx.dag.pastAuthors a := by
  obtain ⟨act, hact, hqc⟩ := List.mem_filterMap.mp hq
  have hsent : act = .broadcastMicroQc q := by
    cases act <;> simp_all [microQcOf]
  subst hsent
  obtain ⟨acts, hpath, hacts⟩ := (exec_waves cr call).actions
  have hkept := hpath.invariant (P := fun _ acts d => call.pre.waves.committedWaves ⊆ d.committed ∧
      ∀ q, Action.broadcastMicroQc q ∈ acts → ∃ w a emitted, call.commits cr w a ∧
        w ∈ d.committed ∧ freshQc cr a call.ctx emitted = .ok (some q))
    (R := fun _ => True) ?_ (fun _ _ => trivial) [] []
    ⟨Finset.Subset.refl _, by simp⟩
  · obtain ⟨w, a, emitted, hcommits, hin, hfresh⟩ := hkept.2 q (by simpa using hacts _ hact)
    obtain ⟨set, order, authors, hset, horder, heq, hauthors⟩ := freshQc_over hfresh
    exact ⟨w, a, order, authors, set, ⟨hcommits, hin, horder⟩, hset, heq, hauthors⟩
  rintro _ acts c _ acts' d - hmove ⟨hsub, hold⟩
  cases hmove with
  | other _ hnone =>
    refine ⟨hsub, ?_⟩
    intro q hq
    cases List.mem_append.mp hq with
    | inl hl => exact hold q hl
    | inr hr => cases hnone _ hr
  | own hstep =>
    cases hstep with
    | idle _ hnone =>
      refine ⟨hsub, ?_⟩
      intro q hq
      cases List.mem_append.mp hq with
      | inl hl => exact hold q hl
      | inr hr => cases hnone _ hr
    | stuck w t a e _ hnew htried hcan hnone hqc =>
      refine ⟨hsub.trans (Finset.subset_insert w _), ?_⟩
      intro q hq
      cases List.mem_append.mp hq with
      | inl hl =>
        obtain ⟨w', a', emitted, hcommits, hin, hfresh⟩ := hold q hl
        exact ⟨w', a', emitted, hcommits, Finset.mem_insert_of_mem hin, hfresh⟩
      | inr hr => cases hnone _ hr
    | commit w t a qc acts'' hnew htried hcan hnone hqc =>
      refine ⟨hsub.trans (Finset.subset_insert w _), ?_⟩
      intro q hq
      cases List.mem_append.mp hq with
      | inl hl =>
        obtain ⟨w', a', emitted, hcommits, hin, hfresh⟩ := hold q hl
        exact ⟨w', a', emitted, hcommits, Finset.mem_insert_of_mem hin, hfresh⟩
      | inr hr =>
        cases List.mem_append.mp hr with
        | inl hother => cases hnone _ hother
        | inr hown =>
          cases qc with
          | none => simp at hown
          | some q' =>
            have heq : q = q' := by simpa using hown
            subst heq
            exact ⟨w, a, _, ⟨fun hpre => hnew (hsub hpre), t, htried, hcan⟩,
              Finset.mem_insert_self w _, hqc⟩

theorem publishes_of_microQc (hinj : CheckpointsInjective cr) {call : NodeCall} {q : MicroQc}
    (hset : ∀ s, activeSet call.ctx = .ok s → s = set) (hq : q ∈ call.microQcs cr) :
    ∃ a order authors, call.publishes cr a order ∧ q = microQcOver cr set order authors ∧
      (∀ i, i ∈ authors ↔ i ∈ call.ctx.dag.pastAuthors a) ∧
      ∀ a' order', call.publishes cr a' order' →
        q.checkpointHash = checkpointHashFromLinearization cr order' → a' = a ∧ order' = order := by
  obtain ⟨w, a, order, authors, s, hlin, hs, heq, hauthors⟩ := microQc_source hq
  cases hset s hs
  have hhash : q.checkpointHash = checkpointHashFromLinearization cr order := by rw [heq]; rfl
  refine ⟨a, order, authors, ⟨⟨w, hlin⟩, ?_⟩, heq, hauthors, ?_⟩
  · rw [← hhash]
    exact List.mem_map_of_mem hq
  · rintro a' order' ⟨⟨w', hlin'⟩, -⟩ hhash'
    obtain rfl := hinj _ _ (hhash'.symm.trans hhash)
    have hhead := closureOfAnchor_head hlin'.closure
    rw [closureOfAnchor_head hlin.closure] at hhead
    exact ⟨(Option.some.inj hhead).symm, rfl⟩

theorem microQcs_agree (hinj : CheckpointsInjective cr) {c d : NodeCall}
    (hc : ∀ s, activeSet c.ctx = .ok s → s = set) (hd : ∀ s, activeSet d.ctx = .ok s → s = set) :
    (∀ q ∈ c.microQcs cr, ∀ q' ∈ d.microQcs cr, q.checkpointHash = q'.checkpointHash → q = q') ↔
      ∀ a order, c.publishes cr a order → d.publishes cr a order → SameMembers set c d a := by
  constructor
  · intro hsame a order hpc hpd e he
    obtain ⟨q, hq, hhash⟩ := List.mem_map.mp hpc.2
    obtain ⟨q', hq', hhash'⟩ := List.mem_map.mp hpd.2
    obtain ⟨x, o, S, -, heq, hS, hone⟩ := publishes_of_microQc hinj hc hq
    obtain ⟨x', o', S', -, heq', hS', hone'⟩ := publishes_of_microQc hinj hd hq'
    obtain ⟨rfl, rfl⟩ := hone a order hpc hhash
    obtain ⟨rfl, rfl⟩ := hone' a order hpd hhash'
    have hqq := hsame q hq q' hq' (hhash.trans hhash'.symm)
    rw [heq, heq'] at hqq
    rw [← hS e.id, ← hS' e.id]
    exact microQcOver_inj.mp hqq e he
  · intro hcond q hq q' hq' hhash
    obtain ⟨a, order, S, hpc, heq, hS, -⟩ := publishes_of_microQc hinj hc hq
    obtain ⟨a', order', S', hpd, heq', hS', hone'⟩ := publishes_of_microQc hinj hd hq'
    have horder : order = order' := by
      refine hinj _ _ ?_
      have h : checkpointHashFromLinearization cr order = q.checkpointHash := by rw [heq]; rfl
      rw [h, hhash, heq']
      rfl
    subst horder
    obtain ⟨⟨w, hlin⟩, -⟩ := hpc
    obtain ⟨⟨w', hlin'⟩, -⟩ := id hpd
    have hhead := closureOfAnchor_head hlin'.closure
    rw [closureOfAnchor_head hlin.closure] at hhead
    cases hhead
    rw [heq, heq']
    refine microQcOver_inj.mpr ?_
    intro e he
    rw [hS, hS']
    exact hcond a order ⟨⟨w, hlin⟩, by
      have h : checkpointHashFromLinearization cr order = q.checkpointHash := by rw [heq]; rfl
      rw [h]
      exact List.mem_map_of_mem hq⟩ hpd e he

end Qcs

/-- Micro QC uniqueness. In runs of two nodes under one validator set, micro QCs for one
checkpoint are identical if and only if views from which one linearization is published hold
vertices of the same members in it. -/
theorem micro_qcs_identical_iff (cr : Crypto) (hinj : CheckpointsInjective cr) (cfg : Config)
    (u v : ValidatorId) (set : ValidatorSet) (is js : List StateMachine.Input)
    (hset : ∀ i ∈ is ++ js, ∀ s, activeSet i.2 = .ok s → s = set) :
    (∀ q ∈ (StateMachine.actions cr cfg u is).filterMap microQcOf,
      ∀ q' ∈ (StateMachine.actions cr cfg v js).filterMap microQcOf,
        q.checkpointHash = q'.checkpointHash → q = q') ↔
    ∀ c ∈ StateMachine.run cr cfg u is, ∀ d ∈ StateMachine.run cr cfg v js, ∀ a order,
      NodeCall.publishes cr c a order → NodeCall.publishes cr d a order →
        SameMembers set c d a := by
  have hsplit : ∀ (w : ValidatorId) (ks : List StateMachine.Input) (q : MicroQc),
      q ∈ (StateMachine.actions cr cfg w ks).filterMap microQcOf ↔
        ∃ c ∈ StateMachine.run cr cfg w ks, q ∈ NodeCall.microQcs cr c := by
    intro w ks q
    simp only [StateMachine.actions, Trace.emitted, List.mem_filterMap, List.mem_flatMap,
      NodeCall.microQcs]
    constructor
    · rintro ⟨act, ⟨c, hc, hact⟩, hq⟩
      exact ⟨c, hc, act, hact, hq⟩
    · rintro ⟨c, hc, act, hact, hq⟩
      exact ⟨act, ⟨c, hc, hact⟩, hq⟩
  have hcalls : ∀ c ∈ StateMachine.run cr cfg u is, ∀ d ∈ StateMachine.run cr cfg v js,
      (∀ q ∈ NodeCall.microQcs cr c, ∀ q' ∈ NodeCall.microQcs cr d,
        q.checkpointHash = q'.checkpointHash → q = q') ↔
      ∀ a order, NodeCall.publishes cr c a order → NodeCall.publishes cr d a order →
        SameMembers set c d a := by
    intro c hc d hd
    exact microQcs_agree hinj (hset _ (List.mem_append_left _ (run_input hc)))
      (hset _ (List.mem_append_right _ (run_input hd)))
  constructor
  · intro hsame c hc d hd
    refine (hcalls c hc d hd).mp ?_
    intro q hq q' hq'
    exact hsame q ((hsplit u is q).mpr ⟨c, hc, hq⟩) q' ((hsplit v js q').mpr ⟨d, hd, hq'⟩)
  · intro hcond q hq q' hq'
    obtain ⟨c, hc, hqc⟩ := (hsplit u is q).mp hq
    obtain ⟨d, hd, hqd⟩ := (hsplit v js q').mp hq'
    exact (hcalls c hc d hd).mpr (hcond c hc d hd) q hqc q' hqd

section Devnet
open Devnet

def extraVertex : CertifiedVertex :=
  ⟨⟨3, ⟨3⟩, (List.range 3).map (vertexHash 2), [], vertexHash 3 3⟩, ⟨⟨6⟩, [7#8]⟩⟩

def wideAnchor : CertifiedVertex :=
  ⟨⟨4, ⟨0⟩, (List.range 4).map (vertexHash 3), [], vertexHash 4 0⟩, ⟨⟨6⟩, [7#8]⟩⟩

def narrowDag : List CertifiedVertex :=
  verticesUpTo 3 ++ [wideAnchor, vertexAt 4 1, vertexAt 4 2, vertexAt 5 0, vertexAt 5 1,
    vertexAt 5 2]

def viewRun (i : Nat) (vs : List CertifiedVertex) : List StateMachine.Input :=
  [(.genesis, (ports i 5).holding vs),
    (.event (.certifiedVertexReceived (vertexAt 5 2)), (ports i 5).holding vs)]

theorem viewRun_set (vs ws : List CertifiedVertex) :
    ∀ i ∈ viewRun 2 vs ++ viewRun 3 ws, ∀ s, activeSet i.2 = .ok s → s = validators := by
  intro i hi s hs
  simp only [viewRun, List.cons_append, List.nil_append, List.mem_cons, List.not_mem_nil,
    or_false] at hi
  obtain rfl | rfl | rfl | rfl := hi <;> exact (Except.ok.inj hs).symm

theorem same_members_without_vertex :
    vertexAt 3 2 ∈ narrowDag ∧ ∀ c ∈ StateMachine.run orderCrypto config ⟨2⟩ (viewRun 2 narrowDag),
      ∀ d ∈ StateMachine.run orderCrypto config ⟨3⟩
        (viewRun 3 (narrowDag.filter (· ≠ vertexAt 3 2))), ∀ a order,
      NodeCall.publishes orderCrypto c a order → NodeCall.publishes orderCrypto d a order →
        SameMembers validators c d a :=
  ⟨by decide, (micro_qcs_identical_iff orderCrypto checkpointsInjective config ⟨2⟩ ⟨3⟩ validators
    _ _ (viewRun_set _ _)).mp (by decide)⟩

/-- Node 3 misses the vertex of validator 3, whose parents have all been visited. -/
theorem micro_qcs_differ :
    Coherent (extraVertex :: narrowDag) ∧ narrowDag ⊆ extraVertex :: narrowDag ∧
    ∃ q ∈ (StateMachine.actions orderCrypto config ⟨2⟩
        (viewRun 2 (extraVertex :: narrowDag))).filterMap microQcOf,
      ∃ q' ∈ (StateMachine.actions orderCrypto config ⟨3⟩
          (viewRun 3 narrowDag)).filterMap microQcOf,
        q.checkpointHash = q'.checkpointHash ∧ q.agg.bitmap = [15#8] ∧ q'.agg.bitmap = [7#8] := by
  refine ⟨⟨by decide, by decide, by decide⟩, List.subset_cons_self _ _, ?_⟩
  decide

end Devnet
end LuaDag
