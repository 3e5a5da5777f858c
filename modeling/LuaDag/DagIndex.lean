import LuaDag.LiveDag
import LuaDag.Devnet

/-! The two indexes of the live DAG: one by hash, where a vertex is replaced, and one by round,
where it is appended. -/
namespace LuaDag

structure Ingestion where
  vertex : CertifiedVertex
  put : Except String Unit

namespace LiveDag

def ingestStored (d : LiveDag) (call : Ingestion) : Except Error Unit × LiveDag :=
  match call.put with
  | .error e => (.error (.persistence ("store certified vertex: " ++ e)), d)
  | .ok _ => (.ok (), d.ingest call.vertex)

def certifiedHashesInRange (d : LiveDag) (first last : Round) : List Hash32 :=
  if last < first then []
  else
    (List.range' first (last + 1 - first)).flatMap fun round =>
      match d.view.verticesAtRound round with
      | .ok batch => batch.map (·.vertex.hash)
      | .error _ => []

def after (calls : List Ingestion) : LiveDag :=
  calls.foldl (fun d call => (d.ingestStored call).2) {}

def ingested (calls : List Ingestion) : List CertifiedVertex :=
  (calls.filter fun call => call.put.isOk).map (·.vertex)

theorem after_eq (calls : List Ingestion) : after calls = of (ingested calls) := by
  induction calls using List.reverseRecOn with
  | nil => rfl
  | append_singleton calls call ih =>
    unfold after ingested at *
    rw [List.foldl_append, ih, List.filter_append, List.map_append]
    cases hput : call.put with
    | error e => simp [ingestStored, hput, Except.isOk, Except.toBool]
    | ok _ => simp [ingestStored, hput, Except.isOk, Except.toBool, of_append]

theorem verticesAtRound_of (vs : List CertifiedVertex) (r : Round) :
    (of vs).view.verticesAtRound r = .ok (vs.filter fun v => decide (v.vertex.round = r)) :=
  congrArg Except.ok (byRound_of vs r)

theorem certifiedHashesInRange_of (vs : List CertifiedVertex) (first last : Round) :
    (of vs).certifiedHashesInRange first last =
      (List.range' first (last + 1 - first)).flatMap fun r =>
        (vs.filter fun v => decide (v.vertex.round = r)).map (·.vertex.hash) := by
  unfold certifiedHashesInRange
  simp only [verticesAtRound_of]
  split
  · rename_i hlt
    rw [Nat.sub_eq_zero_of_le hlt]
    rfl
  · rfl

end LiveDag

/-- The indexes agree, and hold each of the vertices once. -/
structure IndexCoherent (vs : List CertifiedVertex) (d : LiveDag) : Prop where
  once : ∀ v ∈ vs, ∃ listed, d.view.verticesAtRound v.vertex.round = .ok listed ∧
    listed.countP (fun w => decide (w.vertex = v.vertex)) = 1
  found : ∀ r listed, d.view.verticesAtRound r = .ok listed → ∀ w,
    w ∈ listed ↔ w.vertex.round = r ∧ d.view.vertex w.vertex.hash = .ok (some w)
  ranges : ∀ first last, (d.certifiedHashesInRange first last).Nodup

section Coherence
open LiveDag
variable {vs : List CertifiedVertex}

/-- A vertex is found by its hash if no other has been ingested under it. -/
theorem byHash_iff (hnodup : (vs.map (·.vertex.hash)).Nodup) {h : Hash32} {w : CertifiedVertex} :
    (of vs).byHash[h]? = some w ↔ w ∈ vs ∧ w.vertex.hash = h := by
  refine ⟨byHash_some, ?_⟩
  rintro ⟨hw, rfl⟩
  obtain ⟨v, hv⟩ := byHash_of_mem hw
  obtain ⟨hmem, hhash⟩ := byHash_some hv
  rwa [List.inj_on_of_nodup_map hnodup hmem hw hhash] at hv

def copiesOf (v : CertifiedVertex) (vs : List CertifiedVertex) : ℕ :=
  (vs.filter fun w => decide (w.vertex.round = v.vertex.round)).countP
    fun w => decide (w.vertex = v.vertex)

theorem count_le_copiesOf (v : CertifiedVertex) : vs.count v ≤ copiesOf v vs := by
  unfold copiesOf
  rw [List.countP_filter, List.count_eq_countP]
  refine List.countP_mono_left fun w _ hw => ?_
  rw [beq_iff_eq.mp hw]
  simp

theorem copiesOf_le_count (v : CertifiedVertex) :
    copiesOf v vs ≤ (vs.map (·.vertex.hash)).count v.vertex.hash := by
  unfold copiesOf
  rw [List.countP_filter, List.count_eq_countP, List.countP_map]
  refine List.countP_mono_left fun w _ hw => ?_
  simp only [Bool.and_eq_true, decide_eq_true_eq] at hw
  simp [hw.1]

theorem indexCoherent_of_nodup (hnodup : (vs.map (·.vertex.hash)).Nodup) :
    IndexCoherent vs (of vs) := by
  refine ⟨?_, ?_, ?_⟩
  · intro v hv
    refine ⟨_, verticesAtRound_of vs _, le_antisymm ?_ ?_⟩
    · exact (copiesOf_le_count v).trans (List.nodup_iff_count_le_one.mp hnodup _)
    · exact (List.one_le_count_iff.mpr hv).trans (count_le_copiesOf v)
  · intro r listed hl w
    rw [verticesAtRound_of] at hl
    cases hl
    have hview : (of vs).view.vertex w.vertex.hash = .ok (some w) ↔
        (of vs).byHash[w.vertex.hash]? = some w :=
      ⟨Except.ok.inj, congrArg Except.ok⟩
    rw [List.mem_filter, decide_eq_true_eq, hview, byHash_iff hnodup]
    tauto
  · intro first last
    rw [certifiedHashesInRange_of, List.nodup_flatMap]
    refine ⟨fun r _ => hnodup.sublist (List.filter_sublist.map _), ?_⟩
    refine (List.nodup_range').imp ?_
    intro r r' hne h hr hr'
    obtain ⟨v, hv, rfl⟩ := List.mem_map.mp hr
    obtain ⟨w, hw, hhash⟩ := List.mem_map.mp hr'
    obtain ⟨hmem, hround⟩ := List.mem_filter.mp hv
    obtain ⟨hmem', hround'⟩ := List.mem_filter.mp hw
    rw [List.inj_on_of_nodup_map hnodup hmem' hmem hhash] at hround'
    exact hne ((of_decide_eq_true hround).symm.trans (of_decide_eq_true hround'))

/-- Two entries with one hash: the second lookup is not the first entry, or they are one vertex,
which is then listed twice. -/
theorem nodup_of_indexCoherent (h : IndexCoherent vs (of vs)) :
    (vs.map (·.vertex.hash)).Nodup := by
  have hfound : ∀ v ∈ vs, (of vs).view.vertex v.vertex.hash = .ok (some v) := by
    intro v hv
    refine ((h.found _ _ (verticesAtRound_of vs v.vertex.round) v).mp ?_).2
    exact List.mem_filter.mpr ⟨hv, decide_eq_true rfl⟩
  have hnodup : vs.Nodup := by
    refine List.nodup_iff_count_le_one.mpr fun v => ?_
    by_cases hv : v ∈ vs
    · obtain ⟨listed, hl, hcount⟩ := h.once v hv
      rw [verticesAtRound_of] at hl
      cases hl
      exact (count_le_copiesOf v).trans hcount.le
    · rw [List.count_eq_zero_of_not_mem hv]
      exact Nat.zero_le 1
  refine List.Nodup.map_on ?_ hnodup
  intro v hv w hw hhash
  have hv' := hfound v hv
  rw [hhash, hfound w hw] at hv'
  exact (Option.some.inj (Except.ok.inj hv')).symm

end Coherence

/-- Index coherence. The indexes of the live DAG agree, with each vertex once, exactly as long
as no two of the calls that return `Ok` are for vertices with the same hash. -/
theorem index_coherent_iff (calls : List Ingestion) :
    IndexCoherent (LiveDag.ingested calls) (LiveDag.after calls) ↔
      ((LiveDag.ingested calls).map (·.vertex.hash)).Nodup := by
  rw [LiveDag.after_eq]
  exact ⟨nodup_of_indexCoherent, indexCoherent_of_nodup⟩

section Devnet
open Devnet

/-- A vertex that arrives twice is listed twice. -/
theorem redelivery_listed_twice : ¬ ∀ calls : List Ingestion,
    IndexCoherent (LiveDag.ingested calls) (LiveDag.after calls) := by
  intro h
  let call : Ingestion := ⟨vertexAt 5 2, .ok ()⟩
  obtain ⟨listed, hlisted, hcount⟩ := (h [call, call]).once (vertexAt 5 2) (by decide)
  have htwice : (LiveDag.after [call, call]).view.verticesAtRound 5 =
      .ok [vertexAt 5 2, vertexAt 5 2] := by decide
  cases hlisted.symm.trans htwice
  exact absurd hcount (by decide)

end Devnet
end LuaDag
