import LuaDag.SearchLayers
import LuaDag.DagIndex

/-! The order in which an anchor's causal past is linearized: every hash of it once, the nearer
ones first. Within one distance the order is that of the vertices which name the hashes. -/
namespace LuaDag
open Bullshark

/-- The view finds vertices under the hashes of `known` only, and its lookups return. Parents may
be missing, repeated or cyclic. -/
structure DagView.FindsWithin (dag : DagView) (known : Finset Hash32) : Prop where
  returns : ∀ h, ∃ v, dag.vertex h = .ok v
  known : ∀ h v, dag.vertex h = .ok (some v) → h ∈ known

noncomputable def DagView.dist (dag : DagView) : Hash32 → Hash32 → ℕ := Search.dist dag.parents

/-- Hashes at one distance from `a` appear in ascending order. -/
def LayersAscending (dag : DagView) (a : Hash32) (order : List Hash32) : Prop :=
  order.Pairwise fun x y => dag.dist a x = dag.dist a y → x < y

/-- Of two hashes at one distance from `a`, the smaller one is named by a vertex of the layer
before with no greater hash than any that names the other. -/
def NamedInOrder (dag : DagView) (a : Hash32) : Prop := Search.LeastFirst dag.parents a

theorem LiveDag.view_findsWithin (vs : List CertifiedVertex) :
    (of vs).view.FindsWithin (vs.map (·.vertex.hash)).toFinset := by
  constructor
  · exact (view_total _).vertex
  · intro h v hv
    have hmem := byHash_some (Except.ok.inj hv)
    exact List.mem_toFinset.mpr (List.mem_map.mpr ⟨v, hmem.1, hmem.2⟩)

section View
variable {dag : DagView}

theorem DagView.mem_sortedParents (a b : Hash32) : b ∈ dag.sortedParents a ↔ b ∈ dag.parents a := by
  simp [DagView.sortedParents]

theorem DagView.dist_sorted (a b : Hash32) : Search.dist dag.sortedParents a b = dag.dist a b :=
  Search.dist_congr dag.mem_sortedParents a b

theorem dist_of_layer {a b : Hash32} {d : ℕ} (h : b ∈ Search.layer dag.sortedParents a d) :
    dag.dist a b = d := by
  rw [← dag.dist_sorted]
  exact ((Search.mem_layer d b).mp h).2

theorem namedInOrder_iff (a : Hash32) :
    Search.LeastFirst dag.sortedParents a ↔ NamedInOrder dag a := by
  have hdist := fun b => dag.dist_sorted a b
  have hreach := fun b => @DagView.reach_sorted dag a b
  simp only [NamedInOrder, Search.LeastFirst, hdist, hreach, dag.mem_sortedParents]
  rfl

/-- Only known hashes and their parents are reached, besides the start. -/
theorem DagView.FindsWithin.reached {known : Finset Hash32} (hdag : dag.FindsWithin known)
    (a : Hash32) : ∃ S : Finset Hash32, ∀ b, Search.Reach dag.sortedParents a b → b ∈ S := by
  refine ⟨insert a (known.biUnion fun h => (dag.parents h).toFinset), ?_⟩
  intro b hb
  cases hb with
  | refl => simp
  | @tail c _ _ hstep =>
    have hparent := (dag.mem_sortedParents c b).mp hstep
    have hknown : c ∈ known := by
      unfold DagView.parents at hparent
      split at hparent
      · rename_i v hv
        exact hdag.known c v hv
      · simp at hparent
    have hin : b ∈ known.biUnion fun h => (dag.parents h).toFinset :=
      Finset.mem_biUnion.mpr ⟨c, hknown, List.mem_toFinset.mpr hparent⟩
    exact Finset.mem_insert_of_mem hin

/-- The linearization is all layers of the breadth-first walk, one after the other. -/
theorem closureOfAnchor_layers {known : Finset Hash32} (hdag : dag.FindsWithin known)
    (a : Hash32) : ∃ d, (∀ i, d ≤ i → Search.layer dag.sortedParents a i = []) ∧
      ∀ ctx : HostContext, ctx.dag = dag →
        (Search.layersBelow dag.sortedParents a d).length ≤ ctx.fuel →
          closureOfAnchor a ctx = .ok (Search.layersBelow dag.sortedParents a d) := by
  obtain ⟨S, hS⟩ := hdag.reached a
  obtain ⟨d, hempty, hwalk⟩ := Search.walk_closed hS
  refine ⟨d, hempty, ?_⟩
  intro ctx hctx hfuel
  subst hctx
  exact closureLoop_of_walk hdag.returns (hwalk ctx.fuel hfuel)

theorem closureOfAnchor_unique {a : Hash32} {ctx ctx' : HostContext} {o o' : List Hash32}
    (hdag : ctx.dag = ctx'.dag) (h : closureOfAnchor a ctx = .ok o)
    (h' : closureOfAnchor a ctx' = .ok o') : o = o' := by
  unfold closureOfAnchor at h h'
  rw [← hdag] at h'
  exact Search.walk_agree (fun _ _ _ _ => rfl) (walk_of_closureLoop h) (walk_of_closureLoop h')

theorem mem_closed {a : Hash32} {d : ℕ}
    (hempty : ∀ i, d ≤ i → Search.layer dag.sortedParents a i = []) (b : Hash32) :
    b ∈ Search.layersBelow dag.sortedParents a d ↔ dag.Reaches a b := by
  rw [Search.mem_layersBelow, dag.reach_sorted]
  constructor
  · exact fun h => h.1
  · intro h
    refine ⟨h, ?_⟩
    by_contra hge
    have hlayer := (Search.mem_layer (Search.dist dag.sortedParents a b) b).mpr
      ⟨dag.reach_sorted.mpr h, rfl⟩
    rw [hempty _ (not_lt.mp hge)] at hlayer
    simp at hlayer

theorem head_layersBelow (next : Hash32 → List Hash32) (a : Hash32) {d : ℕ} (hd : d ≠ 0) :
    (Search.layersBelow next a d).head? = some a := by
  cases d with
  | zero => exact absurd rfl hd
  | succ d => simp [Search.layersBelow, List.range_succ_eq_map, Search.layer, Search.front]

end View

/-- The closure is exact. Over any finite view the linearization of an anchor ends, after as many
turns as there are hashes to visit; it names every hash that can be reached by parent edges once,
the anchor first, and the nearer ones before those further away. -/
theorem closure_exact (dag : DagView) (known : Finset Hash32) (hdag : dag.FindsWithin known)
    (a : Hash32) :
    ∃ order, (∀ ctx : HostContext, ctx.dag = dag → order.length ≤ ctx.fuel →
        closureOfAnchor a ctx = .ok order) ∧
      order.Nodup ∧ order.head? = some a ∧ (∀ b, b ∈ order ↔ dag.Reaches a b) ∧
      order.Pairwise fun x y => dag.dist a x ≤ dag.dist a y := by
  obtain ⟨d, hempty, hreturns⟩ := closureOfAnchor_layers hdag a
  refine ⟨_, hreturns, Search.layersBelow_nodup d, ?_, mem_closed hempty, ?_⟩
  · refine head_layersBelow _ a ?_
    intro hd
    have hstart := hempty 0 (le_of_eq hd)
    simp [Search.layer, Search.front] at hstart
  · have hpair := (@Search.pairwise_layersBelow _ _ dag.sortedParents a (fun _ _ => True) d).mpr
      fun _ _ => List.pairwise_of_forall fun _ _ => trivial
    refine hpair.imp ?_
    intro x y hxy
    rw [← dag.dist_sorted, ← dag.dist_sorted]
    exact hxy.1

section Devnet
open Devnet

def vertexOn (parents : List Nat) (h : Nat) : CertifiedVertex :=
  ⟨⟨0, ⟨h⟩, parents.map fun p => ⟨p⟩, [], ⟨h⟩⟩, ⟨⟨0⟩, []⟩⟩

def cyclic : List CertifiedVertex := [vertexOn [0xbb, 0x10, 0xbb] 0xaa, vertexOn [0xaa] 0xbb]

theorem closure_exact_cyclic :
    closureOfAnchor ⟨0xaa⟩ ((ports 0 0).holding cyclic) = .ok [⟨0xaa⟩, ⟨0x10⟩, ⟨0xbb⟩] ∧
      (LiveDag.of cyclic).view.dist ⟨0xaa⟩ ⟨0x10⟩ ≤ (LiveDag.of cyclic).view.dist ⟨0xaa⟩ ⟨0xbb⟩ ∧
      ∀ b, (LiveDag.of cyclic).view.Reaches ⟨0xaa⟩ b ↔ b ∈ [⟨0xaa⟩, ⟨0x10⟩, ⟨0xbb⟩] := by
  obtain ⟨order, hruns, -, -, hexact, hnear⟩ :=
    closure_exact (LiveDag.of cyclic).view _ (LiveDag.view_findsWithin cyclic) ⟨0xaa⟩
  have hrun := hruns { (ports 0 0).holding cyclic with fuel := order.length } rfl (le_refl _)
  have hcalc : closureOfAnchor ⟨0xaa⟩ ((ports 0 0).holding cyclic) =
      .ok [⟨0xaa⟩, ⟨0x10⟩, ⟨0xbb⟩] := by decide
  have horder : order = [⟨0xaa⟩, ⟨0x10⟩, ⟨0xbb⟩] := by
    refine closureOfAnchor_unique ?_ hrun hcalc
    rfl
  rw [horder] at hexact hnear
  exact ⟨hcalc, List.rel_of_pairwise_cons hnear.of_cons (by simp), fun b => (hexact b).symm⟩

end Devnet

/-- Within the layers the hashes ascend iff they are named in order. -/
theorem closure_ascending_iff (dag : DagView) (known : Finset Hash32)
    (hdag : dag.FindsWithin known) (a : Hash32) :
    ∃ order, (∀ ctx : HostContext, ctx.dag = dag → order.length ≤ ctx.fuel →
        closureOfAnchor a ctx = .ok order) ∧
      (LayersAscending dag a order ↔ NamedInOrder dag a) := by
  obtain ⟨d, hempty, hreturns⟩ := closureOfAnchor_layers hdag a
  refine ⟨_, hreturns, ?_⟩
  have hsorted : ∀ b, (dag.sortedParents b).Pairwise (· ≤ ·) := fun b =>
    List.pairwise_insertionSort _ _
  have hall : (∀ i < d, (Search.layer dag.sortedParents a i).Pairwise (· < ·)) ↔
      ∀ i, (Search.layer dag.sortedParents a i).Pairwise (· < ·) := by
    constructor
    · intro h i
      by_cases hi : i < d
      · exact h i hi
      · simp [hempty i (not_lt.mp hi)]
    · exact fun h i _ => h i
  rw [← namedInOrder_iff, ← Search.layers_sorted_iff hsorted, ← hall,
    ← Search.pairwise_layersBelow]
  unfold LayersAscending
  simp only [← dag.dist_sorted]
  constructor
  · intro h
    have hdist := (@Search.pairwise_layersBelow _ _ dag.sortedParents a (fun _ _ => True) d).mpr
      fun _ _ => List.pairwise_of_forall fun _ _ => trivial
    exact (hdist.and h).imp fun hxy => ⟨hxy.1.1, hxy.2⟩
  · exact fun h => h.imp fun hxy => hxy.2

section Devnet
open Devnet

def crossed : List CertifiedVertex :=
  [vertexOn [0x30, 0x40] 0x50, vertexOn [0x20] 0x30, vertexOn [0x10] 0x40]

/-- The two hashes at distance two descend. -/
theorem closure_crossed :
    closureOfAnchor ⟨0x50⟩ ((ports 0 0).holding crossed) =
        .ok [⟨0x50⟩, ⟨0x30⟩, ⟨0x40⟩, ⟨0x20⟩, ⟨0x10⟩] ∧
      ¬ LayersAscending (LiveDag.of crossed).view ⟨0x50⟩
        [⟨0x50⟩, ⟨0x30⟩, ⟨0x40⟩, ⟨0x20⟩, ⟨0x10⟩] := by
  refine ⟨by decide, ?_⟩
  intro hascending
  have hpair := List.rel_of_pairwise_cons hascending.of_cons.of_cons.of_cons
    (List.mem_singleton.mpr rfl)
  have hfirst : (LiveDag.of crossed).view.dist ⟨0x50⟩ ⟨0x20⟩ = 2 :=
    dist_of_layer (by decide)
  have hsecond : (LiveDag.of crossed).view.dist ⟨0x50⟩ ⟨0x10⟩ = 2 :=
    dist_of_layer (by decide)
  exact absurd (hpair (hfirst.trans hsecond.symm)) (by decide)

def diamond : List CertifiedVertex :=
  [vertexOn [] 0x10, vertexOn [] 0x20, vertexOn [0x10, 0x20] 0x30, vertexOn [0x10] 0x40,
    vertexOn [0x30, 0x40] 0x50]

theorem closure_ascending_diamond : NamedInOrder (LiveDag.of diamond).view ⟨0x50⟩ := by
  obtain ⟨order, hruns, hiff⟩ :=
    closure_ascending_iff (LiveDag.of diamond).view _ (LiveDag.view_findsWithin diamond) ⟨0x50⟩
  have hrun := hruns { (ports 0 0).holding diamond with fuel := order.length } rfl (le_refl _)
  have hcalc : closureOfAnchor ⟨0x50⟩ ((ports 0 0).holding diamond) =
      .ok [⟨0x50⟩, ⟨0x30⟩, ⟨0x40⟩, ⟨0x10⟩, ⟨0x20⟩] := by decide
  have horder : order = [⟨0x50⟩, ⟨0x30⟩, ⟨0x40⟩, ⟨0x10⟩, ⟨0x20⟩] := by
    refine closureOfAnchor_unique ?_ hrun hcalc
    rfl
  rw [horder] at hiff
  refine hiff.mp ?_
  have h50 : (LiveDag.of diamond).view.dist ⟨0x50⟩ ⟨0x50⟩ = 0 := dist_of_layer (by decide)
  have h30 : (LiveDag.of diamond).view.dist ⟨0x50⟩ ⟨0x30⟩ = 1 := dist_of_layer (by decide)
  have h40 : (LiveDag.of diamond).view.dist ⟨0x50⟩ ⟨0x40⟩ = 1 := dist_of_layer (by decide)
  have h10 : (LiveDag.of diamond).view.dist ⟨0x50⟩ ⟨0x10⟩ = 2 := dist_of_layer (by decide)
  have h20 : (LiveDag.of diamond).view.dist ⟨0x50⟩ ⟨0x20⟩ = 2 := dist_of_layer (by decide)
  simp [LayersAscending, h50, h30, h40, h10, h20]
  decide

end Devnet
end LuaDag
