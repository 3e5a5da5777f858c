import LuaDag.StateMachine
import LuaDag.Search
import LuaDag.Maps

/-! The host's view of the DAG (`apps/node/src/live_dag.rs`), and what the breadth-first
loops of L2 compute on a view: the reachable part of the parent graph. -/
namespace LuaDag

structure LiveDag where
  byHash : Std.TreeMap Hash32 CertifiedVertex := ∅
  byRound : Std.TreeMap Round (List CertifiedVertex) := ∅

namespace LiveDag

def ingest (d : LiveDag) (v : CertifiedVertex) : LiveDag where
  byHash := d.byHash.insert v.vertex.hash v
  byRound := d.byRound.insert v.vertex.round ((d.byRound[v.vertex.round]?.getD []) ++ [v])

def view (d : LiveDag) : DagView where
  vertex := fun h => .ok d.byHash[h]?
  verticesAtRound := fun r => .ok (d.byRound[r]?.getD [])

def of (vs : List CertifiedVertex) : LiveDag := vs.foldl ingest {}

theorem of_append (vs : List CertifiedVertex) (v : CertifiedVertex) :
    of (vs ++ [v]) = (of vs).ingest v := by
  simp [of]

theorem byRound_of (vs : List CertifiedVertex) (r : Round) :
    (of vs).byRound[r]?.getD [] = vs.filter fun v => decide (v.vertex.round = r) := by
  induction vs using List.reverseRecOn with
  | nil => simp [of]
  | append_singleton vs v ih =>
    rw [of_append, List.filter_append]
    simp only [ingest, Maps.get_insert]
    by_cases hr : v.vertex.round = r
    · rw [if_pos hr, Option.getD_some, hr, ih]
      simp [hr]
    · rw [if_neg hr, ih]
      simp [hr]

theorem byHash_of (vs : List CertifiedVertex) (h : Hash32) :
    (of vs).byHash[h]? = vs.reverse.find? fun v => decide (v.vertex.hash = h) := by
  induction vs using List.reverseRecOn with
  | nil => simp [of]
  | append_singleton vs v ih =>
    rw [of_append, List.reverse_append]
    simp only [ingest, Maps.get_insert, ih, List.reverse_cons, List.reverse_nil, List.nil_append,
      List.singleton_append, List.find?_cons]
    by_cases hv : v.vertex.hash = h <;> simp [hv]

theorem byHash_some {vs : List CertifiedVertex} {h : Hash32} {v : CertifiedVertex}
    (hv : (of vs).byHash[h]? = some v) : v ∈ vs ∧ v.vertex.hash = h := by
  rw [byHash_of] at hv
  exact ⟨List.mem_reverse.mp (List.mem_of_find?_eq_some hv), by simpa using List.find?_some hv⟩

theorem byHash_of_mem {vs : List CertifiedVertex} {v : CertifiedVertex} (hv : v ∈ vs) :
    ∃ w, (of vs).byHash[v.vertex.hash]? = some w := by
  rw [byHash_of, ← Option.isSome_iff_exists, List.find?_isSome]
  exact ⟨v, List.mem_reverse.mpr hv, by simp⟩

end LiveDag

/-- Certified vertices with one vertex per hash and per slot, parents one round below. -/
structure Coherent (vs : List CertifiedVertex) : Prop where
  hash : ∀ v ∈ vs, ∀ w ∈ vs, v.vertex.hash = w.vertex.hash → v.vertex = w.vertex
  slot : ∀ v ∈ vs, ∀ w ∈ vs, v.vertex.round = w.vertex.round →
    v.vertex.author = w.vertex.author → v.vertex = w.vertex
  below : ∀ v ∈ vs, ∀ w ∈ vs, w.vertex.hash ∈ v.vertex.parents →
    w.vertex.round + 1 = v.vertex.round

/-- A view whose lookups always return. -/
structure DagView.Total (dag : DagView) : Prop where
  vertex : ∀ h, ∃ v, dag.vertex h = .ok v
  atRound : ∀ r, ∃ vs, dag.verticesAtRound r = .ok vs

theorem LiveDag.view_total (d : LiveDag) : d.view.Total :=
  ⟨fun _ => ⟨_, rfl⟩, fun _ => ⟨_, rfl⟩⟩

/-- A view that finds nothing but `ws`, and lists all of it by rounds. -/
structure DagView.Shows (dag : DagView) (ws : List CertifiedVertex) : Prop where
  total : dag.Total
  found : ∀ h v, dag.vertex h = .ok (some v) → v ∈ ws ∧ v.vertex.hash = h
  listed : ∀ r vs, dag.verticesAtRound r = .ok vs → ∀ v, v ∈ vs ↔ v ∈ ws ∧ v.vertex.round = r

theorem LiveDag.view_shows (ws : List CertifiedVertex) : (of ws).view.Shows ws := by
  refine ⟨view_total _, fun h v hv => byHash_some (Except.ok.inj hv), ?_⟩
  intro r vs hvs v
  rw [← Except.ok.inj hvs, byRound_of, List.mem_filter, decide_eq_true_eq]

def DagView.parents (dag : DagView) (h : Hash32) : List Hash32 :=
  match dag.vertex h with
  | .ok (some v) => v.vertex.parents
  | _ => []

def DagView.sortedParents (dag : DagView) (h : Hash32) : List Hash32 :=
  (dag.parents h).insertionSort (· ≤ ·)

def DagView.Reaches (dag : DagView) : Hash32 → Hash32 → Prop := Search.Reach dag.parents

theorem DagView.reach_sorted (dag : DagView) {a b : Hash32} :
    Search.Reach dag.sortedParents a b ↔ dag.Reaches a b := by
  have hrel : (fun x y => y ∈ dag.sortedParents x) = fun x y => y ∈ dag.parents x := by
    funext x y
    simp [DagView.sortedParents, List.mem_insertionSort]
  unfold DagView.Reaches Search.Reach
  rw [hrel]

namespace Bullshark

theorem pushParents_eq (ps : List Hash32) (visited : Finset Hash32) (queue : List Hash32) :
    pushParents ps visited queue = Search.push ps visited queue := by
  induction ps generalizing visited queue with
  | nil => rfl
  | cons p ps ih =>
    unfold pushParents Search.push
    rw [ih, ih]

/- Linearization. -/

theorem walk_of_closureLoop {dag : DagView} {fuel : Nat} {visited : Finset Hash32}
    {queue order o : List Hash32} (h : closureLoop dag fuel visited queue order = .ok o) :
    Search.walk dag.sortedParents fuel visited queue order = some o := by
  induction fuel generalizing visited queue order with
  | zero =>
    cases queue with
    | nil =>
      cases h
      rfl
    | cons a queue => cases h
  | succ fuel ih =>
    cases queue with
    | nil =>
      cases h
      rfl
    | cons a queue =>
      unfold closureLoop at h
      unfold Search.walk
      split at h
      · cases h
      · rename_i hv
        have hp : dag.sortedParents a = [] := by
          simp [DagView.sortedParents, DagView.parents, hv]
        rw [hp]
        exact ih h
      · rename_i v hv
        have hp : dag.sortedParents a = v.vertex.parents.insertionSort (· ≤ ·) := by
          simp [DagView.sortedParents, DagView.parents, hv]
        rw [hp, ← pushParents_eq]
        exact ih h

theorem closureLoop_of_walk {dag : DagView} (hfound : ∀ h, ∃ v, dag.vertex h = .ok v) {fuel : Nat}
    {visited : Finset Hash32} {queue order o : List Hash32}
    (h : Search.walk dag.sortedParents fuel visited queue order = some o) :
    closureLoop dag fuel visited queue order = .ok o := by
  induction fuel generalizing visited queue order with
  | zero =>
    cases queue with
    | nil =>
      cases h
      rfl
    | cons a queue => cases h
  | succ fuel ih =>
    cases queue with
    | nil =>
      cases h
      rfl
    | cons a queue =>
      unfold Search.walk at h
      unfold closureLoop
      obtain ⟨v, hv⟩ := hfound a
      cases v with
      | none =>
        have hp : dag.sortedParents a = [] := by
          simp [DagView.sortedParents, DagView.parents, hv]
        rw [hp] at h
        simp only [hv]
        exact ih h
      | some v =>
        have hp : dag.sortedParents a = v.vertex.parents.insertionSort (· ≤ ·) := by
          simp [DagView.sortedParents, DagView.parents, hv]
        rw [hp, ← pushParents_eq] at h
        simp only [hv]
        exact ih h

/-- The linearization of an anchor holds its causal past in the view. -/
theorem mem_closureOfAnchor {a : Hash32} {ctx : HostContext} {order : List Hash32}
    (h : closureOfAnchor a ctx = .ok order) (b : Hash32) :
    b ∈ order ↔ ctx.dag.Reaches a b := by
  rw [Search.mem_walk (walk_of_closureLoop h) b]
  exact ctx.dag.reach_sorted

theorem closureOfAnchor_head {a : Hash32} {ctx : HostContext} {order : List Hash32}
    (h : closureOfAnchor a ctx = .ok order) : order.head? = some a :=
  Search.walk_head (walk_of_closureLoop h)

/-- Linearizations depend on the parents of the causal past only. -/
theorem closureOfAnchor_agree {a : Hash32} {ctx ctx' : HostContext} {order order' : List Hash32}
    (h : closureOfAnchor a ctx = .ok order) (h' : closureOfAnchor a ctx' = .ok order')
    (hagree : ∀ b, ctx.dag.Reaches a b → ctx.dag.parents b = ctx'.dag.parents b) :
    order = order' := by
  refine Search.walk_agree ?_ (walk_of_closureLoop h) (walk_of_closureLoop h')
  intro c hc b hr
  rw [List.mem_singleton.mp hc, ctx.dag.reach_sorted] at hr
  unfold DagView.sortedParents
  rw [hagree b hr]

/- Support. -/

theorem reachLoop_of_seek {dag : DagView} (htotal : dag.Total) {target : Hash32} {fuel : Nat}
    {visited : Finset Hash32} {queue : List Hash32} {found : Bool}
    (h : Search.seek dag.parents target fuel visited queue = some found) :
    reachLoop dag target fuel visited queue = .ok found := by
  induction fuel generalizing visited queue with
  | zero =>
    cases queue with
    | nil =>
      cases h
      rfl
    | cons a queue => cases h
  | succ fuel ih =>
    cases queue with
    | nil =>
      cases h
      rfl
    | cons a queue =>
      unfold Search.seek at h
      unfold reachLoop
      by_cases ha : a = target
      · rw [if_pos ha] at h ⊢
        cases h
        rfl
      rw [if_neg ha] at h ⊢
      obtain ⟨v, hv⟩ := htotal.vertex a
      cases v with
      | none =>
        have hp : dag.parents a = [] := by simp [DagView.parents, hv]
        rw [hp] at h
        simp only [hv]
        exact ih h
      | some v =>
        have hp : dag.parents a = v.vertex.parents := by simp [DagView.parents, hv]
        rw [hp, ← pushParents_eq] at h
        simp only [hv]
        exact ih h

end Bullshark

/- Views over a set of certified vertices. -/

def hashesOf (vs : List CertifiedVertex) : List Hash32 :=
  vs.flatMap fun v => v.vertex.hash :: v.vertex.parents

/-- The loops over views of `vs` have the room they need. -/
def Roomy (vs : List CertifiedVertex) (ctx : HostContext) : Prop :=
  2 * (hashesOf vs).length ≤ ctx.fuel

instance (vs : List CertifiedVertex) (ctx : HostContext) : Decidable (Roomy vs ctx) :=
  inferInstanceAs (Decidable (2 * (hashesOf vs).length ≤ ctx.fuel))

def HostContext.holding (ctx : HostContext) (vs : List CertifiedVertex) : HostContext :=
  { ctx with dag := (LiveDag.of vs).view }

/-- One vertex per hash. -/
def HashUnique (vs : List CertifiedVertex) : Prop :=
  ∀ v ∈ vs, ∀ w ∈ vs, v.vertex.hash = w.vertex.hash → v.vertex = w.vertex

theorem HashUnique.subset {vs ws : List CertifiedVertex} (h : HashUnique ws) (hsub : vs ⊆ ws) :
    HashUnique vs :=
  fun v hv w hw => h v (hsub hv) w (hsub hw)

section Views
variable {vs : List CertifiedVertex}

theorem parents_of_mem (huniq : HashUnique vs) {v : CertifiedVertex} (hv : v ∈ vs) :
    (LiveDag.of vs).view.parents v.vertex.hash = v.vertex.parents := by
  obtain ⟨w, hw⟩ := LiveDag.byHash_of_mem hv
  obtain ⟨hmem, hhash⟩ := LiveDag.byHash_some hw
  simp only [DagView.parents, LiveDag.view, hw]
  rw [huniq w hmem v hv hhash]

theorem DagView.Shows.parents_shown {dag : DagView} (hdag : dag.Shows vs) {h p : Hash32}
    (hp : p ∈ dag.parents h) : ∃ v ∈ vs, v.vertex.hash = h ∧ p ∈ v.vertex.parents := by
  unfold DagView.parents at hp
  split at hp
  · rename_i v hv
    obtain ⟨hmem, hhash⟩ := hdag.found h v hv
    exact ⟨v, hmem, hhash, hp⟩
  · simp at hp

theorem parents_held {h p : Hash32} (hp : p ∈ (LiveDag.of vs).view.parents h) :
    ∃ v ∈ vs, v.vertex.hash = h ∧ p ∈ v.vertex.parents :=
  (LiveDag.view_shows vs).parents_shown hp

theorem mem_parents (huniq : HashUnique vs) (h p : Hash32) :
    p ∈ (LiveDag.of vs).view.parents h ↔ ∃ v ∈ vs, v.vertex.hash = h ∧ p ∈ v.vertex.parents := by
  refine ⟨parents_held, ?_⟩
  rintro ⟨v, hv, rfl, hp⟩
  rwa [parents_of_mem huniq hv]

theorem mem_hashesOf {v : CertifiedVertex} (hv : v ∈ vs) :
    v.vertex.hash ∈ hashesOf vs ∧ ∀ p ∈ v.vertex.parents, p ∈ hashesOf vs := by
  refine ⟨List.mem_flatMap.mpr ⟨v, hv, by simp⟩, ?_⟩
  intro p hp
  exact List.mem_flatMap.mpr ⟨v, hv, by simp [hp]⟩

theorem parents_length {v : CertifiedVertex} (hv : v ∈ vs) :
    v.vertex.parents.length ≤ (hashesOf vs).length := by
  induction vs with
  | nil => simp at hv
  | cons w vs ih =>
    simp only [hashesOf, List.flatMap_cons, List.length_append, List.length_cons]
    cases List.mem_cons.mp hv with
    | inl heq =>
      subst heq
      omega
    | inr hmem =>
      have := ih hmem
      simp only [hashesOf] at this
      omega

theorem within_hashes {dag : DagView} {ws : List CertifiedVertex} (hdag : dag.Shows ws)
    (hsub : ws ⊆ vs) {visited : Finset Hash32} {queue : List Hash32}
    (hv : ∀ h ∈ visited, h ∈ hashesOf vs) (hq : ∀ h ∈ queue, h ∈ hashesOf vs)
    {next : Hash32 → List Hash32} (hnext : ∀ h p, p ∈ next h → p ∈ dag.parents h) :
    Search.Within next (hashesOf vs).toFinset visited queue := by
  refine ⟨?_, ?_, ?_⟩
  · intro h _ p hp
    obtain ⟨v, hmem, -, hpv⟩ := hdag.parents_shown (hnext h p hp)
    exact List.mem_toFinset.mpr ((mem_hashesOf (hsub hmem)).2 p hpv)
  · intro h hh
    exact List.mem_toFinset.mpr (hv h hh)
  · intro h hh
    exact List.mem_toFinset.mpr (hq h hh)

end Views

def DagView.Supports (dag : DagView) (v : CertifiedVertex) (a : Hash32) : Prop :=
  v.vertex.hash = a ∨ ∃ p ∈ v.vertex.parents, dag.Reaches p a

namespace Bullshark
section Shown
variable {vs ws : List CertifiedVertex} {ctx : HostContext}

theorem closureOfAnchor_shown (hdag : ctx.dag.Shows ws) (hsub : ws ⊆ vs) (hroom : Roomy vs ctx)
    {a : Hash32} (ha : a ∈ hashesOf vs) : ∃ order, closureOfAnchor a ctx = .ok order := by
  have hwithin : Search.Within ctx.dag.sortedParents (hashesOf vs).toFinset {a} [a] := by
    refine within_hashes hdag hsub ?_ ?_ ?_
    · intro h hh
      rwa [Finset.mem_singleton.mp hh]
    · intro h hh
      rwa [List.mem_singleton.mp hh]
    · intro h p hp
      simpa [DagView.sortedParents, List.mem_insertionSort] using hp
  have hcard := List.toFinset_card_le (hashesOf vs)
  unfold Roomy at hroom
  obtain ⟨order, horder⟩ := @Search.walk_returns _ _ _ _ ctx.fuel _ _ [] hwithin (by
    simp only [List.length_singleton, Finset.card_singleton]
    omega)
  exact ⟨order, closureLoop_of_walk hdag.total.vertex horder⟩

theorem vertexReaches_shown (hdag : ctx.dag.Shows ws) (hsub : ws ⊆ vs) (hroom : Roomy vs ctx)
    {v : CertifiedVertex} (hv : v ∈ ws) (a : Hash32) :
    ∃ found, vertexReaches v a ctx = .ok found ∧ (found = true ↔ ctx.dag.Supports v a) := by
  unfold vertexReaches
  by_cases ha : v.vertex.hash = a
  · exact ⟨true, by rw [if_pos ha], by simp [DagView.Supports, ha]⟩
  rw [if_neg ha]
  have hwithin : Search.Within ctx.dag.parents (hashesOf vs).toFinset
      v.vertex.parents.toFinset v.vertex.parents := by
    have hin := (mem_hashesOf (hsub hv)).2
    refine within_hashes hdag hsub ?_ hin fun _ _ hp => hp
    intro h hh
    exact hin h (List.mem_toFinset.mp hh)
  have hcard := List.toFinset_card_le (hashesOf vs)
  have hlen := parents_length (hsub hv)
  unfold Roomy at hroom
  obtain ⟨found, hfound⟩ := @Search.seek_returns _ _ _ _ a ctx.fuel _ _ hwithin (by omega)
  refine ⟨found, reachLoop_of_seek hdag.total hfound, ?_⟩
  have hinit : Search.Explored ctx.dag.parents (fun _ => False)
      v.vertex.parents.toFinset v.vertex.parents := by
    refine ⟨?_, ?_, ?_⟩
    · intro h hh
      exact Or.inr (List.mem_toFinset.mp hh)
    · intro h hh
      exact List.mem_toFinset.mpr hh
    · intro h hh
      exact hh.elim
  cases found with
  | true =>
    obtain ⟨p, hp, hr⟩ := Search.seek_sound hfound
    simp only [true_iff]
    exact Or.inr ⟨p, hp, hr⟩
  | false =>
    have hnone := Search.seek_complete hinit (fun h => h) hfound
    simp only [Bool.false_eq_true, false_iff]
    rintro (heq | ⟨p, hp, hr⟩)
    · exact ha heq
    · exact hnone p (Or.inr hp) hr

theorem addSupporters_shown (hdag : ctx.dag.Shows ws) (hsub : ws ⊆ vs) (hroom : Roomy vs ctx)
    (a : Hash32) (us : List CertifiedVertex) (hus : us ⊆ ws) (base : Finset ValidatorId) :
    ∃ S, addSupporters a ctx us base = .ok S ∧
      ∀ x, x ∈ S ↔ x ∈ base ∨ ∃ v ∈ us, v.vertex.author = x ∧ ctx.dag.Supports v a := by
  induction us generalizing base with
  | nil => exact ⟨base, rfl, by simp⟩
  | cons v us ih =>
    have hv : v ∈ ws := hus (by simp)
    obtain ⟨found, hfound, hspec⟩ := vertexReaches_shown hdag hsub hroom hv a
    obtain ⟨S, hS, hmem⟩ := ih (fun w hw => hus (List.mem_cons_of_mem _ hw))
      (if found then insert v.vertex.author base else base)
    refine ⟨S, by simp only [addSupporters, hfound, hS], ?_⟩
    intro x
    rw [hmem]
    by_cases hf : found = true
    · have hsup := hspec.mp hf
      simp only [hf, if_true, Finset.mem_insert, List.mem_cons, exists_eq_or_imp]
      constructor
      · rintro ((heq | hb) | hr)
        · exact Or.inr (Or.inl ⟨heq.symm, hsup⟩)
        · exact Or.inl hb
        · exact Or.inr (Or.inr hr)
      · rintro (hb | ⟨heq, -⟩ | hr)
        · exact Or.inl (Or.inr hb)
        · exact Or.inl (Or.inl heq.symm)
        · exact Or.inr hr
    · have hsup : ¬ ctx.dag.Supports v a := fun h => hf (hspec.mpr h)
      simp [hf, hsup]

/-- Who supports an anchor within a window of rounds. -/
theorem countSupporters_shown (hdag : ctx.dag.Shows ws) (hsub : ws ⊆ vs) (hroom : Roomy vs ctx)
    (a : Hash32) (r window : Nat) :
    ∃ S, countSupporters a r ctx window = .ok S ∧
      ∀ x, x ∈ S ↔ ∃ v ∈ ws, r < v.vertex.round ∧ v.vertex.round ≤ r + window ∧
        v.vertex.author = x ∧ ctx.dag.Supports v a := by
  induction window with
  | zero =>
    refine ⟨∅, rfl, ?_⟩
    intro x
    simp only [Finset.notMem_empty, false_iff]
    rintro ⟨v, -, hlt, hle, -⟩
    exact absurd hle (Nat.not_le_of_lt hlt)
  | succ window ih =>
    obtain ⟨S, hS, hmem⟩ := ih
    obtain ⟨us, hround⟩ := hdag.total.atRound (r + (window + 1))
    have hus := hdag.listed _ us hround
    obtain ⟨T, hT, hmemT⟩ := addSupporters_shown hdag hsub hroom a us
      (fun v hv => ((hus v).mp hv).1) S
    refine ⟨T, by simp only [countSupporters, hS, hround, hT], ?_⟩
    intro x
    rw [hmemT, hmem]
    constructor
    · rintro (⟨v, hv, hlt, hle, hrest⟩ | ⟨v, hv, hrest⟩)
      · exact ⟨v, hv, hlt, Nat.le_succ_of_le hle, hrest⟩
      · obtain ⟨hin, heq⟩ := (hus v).mp hv
        exact ⟨v, hin, by rw [heq]; exact Nat.lt_add_of_pos_right (Nat.succ_pos _),
          le_of_eq heq, hrest⟩
    · rintro ⟨v, hv, hlt, hle, hrest⟩
      cases Nat.lt_or_eq_of_le hle with
      | inl hless => exact Or.inl ⟨v, hv, hlt, Nat.le_of_lt_succ hless, hrest⟩
      | inr heq => exact Or.inr ⟨v, (hus v).mpr ⟨hv, heq⟩, hrest⟩

end Shown

section Held
variable {vs ws : List CertifiedVertex} {ctx : HostContext}

def Supports (ws : List CertifiedVertex) (v : CertifiedVertex) (a : Hash32) : Prop :=
  v.vertex.hash = a ∨ ∃ p ∈ v.vertex.parents, (LiveDag.of ws).view.Reaches p a

theorem closureOfAnchor_returns (hsub : ws ⊆ vs) (hroom : Roomy vs ctx) {a : Hash32}
    (ha : a ∈ hashesOf vs) : ∃ order, closureOfAnchor a (ctx.holding ws) = .ok order :=
  @closureOfAnchor_shown vs ws (ctx.holding ws) (LiveDag.view_shows ws) hsub hroom a ha

theorem vertexReaches_spec (hsub : ws ⊆ vs) (hroom : Roomy vs ctx) {v : CertifiedVertex}
    (hv : v ∈ ws) (a : Hash32) :
    ∃ found, vertexReaches v a (ctx.holding ws) = .ok found ∧
      (found = true ↔ Supports ws v a) :=
  @vertexReaches_shown vs ws (ctx.holding ws) (LiveDag.view_shows ws) hsub hroom v hv a

theorem countSupporters_spec (hsub : ws ⊆ vs) (hroom : Roomy vs ctx) (a : Hash32) (r : Nat)
    (window : Nat) :
    ∃ S, countSupporters a r (ctx.holding ws) window = .ok S ∧
      ∀ x, x ∈ S ↔ ∃ v ∈ ws, r < v.vertex.round ∧ v.vertex.round ≤ r + window ∧
        v.vertex.author = x ∧ Supports ws v a :=
  @countSupporters_shown vs ws (ctx.holding ws) (LiveDag.view_shows ws) hsub hroom a r window

end Held
end Bullshark

/- Deliveries. -/

inductive Arrival where
  | vertex (cv : CertifiedVertex)
  | timer (id : TimerId)
deriving DecidableEq, Repr

/-- The calls the host makes for them: a vertex is ingested before it is stepped. -/
def Arrival.inputs (ctx : HostContext) :
    List CertifiedVertex → List Arrival → List StateMachine.Input
  | _, [] => []
  | held, .vertex cv :: as =>
    (.event (.certifiedVertexReceived cv), ctx.holding (held ++ [cv])) ::
      Arrival.inputs ctx (held ++ [cv]) as
  | held, .timer id :: as =>
    (.event (.timerFired id), ctx.holding held) :: Arrival.inputs ctx held as

end LuaDag
