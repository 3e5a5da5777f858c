import LuaDag.WavePass
import LuaDag.LiveDag
import LuaDag.Devnet

/-! What committed waves order. The linearization of an anchor is its whole causal past in
the view of that moment: nothing ordered by earlier anchors is left out, and what the view
does not hold is passed over. -/
namespace LuaDag
open Bullshark

/-- The call commits `wave` by the anchor `a`, which it linearizes as `order`. -/
structure Linearizes (cr : Crypto) (call : NodeCall) (wave : WaveId) (a : Hash32)
    (order : List Hash32) : Prop where
  commits : call.commits cr wave a
  committed : wave ∈ (StateMachine.exec cr call.input call.pre).state.waves.committedWaves
  closure : closureOfAnchor a call.ctx = .ok order

def checkpointOf (cr : Crypto) (a : Hash32) (ctx : HostContext) : Except Error Hash32 :=
  (closureOfAnchor a ctx).map (checkpointHashFromLinearization cr)

/-- Down from `a`, the second view knows the same parents as the first. -/
def DagView.SamePast (dag dag' : DagView) (a : Hash32) : Prop :=
  ∀ b, dag.Reaches a b → dag.parents b = dag'.parents b

/-- `ws` holds a vertex of the hash `b`, and `ws'` does not. -/
def OnlyIn (ws ws' : List CertifiedVertex) (b : Hash32) : Prop :=
  (∃ v ∈ ws, v.vertex.hash = b) ∧ ∀ v ∈ ws', v.vertex.hash ≠ b

def Backed (set : ValidatorSet) (ws : List CertifiedVertex) (a : Hash32) (r window : Nat) : Prop :=
  ∃ S : Finset ValidatorId, 2 * ((set.entries.length - 1) / 3) + 1 ≤ S.card ∧
    ∀ x ∈ S, ∃ v ∈ ws, r < v.vertex.round ∧ v.vertex.round ≤ r + window ∧
      v.vertex.author = x ∧ Supports ws v a

def Shallow (vs : List CertifiedVertex) (a : Hash32) : Prop :=
  ∀ v ∈ vs, v.vertex.hash = a → ∀ p ∈ vs, p.vertex.hash ∈ v.vertex.parents →
    ∀ y ∈ p.vertex.parents, y = a ∨ y ∈ v.vertex.parents

instance (vs : List CertifiedVertex) (a : Hash32) : Decidable (Shallow vs a) :=
  inferInstanceAs (Decidable (∀ v ∈ vs, v.vertex.hash = a → ∀ p ∈ vs,
    p.vertex.hash ∈ v.vertex.parents → ∀ y ∈ p.vertex.parents, y = a ∨ y ∈ v.vertex.parents))

def fromRound (r : Nat) (vs : List CertifiedVertex) : List CertifiedVertex :=
  vs.filter fun v => decide (r ≤ v.vertex.round)

section TwoViews
variable {cr : Crypto} {cfg : Config} {vs ws : List CertifiedVertex} {ctx : HostContext}

theorem mem_fromRound {r : Nat} {v : CertifiedVertex} :
    v ∈ fromRound r vs ↔ v ∈ vs ∧ r ≤ v.vertex.round := by
  simp [fromRound]

theorem fromRound_subset (r : Nat) (vs : List CertifiedVertex) : fromRound r vs ⊆ vs :=
  fun _ hv => (mem_fromRound.mp hv).1

theorem backed_iff (hsub : ws ⊆ vs) (hroom : Roomy vs ctx) (set : ValidatorSet) (a : Hash32)
    (r window : Nat) :
    ∃ S, countSupporters a r (ctx.holding ws) window = .ok S ∧
      (2 * ((set.entries.length - 1) / 3) + 1 ≤ S.card ↔ Backed set ws a r window) := by
  obtain ⟨S, hS, hmem⟩ := countSupporters_spec hsub hroom a r window
  refine ⟨S, hS, fun hle => ⟨S, hle, fun x hx => (hmem x).mp hx⟩, ?_⟩
  rintro ⟨T, hle, hT⟩
  exact hle.trans (Finset.card_le_card fun x hx => (hmem x).mpr (hT x hx))

theorem anchorIn_iff (hvs : Coherent vs) (hsub : ws ⊆ vs) (r : Round) (author : ValidatorId)
    (a : Hash32) :
    (∃ v, ((ws.filter fun v => decide (v.vertex.round = r)).find?
        fun v => decide (v.vertex.author = author)) = some v ∧ v.vertex.hash = a) ↔
      ∃ v ∈ ws, v.vertex.round = r ∧ v.vertex.author = author ∧ v.vertex.hash = a := by
  constructor
  · rintro ⟨v, hfind, hhash⟩
    obtain ⟨hmem, hround⟩ := List.mem_filter.mp (List.mem_of_find?_eq_some hfind)
    exact ⟨v, hmem, by simpa using hround, by simpa using List.find?_some hfind, hhash⟩
  · rintro ⟨v, hmem, hround, hauthor, hhash⟩
    have hsome : ((ws.filter fun v => decide (v.vertex.round = r)).find?
        fun v => decide (v.vertex.author = author)).isSome := by
      rw [List.find?_isSome]
      exact ⟨v, List.mem_filter.mpr ⟨hmem, by simpa using hround⟩, by simpa using hauthor⟩
    obtain ⟨w, hw⟩ := Option.isSome_iff_exists.mp hsome
    obtain ⟨hwmem, hwround⟩ := List.mem_filter.mp (List.mem_of_find?_eq_some hw)
    have hwround' : w.vertex.round = r := by simpa using hwround
    have hwauthor : w.vertex.author = author := by simpa using List.find?_some hw
    have heq := hvs.slot w (hsub hwmem) v (hsub hmem) (hwround'.trans hround.symm)
      (hwauthor.trans hauthor.symm)
    exact ⟨w, hw, by rw [heq, hhash]⟩

/-- When the anchor `a` of `wave` can be committed from a view. -/
theorem canCommit_iff (hvs : Coherent vs) (hsub : ws ⊆ vs) (hroom : Roomy vs ctx) (wave : WaveId)
    (t : Bool) (a : Hash32) :
    CanCommit cr cfg (ctx.holding ws) wave t a ↔
      ∃ set author, ctx.setFor 0 = .ok (some set) ∧ set.entries.isEmpty = false ∧
        selectAnchor cr wave set ctx = .ok author ∧
        (∃ v ∈ ws, v.vertex.round = firstRound wave ∧ v.vertex.author = author ∧
          v.vertex.hash = a) ∧
        (Backed set ws a (firstRound wave) cfg.bullshark.shortcutRoundCount ∨
          t = true ∧ Backed set ws a (firstRound wave) cfg.bullshark.slowPathRoundCount) := by
  have hat : (ctx.holding ws).dag.verticesAtRound (firstRound wave) =
      .ok (ws.filter fun v => decide (v.vertex.round = firstRound wave)) := by
    simp only [HostContext.holding, LiveDag.view, LiveDag.byRound_of]
  constructor
  · rintro ⟨set, d, hset, hd, hda⟩
    obtain ⟨hne, author, us, v, hauthor, hus, hfind, hv⟩ := tryCommitWave_anchor hd
    obtain rfl : v.vertex.hash = a := hv.trans hda
    obtain ⟨S, hS, hshort⟩ := backed_iff hsub hroom set v.vertex.hash (firstRound wave)
      cfg.bullshark.shortcutRoundCount
    obtain ⟨T, hT, hslow⟩ := backed_iff hsub hroom set v.vertex.hash (firstRound wave)
      cfg.bullshark.slowPathRoundCount
    have hback := (tryCommitWave_threshold t hauthor hus hfind hS hT).mp ⟨d, hd⟩
    rw [hat] at hus
    cases hus
    exact ⟨set, author, hset, hne, hauthor, (anchorIn_iff hvs hsub _ _ _).mp ⟨v, hfind, rfl⟩,
      hback.imp hshort.mp (And.imp_right hslow.mp)⟩
  · rintro ⟨set, author, hset, -, hauthor, hanchor, hback⟩
    obtain ⟨v, hfind, rfl⟩ := (anchorIn_iff hvs hsub _ _ _).mpr hanchor
    obtain ⟨S, hS, hshort⟩ := backed_iff hsub hroom set v.vertex.hash (firstRound wave)
      cfg.bullshark.shortcutRoundCount
    obtain ⟨T, hT, hslow⟩ := backed_iff hsub hroom set v.vertex.hash (firstRound wave)
      cfg.bullshark.slowPathRoundCount
    have hauthor' : selectAnchor cr wave set (ctx.holding ws) = .ok author := hauthor
    obtain ⟨d, hd⟩ := (tryCommitWave_threshold t hauthor' hat hfind hS hT).mpr
      (hback.imp hshort.mpr (And.imp_right hslow.mpr))
    -- The decision is for the vertex found, since author and vertices are the same.
    obtain ⟨-, author', us, w, hw, hus, hfind', hhash⟩ := tryCommitWave_anchor hd
    cases hauthor'.symm.trans hw
    cases hat.symm.trans hus
    cases hfind.symm.trans hfind'
    exact ⟨set, d, hset, hd, hhash.symm⟩

theorem canCommit_anchor (hvs : Coherent vs) (hsub : ws ⊆ vs) (hroom : Roomy vs ctx)
    {wave : WaveId} {t : Bool} {a : Hash32} (h : CanCommit cr cfg (ctx.holding ws) wave t a) :
    ∃ v ∈ ws, v.vertex.round = firstRound wave ∧ v.vertex.hash = a := by
  rw [canCommit_iff hvs hsub hroom] at h
  obtain ⟨-, -, -, -, -, ⟨v, hv, hround, -, hhash⟩, -⟩ := h
  exact ⟨v, hv, hround, hhash⟩

/- More vertices, more support. -/

theorem reaches_mono (huniq : HashUnique vs) (hsub : ws ⊆ vs) {a b : Hash32}
    (h : (LiveDag.of ws).view.Reaches a b) : (LiveDag.of vs).view.Reaches a b := by
  refine Relation.ReflTransGen.mono ?_ _ _ h
  intro x y hxy
  obtain ⟨v, hv, hhash, hy⟩ := parents_held hxy
  exact (mem_parents huniq x y).mpr ⟨v, hsub hv, hhash, hy⟩

theorem Backed.mono {set : ValidatorSet} {a : Hash32} {r window : Nat}
    (h : Backed set ws a r window) (huniq : HashUnique vs) (hsub : ws ⊆ vs) :
    Backed set vs a r window := by
  obtain ⟨S, hle, hS⟩ := h
  refine ⟨S, hle, ?_⟩
  intro x hx
  obtain ⟨v, hv, hlt, hwin, hauthor, hsup⟩ := hS x hx
  refine ⟨v, hsub hv, hlt, hwin, hauthor, ?_⟩
  cases hsup with
  | inl heq => exact Or.inl heq
  | inr hp =>
    obtain ⟨p, hp, hr⟩ := hp
    exact Or.inr ⟨p, hp, reaches_mono huniq hsub hr⟩

theorem canCommit_mono (hvs : Coherent vs) (hsub : ws ⊆ vs) (hroom : Roomy vs ctx) {wave : WaveId}
    {t : Bool} {a : Hash32} (h : CanCommit cr cfg (ctx.holding ws) wave t a) :
    CanCommit cr cfg (ctx.holding vs) wave true a := by
  rw [canCommit_iff hvs hsub hroom] at h
  rw [canCommit_iff hvs (List.Subset.refl _) hroom]
  obtain ⟨set, author, hset, hne, hauthor, ⟨v, hv, hanchor⟩, hback⟩ := h
  refine ⟨set, author, hset, hne, hauthor, ⟨v, hsub hv, hanchor⟩, ?_⟩
  cases hback with
  | inl hshort => exact Or.inl (hshort.mono hvs.hash hsub)
  | inr hslow => exact Or.inr ⟨rfl, hslow.2.mono hvs.hash hsub⟩

/- Vertices below the anchor do not matter for its commit. -/

theorem reaches_fromRound (hvs : Coherent vs) {v : CertifiedVertex} (hv : v ∈ vs) {b : Hash32}
    (h : (LiveDag.of vs).view.Reaches b v.vertex.hash) :
    (∃ w ∈ vs, w.vertex.hash = b ∧ v.vertex.round ≤ w.vertex.round) ∧
      (LiveDag.of (fromRound v.vertex.round vs)).view.Reaches b v.vertex.hash := by
  induction h using Relation.ReflTransGen.head_induction_on with
  | refl => exact ⟨⟨v, hv, rfl, Nat.le_refl _⟩, Relation.ReflTransGen.refl⟩
  | head hstep _ ih =>
    obtain ⟨⟨w, hw, hwhash, hwround⟩, hreach⟩ := ih
    obtain ⟨u, hu, huhash, hup⟩ := parents_held hstep
    have hround := hvs.below u hu w hw (hwhash ▸ hup)
    have hle : v.vertex.round ≤ u.vertex.round :=
      hwround.trans (le_of_lt (hround ▸ Nat.lt_succ_self _))
    refine ⟨⟨u, hu, huhash, hle⟩, Search.reach_of_step ?_ hreach⟩
    refine (mem_parents (HashUnique.subset hvs.hash (fromRound_subset _ _)) _ _).mpr ?_
    exact ⟨u, mem_fromRound.mpr ⟨hu, hle⟩, huhash, hup⟩

theorem Backed.fromRound {set : ValidatorSet} {v : CertifiedVertex} {window : Nat}
    (h : Backed set vs v.vertex.hash v.vertex.round window) (hvs : Coherent vs) (hv : v ∈ vs) :
    Backed set (LuaDag.fromRound v.vertex.round vs) v.vertex.hash v.vertex.round window := by
  obtain ⟨S, hle, hS⟩ := h
  refine ⟨S, hle, ?_⟩
  intro x hx
  obtain ⟨u, hu, hlt, hwin, hauthor, hsup⟩ := hS x hx
  refine ⟨u, mem_fromRound.mpr ⟨hu, le_of_lt hlt⟩, hlt, hwin, hauthor, ?_⟩
  cases hsup with
  | inl heq => exact Or.inl heq
  | inr hp =>
    obtain ⟨p, hp, hr⟩ := hp
    exact Or.inr ⟨p, hp, (reaches_fromRound hvs hv hr).2⟩

theorem canCommit_fromRound (hvs : Coherent vs) (hroom : Roomy vs ctx) {wave : WaveId}
    {t : Bool} {a : Hash32} (h : CanCommit cr cfg (ctx.holding vs) wave t a) :
    CanCommit cr cfg (ctx.holding (fromRound (firstRound wave) vs)) wave t a := by
  rw [canCommit_iff hvs (List.Subset.refl _) hroom] at h
  rw [canCommit_iff hvs (fromRound_subset _ _) hroom]
  obtain ⟨set, author, hset, hne, hauthor, ⟨v, hv, hround, hva, hhash⟩, hback⟩ := h
  subst hhash
  rw [← hround] at hback ⊢
  refine ⟨set, author, hset, hne, hauthor,
    ⟨v, mem_fromRound.mpr ⟨hv, Nat.le_refl _⟩, rfl, hva, rfl⟩, ?_⟩
  cases hback with
  | inl hshort => exact Or.inl (hshort.fromRound hvs hv)
  | inr hslow => exact Or.inr ⟨hslow.1, hslow.2.fromRound hvs hv⟩

/- The linearization of an anchor whose parents add nothing. -/

theorem closure_shallow {v : CertifiedVertex} {order : List Hash32} (huniq : HashUnique ws)
    (hv : v ∈ ws)
    (hflat : ∀ p ∈ v.vertex.parents, ∀ y ∈ (LiveDag.of ws).view.parents p,
      y = v.vertex.hash ∨ y ∈ v.vertex.parents)
    (h : closureOfAnchor v.vertex.hash (ctx.holding ws) = .ok order) :
    order = v.vertex.hash :: (Search.push (v.vertex.parents.insertionSort (· ≤ ·))
      {v.vertex.hash} []).2 := by
  have hwalk := walk_of_closureLoop h
  have hnext : (LiveDag.of ws).view.sortedParents v.vertex.hash =
      v.vertex.parents.insertionSort (· ≤ ·) := by
    rw [DagView.sortedParents, parents_of_mem huniq hv]
  have hdag : (ctx.holding ws).dag = (LiveDag.of ws).view := rfl
  rw [hdag] at hwalk
  cases hf : (ctx.holding ws).fuel with
  | zero =>
    rw [hf] at hwalk
    cases hwalk
  | succ fuel =>
    rw [hf] at hwalk
    unfold Search.walk at hwalk
    rw [hnext] at hwalk
    refine (Search.walk_stale ?_ hwalk).trans (by simp)
    intro q hq y hy
    rw [Search.mem_push_visited, Finset.mem_singleton, List.mem_insertionSort]
    have hqp := ((Search.mem_push_queue _ _ _ _).mp hq).resolve_left (by simp)
    rw [List.mem_insertionSort] at hqp
    rw [DagView.sortedParents, List.mem_insertionSort] at hy
    exact hflat q hqp.1 y hy

/-- Every view that holds the anchor sees the same shallow past. -/
theorem Shallow.flat {a : Hash32} (h : Shallow vs a) (hsub : ws ⊆ vs) {v : CertifiedVertex}
    (hv : v ∈ ws) (hhash : v.vertex.hash = a) :
    ∀ p ∈ v.vertex.parents, ∀ y ∈ (LiveDag.of ws).view.parents p,
      y = v.vertex.hash ∨ y ∈ v.vertex.parents := by
  intro p hp y hy
  obtain ⟨u, hu, huhash, hyu⟩ := parents_held hy
  rw [hhash]
  exact h v (hsub hv) hhash u (hsub hu) (huhash ▸ hp) y hyu

theorem fromRound_flat (hvs : Coherent vs) {v : CertifiedVertex} (hv : v ∈ vs) :
    ∀ p ∈ v.vertex.parents, ∀ y ∈ (LiveDag.of (fromRound v.vertex.round vs)).view.parents p,
      y = v.vertex.hash ∨ y ∈ v.vertex.parents := by
  intro p hp y hy
  obtain ⟨u, hu, huhash, -⟩ := parents_held hy
  obtain ⟨humem, hround⟩ := mem_fromRound.mp hu
  have hbelow := hvs.below v hv u humem (huhash ▸ hp)
  exact absurd hround (Nat.not_le_of_lt (hbelow ▸ Nat.lt_succ_self _))

theorem Shallow.closure {ws' : List CertifiedVertex} {ctx' : HostContext} {a : Hash32}
    {order order' : List Hash32} (h : Shallow vs a) (hvs : Coherent vs) (hsub : ws ⊆ vs)
    (hsub' : ws' ⊆ vs) {v v' : CertifiedVertex} (hv : v ∈ ws) (hv' : v' ∈ ws')
    (hhash : v.vertex.hash = a) (hhash' : v'.vertex.hash = a)
    (horder : closureOfAnchor a (ctx.holding ws) = .ok order)
    (horder' : closureOfAnchor a (ctx'.holding ws') = .ok order') : order = order' := by
  have hsame := hvs.hash v (hsub hv) v' (hsub' hv') (hhash.trans hhash'.symm)
  rw [← hhash] at horder
  rw [← hhash'] at horder'
  rw [closure_shallow (HashUnique.subset hvs.hash hsub) hv (h.flat hsub hv hhash) horder,
    closure_shallow (HashUnique.subset hvs.hash hsub') hv' (h.flat hsub' hv' hhash') horder',
    hsame]

/-- Without the rounds below the anchor, it is ordered with the hashes of its parents only. -/
theorem closure_fromRound (hvs : Coherent vs) {v : CertifiedVertex} (hv : v ∈ vs)
    {order : List Hash32}
    (h : closureOfAnchor v.vertex.hash (ctx.holding (fromRound v.vertex.round vs)) = .ok order)
    {y : Hash32} (hy : y ∈ order) : y = v.vertex.hash ∨ y ∈ v.vertex.parents := by
  rw [closure_shallow (HashUnique.subset hvs.hash (fromRound_subset _ _))
    (mem_fromRound.mpr ⟨hv, Nat.le_refl _⟩) (fromRound_flat hvs hv) h] at hy
  cases List.mem_cons.mp hy with
  | inl heq => exact Or.inl heq
  | inr hq =>
    have hmem := ((Search.mem_push_queue _ _ _ _).mp hq).resolve_left (by simp)
    exact Or.inr ((List.mem_insertionSort _).mp hmem.1)

theorem reaches_grandparent (huniq : HashUnique vs) {v p : CertifiedVertex} (hv : v ∈ vs)
    (hp : p ∈ vs) (hpv : p.vertex.hash ∈ v.vertex.parents) {y : Hash32}
    (hy : y ∈ p.vertex.parents) : (LiveDag.of vs).view.Reaches v.vertex.hash y := by
  have hstep : (LiveDag.of vs).view.Reaches v.vertex.hash p.vertex.hash :=
    Relation.ReflTransGen.single ((mem_parents huniq _ _).mpr ⟨v, hv, rfl, hpv⟩)
  exact hstep.tail ((mem_parents huniq _ _).mpr ⟨p, hp, rfl, hy⟩)

end TwoViews

/- Two views of one anchor. -/

section OneAnchor
variable {cr : Crypto} {cfg : Config} {vs ws ws' : List CertifiedVertex} {ctx : HostContext}

theorem canCommit_named {wave : WaveId} {t : Bool} {a : Hash32} (hsub : ws ⊆ vs)
    (h : CanCommit cr cfg (ctx.holding ws) wave t a) : a ∈ hashesOf vs := by
  obtain ⟨set, d, -, hd, rfl⟩ := h
  obtain ⟨-, author, us, v, -, hus, hfind, hhash⟩ := tryCommitWave_anchor hd
  have hlisted := (LiveDag.view_shows ws).listed _ us hus v
  have hmem := (hlisted.mp (List.mem_of_find?_eq_some hfind)).1
  exact hhash ▸ (mem_hashesOf (hsub hmem)).1

/-- Views of one set know the same parents, unless only one of them holds the vertex. -/
theorem parents_same (huniq : HashUnique vs) (hsub : ws ⊆ vs) (hsub' : ws' ⊆ vs) {b : Hash32}
    (hb : ¬ OnlyIn ws ws' b) (hb' : ¬ OnlyIn ws' ws b) :
    (LiveDag.of ws).view.parents b = (LiveDag.of ws').view.parents b := by
  have hnone : ∀ {us : List CertifiedVertex}, (∀ v ∈ us, v.vertex.hash ≠ b) →
      (LiveDag.of us).view.parents b = [] := by
    intro us hus
    refine List.eq_nil_iff_forall_not_mem.mpr ?_
    intro p hp
    obtain ⟨v, hv, hhash, -⟩ := parents_held hp
    exact hus v hv hhash
  by_cases hheld : ∃ v ∈ ws, v.vertex.hash = b
  · have hheld' : ∃ v ∈ ws', v.vertex.hash = b := by
      by_contra hmiss
      exact hb ⟨hheld, fun v hv heq => hmiss ⟨v, hv, heq⟩⟩
    obtain ⟨v, hv, rfl⟩ := hheld
    obtain ⟨v', hv', hhash⟩ := hheld'
    have hsame := huniq v' (hsub' hv') v (hsub hv) hhash
    have hparents := parents_of_mem (HashUnique.subset huniq hsub') hv'
    rw [hsame] at hparents
    rw [parents_of_mem (HashUnique.subset huniq hsub) hv, hparents]
  · have hmiss : ∀ v ∈ ws, v.vertex.hash ≠ b := fun v hv heq => hheld ⟨v, hv, heq⟩
    have hmiss' : ∀ v ∈ ws', v.vertex.hash ≠ b :=
      fun v hv heq => hb' ⟨⟨v, hv, heq⟩, hmiss⟩
    rw [hnone hmiss, hnone hmiss']

theorem samePast_of_held (huniq : HashUnique vs) (hsub : ws ⊆ vs) (hsub' : ws' ⊆ vs) {a : Hash32}
    (hheld : ∀ b, (LiveDag.of ws).view.Reaches a b → (LiveDag.of ws').view.Reaches a b →
      ¬ OnlyIn ws ws' b ∧ ¬ OnlyIn ws' ws b) :
    (LiveDag.of ws).view.SamePast (LiveDag.of ws').view a := by
  have hreach : ∀ b, (LiveDag.of ws).view.Reaches a b → (LiveDag.of ws').view.Reaches a b := by
    intro b hb
    induction hb with
    | refl => exact Relation.ReflTransGen.refl
    | tail hac hstep ih =>
      obtain ⟨hone, hother⟩ := hheld _ hac ih
      rw [parents_same huniq hsub hsub' hone hother] at hstep
      exact ih.tail hstep
  intro b hb
  obtain ⟨hone, hother⟩ := hheld b hb (hreach b hb)
  exact parents_same huniq hsub hsub' hone hother

end OneAnchor

/-- Two nodes commit the anchor `a`, each from its own part of one set of vertices. Where they
know the same past of `a` they agree on its checkpoint, and where they agree they know of the
same hashes in its past. Where the pasts differ, both walks meet a vertex that only one of the
nodes holds, and the other one passes it over. -/
theorem same_checkpoint (cr : Crypto) (hinj : CheckpointsInjective cr) (cfg cfg' : Config)
    (vs ws ws' : List CertifiedVertex) (huniq : HashUnique vs) (hsub : ws ⊆ vs) (hsub' : ws' ⊆ vs)
    (ctx ctx' : HostContext) (hroom : Roomy vs ctx) (hroom' : Roomy vs ctx') (wave : WaveId)
    (t t' : Bool) (a : Hash32) (hcan : CanCommit cr cfg (ctx.holding ws) wave t a)
    (hcan' : CanCommit cr cfg' (ctx'.holding ws') wave t' a) :
    ((LiveDag.of ws).view.SamePast (LiveDag.of ws').view a →
      checkpointOf cr a (ctx.holding ws) = checkpointOf cr a (ctx'.holding ws')) ∧
    (checkpointOf cr a (ctx.holding ws) = checkpointOf cr a (ctx'.holding ws') →
      ∀ b, (LiveDag.of ws).view.Reaches a b ↔ (LiveDag.of ws').view.Reaches a b) ∧
    (¬ (LiveDag.of ws).view.SamePast (LiveDag.of ws').view a →
      ∃ b, (LiveDag.of ws).view.Reaches a b ∧ (LiveDag.of ws').view.Reaches a b ∧
        (OnlyIn ws ws' b ∨ OnlyIn ws' ws b)) := by
  obtain ⟨order, horder⟩ := closureOfAnchor_returns hsub hroom (canCommit_named hsub hcan)
  obtain ⟨order', horder'⟩ := closureOfAnchor_returns hsub' hroom' (canCommit_named hsub' hcan')
  refine ⟨?_, ?_, ?_⟩
  · intro hpast
    have hsame : order = order' := closureOfAnchor_agree horder horder' hpast
    simp only [checkpointOf, horder, horder', hsame]
  · intro heq b
    simp only [checkpointOf, horder, horder', Except.map, Except.ok.injEq] at heq
    have hmem := mem_closureOfAnchor horder b
    rw [hinj _ _ heq] at hmem
    exact hmem.symm.trans (mem_closureOfAnchor horder' b)
  · intro hdiffer
    by_contra hnone
    refine hdiffer (samePast_of_held huniq hsub hsub' ?_)
    intro b hb hb'
    rw [← not_or]
    exact fun honly => hnone ⟨b, hb, hb', honly⟩

/-- Two nodes that commit the anchor `a` from parts of one set of vertices agree on its
checkpoint, whatever parts they hold, if and only if the parents of `a` add nothing to its
past (or one of them can never commit it). -/
theorem same_checkpoint_iff (cr : Crypto) (hinj : CheckpointsInjective cr) (cfg : Config)
    (vs : List CertifiedVertex) (hvs : Coherent vs) (wave : WaveId) (a : Hash32)
    (ctx ctx' : HostContext) (hroom : Roomy vs ctx) (hroom' : Roomy vs ctx') :
    (∀ ws ws' : List CertifiedVertex, ws ⊆ vs → ws' ⊆ vs → ∀ t t',
      CanCommit cr cfg (ctx.holding ws) wave t a → CanCommit cr cfg (ctx'.holding ws') wave t' a →
        checkpointOf cr a (ctx.holding ws) = checkpointOf cr a (ctx'.holding ws')) ↔
    (CanCommit cr cfg (ctx.holding vs) wave true a →
      CanCommit cr cfg (ctx'.holding vs) wave true a → Shallow vs a) := by
  constructor
  · -- the whole set against the set without the rounds below the anchor
    intro hsame hcan hcan' v hv hhash p hp hpv y hy
    subst hhash
    obtain ⟨w, hw, hround, hwhash⟩ := canCommit_anchor hvs (List.Subset.refl _) hroom hcan
    rw [hvs.hash w hw v hv hwhash] at hround
    have heq := hsame vs (fromRound (firstRound wave) vs) (List.Subset.refl _)
      (fromRound_subset _ _) true true hcan (canCommit_fromRound hvs hroom' hcan')
    have hin := (mem_hashesOf hv).1
    obtain ⟨order, horder⟩ := closureOfAnchor_returns (List.Subset.refl _) hroom hin
    obtain ⟨order', horder'⟩ := closureOfAnchor_returns
      (fromRound_subset (firstRound wave) vs) hroom' hin
    simp only [checkpointOf, horder, horder', Except.map, Except.ok.injEq] at heq
    have hpast : y ∈ order :=
      (mem_closureOfAnchor horder y).mpr (reaches_grandparent hvs.hash hv hp hpv hy)
    rw [hinj _ _ heq] at hpast
    rw [← hround] at horder'
    exact closure_fromRound hvs hv horder' hpast
  · intro hcond ws ws' hsub hsub' t t' hcan hcan'
    have hshallow := hcond (canCommit_mono hvs hsub hroom hcan)
      (canCommit_mono hvs hsub' hroom' hcan')
    obtain ⟨v, hv, -, hhash⟩ := canCommit_anchor hvs hsub hroom hcan
    obtain ⟨v', hv', -, hhash'⟩ := canCommit_anchor hvs hsub' hroom' hcan'
    have hin : a ∈ hashesOf vs := hhash ▸ (mem_hashesOf (hsub hv)).1
    obtain ⟨order, horder⟩ := closureOfAnchor_returns hsub hroom hin
    obtain ⟨order', horder'⟩ := closureOfAnchor_returns hsub' hroom' hin
    have hsame := hshallow.closure hvs hsub hsub' hv hv' hhash hhash' horder horder'
    simp only [checkpointOf, horder, horder', hsame]

section Devnet
open Devnet

theorem coherent_upTo_nine : Coherent (verticesUpTo 9) :=
  ⟨by decide, by decide, by decide⟩

def pastOf (r : Round) : List Hash32 :=
  vertexHash r 0 :: ((List.range r).reverse.flatMap fun q => (List.range 3).map (vertexHash q))

/-- Validator 2 holds round 6 as well; both hold the whole past of the anchor of wave 1. -/
theorem same_checkpoint_whole_past :
    ¬ verticesUpTo 6 ⊆ verticesUpTo 5 ∧
      closureOfAnchor (vertexHash 4 0) ((ports 1 5).holding (verticesUpTo 5)) = .ok (pastOf 4) ∧
      checkpointOf orderCrypto (vertexHash 4 0) ((ports 1 5).holding (verticesUpTo 5)) =
        checkpointOf orderCrypto (vertexHash 4 0) ((ports 2 6).holding (verticesUpTo 6)) := by
  have hfull : closureOfAnchor (vertexHash 4 0) ((ports 1 5).holding (verticesUpTo 5)) =
      .ok (pastOf 4) := by decide
  have hknown : ∀ b ∈ pastOf 4, (LiveDag.of (verticesUpTo 5)).view.parents b =
      (LiveDag.of (verticesUpTo 6)).view.parents b := by decide
  refine ⟨by decide, hfull, ?_⟩
  refine (same_checkpoint orderCrypto checkpointsInjective config config (verticesUpTo 6)
    (verticesUpTo 5) (verticesUpTo 6) (by unfold HashUnique; decide) (by decide)
    (List.Subset.refl _) (ports 1 5) (ports 2 6) (by decide) (by decide) 1 false false _
    ⟨validators, ⟨1, .shortcut, vertexHash 4 0⟩, rfl, by decide, rfl⟩
    ⟨validators, ⟨1, .shortcut, vertexHash 4 0⟩, rfl, by decide, rfl⟩).1 ?_
  intro b hb
  exact hknown b ((mem_closureOfAnchor hfull b).mpr hb)

theorem coherent_upTo_five : Coherent (verticesUpTo 5) :=
  ⟨by decide, by decide, by decide⟩

/-- Validator 2 has not received the rounds below the anchor of wave 1. -/
theorem checkpoints_differ :
    Coherent (verticesUpTo 5) ∧ ¬ ∀ ws ws' : List CertifiedVertex, ws ⊆ verticesUpTo 5 →
      ws' ⊆ verticesUpTo 5 → ∀ t t',
      CanCommit orderCrypto config ((ports 1 5).holding ws) 1 t (vertexHash 4 0) →
      CanCommit orderCrypto config ((ports 2 5).holding ws') 1 t' (vertexHash 4 0) →
        checkpointOf orderCrypto (vertexHash 4 0) ((ports 1 5).holding ws) =
          checkpointOf orderCrypto (vertexHash 4 0) ((ports 2 5).holding ws') := by
  refine ⟨coherent_upTo_five, ?_⟩
  intro h
  have heq := h (verticesUpTo 5) (fromRound 4 (verticesUpTo 5)) (List.Subset.refl _)
    (fromRound_subset _ _) false false
    ⟨validators, ⟨1, .shortcut, vertexHash 4 0⟩, rfl, by decide, rfl⟩
    ⟨validators, ⟨1, .shortcut, vertexHash 4 0⟩, rfl, by decide, rfl⟩
  have hfull : closureOfAnchor (vertexHash 4 0) ((ports 1 5).holding (verticesUpTo 5)) =
      .ok (pastOf 4) := by decide
  have hpart : closureOfAnchor (vertexHash 4 0)
      ((ports 2 5).holding (fromRound 4 (verticesUpTo 5))) = .ok ((pastOf 4).take 4) := by
    decide
  simp only [checkpointOf, hfull, hpart, Except.map, Except.ok.injEq] at heq
  exact absurd (checkpointsInjective _ _ heq) (by decide)

end Devnet
end LuaDag
