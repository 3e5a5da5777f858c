import LuaDag.DagIndex
import LuaDag.Thresholds

/-! The commit rule of L2 over any finite view, stated with paths of parents in place of the
breadth-first search. -/
namespace LuaDag
open Bullshark

/-- The view holds `ws`: it finds them by hash, and lists them by rounds. -/
structure DagView.Holds (dag : DagView) (ws : List CertifiedVertex) : Prop where
  total : dag.Total
  found : ∀ h v, dag.vertex h = .ok (some v) ↔ v ∈ ws ∧ v.vertex.hash = h
  listed : ∀ r vs, dag.verticesAtRound r = .ok vs → ∀ v, v ∈ vs ↔ v ∈ ws ∧ v.vertex.round = r

/-- One vertex for each round and author. -/
def SlotUnique (ws : List CertifiedVertex) : Prop :=
  ∀ v ∈ ws, ∀ w ∈ ws, v.vertex.round = w.vertex.round → v.vertex.author = w.vertex.author → v = w

instance (ws : List CertifiedVertex) : Decidable (SlotUnique ws) :=
  inferInstanceAs (Decidable (∀ v ∈ ws, ∀ w ∈ ws,
    v.vertex.round = w.vertex.round → v.vertex.author = w.vertex.author → v = w))

theorem DagView.Holds.shows {dag : DagView} {ws : List CertifiedVertex} (h : dag.Holds ws) :
    dag.Shows ws :=
  ⟨h.total, fun _ _ => (h.found _ _).mp, h.listed⟩

/-- The live DAG holds what it has ingested, as long as its indexes agree. -/
theorem LiveDag.view_holds {vs : List CertifiedVertex}
    (hnodup : (vs.map (·.vertex.hash)).Nodup) : (of vs).view.Holds vs := by
  refine ⟨view_total _, fun h v => ?_, (view_shows vs).listed⟩
  rw [← byHash_iff hnodup]
  exact ⟨Except.ok.inj, congrArg Except.ok⟩

inductive ParentPath (ws : List CertifiedVertex) (a : Hash32) : CertifiedVertex → Prop
  | anchor {v : CertifiedVertex} (hv : v ∈ ws) (ha : v.vertex.hash = a) : ParentPath ws a v
  | parent {v w : CertifiedVertex} (hv : v ∈ ws) (hw : w.vertex.hash ∈ v.vertex.parents)
      (hpath : ParentPath ws a w) : ParentPath ws a v

def PathBacked (set : ValidatorSet) (ws : List CertifiedVertex) (a : Hash32) (r window : ℕ) :
    Prop :=
  ∃ S : Finset ValidatorId, 2 * ((set.entries.length - 1) / 3) + 1 ≤ S.card ∧
    ∀ x ∈ S, ∃ v ∈ ws, r < v.vertex.round ∧ v.vertex.round ≤ r + window ∧
      v.vertex.author = x ∧ ParentPath ws a v

def BackedInTime (cfg : Config) (set : ValidatorSet) (ws : List CertifiedVertex) (wave : WaveId)
    (timedOut : Bool) (a : Hash32) : Prop :=
  PathBacked set ws a (firstRound wave) cfg.bullshark.shortcutRoundCount ∨
    timedOut = true ∧ PathBacked set ws a (firstRound wave) cfg.bullshark.slowPathRoundCount

/-- The vertex of the anchor author is in the view, has hash `a`, and is backed. -/
def CommitsBy (cfg : Config) (set : ValidatorSet) (ws : List CertifiedVertex)
    (author : ValidatorId) (wave : WaveId) (timedOut : Bool) (a : Hash32) : Prop :=
  (∃ v ∈ ws, v.vertex.round = firstRound wave ∧ v.vertex.author = author ∧ v.vertex.hash = a) ∧
    BackedInTime cfg set ws wave timedOut a

section Paths
variable {ws : List CertifiedVertex} {dag : DagView} {a : Hash32}

theorem DagView.Holds.parents_of_mem (hdag : dag.Holds ws) {v : CertifiedVertex} (hv : v ∈ ws) :
    dag.parents v.vertex.hash = v.vertex.parents := by
  unfold DagView.parents
  rw [(hdag.found _ v).mpr ⟨hv, rfl⟩]

/-- What is reached from a hash is reached along a path, if the view has it. -/
theorem path_of_reaches (hdag : dag.Holds ws) {u : CertifiedVertex} (hu : u ∈ ws)
    {p : Hash32} (h : dag.Reaches p u.vertex.hash) :
    ∃ w, w.vertex.hash = p ∧ ParentPath ws u.vertex.hash w := by
  induction h using Relation.ReflTransGen.head_induction_on with
  | refl => exact ⟨u, rfl, .anchor hu rfl⟩
  | head hstep _ ih =>
    obtain ⟨w, rfl, hpath⟩ := ih
    obtain ⟨v, hv, hhash, hw⟩ := hdag.shows.parents_shown hstep
    exact ⟨v, hhash, .parent hv hw hpath⟩

theorem reaches_of_path (hdag : dag.Holds ws) {v : CertifiedVertex} (h : ParentPath ws a v) :
    dag.Reaches v.vertex.hash a := by
  induction h with
  | anchor hv ha =>
    rw [ha]
    exact Relation.ReflTransGen.refl
  | parent hv hw hpath ih =>
    refine Search.reach_of_step ?_ ih
    rwa [hdag.parents_of_mem hv]

theorem supports_iff_path (hdag : dag.Holds ws) {u : CertifiedVertex} (hu : u ∈ ws)
    {v : CertifiedVertex} (hv : v ∈ ws) :
    dag.Supports v u.vertex.hash ↔ ParentPath ws u.vertex.hash v := by
  constructor
  · rintro (ha | ⟨p, hp, hreach⟩)
    · exact .anchor hv ha
    · obtain ⟨w, rfl, hpath⟩ := path_of_reaches hdag hu hreach
      exact .parent hv hp hpath
  · intro h
    cases h with
    | anchor _ ha => exact Or.inl ha
    | parent _ hw hpath => exact Or.inr ⟨_, hw, reaches_of_path hdag hpath⟩

theorem commitsBy_anchor {cfg : Config} {set : ValidatorSet} {author : ValidatorId}
    {wave : WaveId} {timedOut : Bool} (hslot : SlotUnique ws) {u : CertifiedVertex} (hu : u ∈ ws)
    (hround : u.vertex.round = firstRound wave) (hauthor : u.vertex.author = author) :
    CommitsBy cfg set ws author wave timedOut a ↔
      u.vertex.hash = a ∧ BackedInTime cfg set ws wave timedOut u.vertex.hash := by
  constructor
  · rintro ⟨⟨v, hv, hvround, hvauthor, rfl⟩, hback⟩
    rw [hslot u hu v hv (hround.trans hvround.symm) (hauthor.trans hvauthor.symm)]
    exact ⟨rfl, hback⟩
  · rintro ⟨rfl, hback⟩
    exact ⟨⟨u, hu, hround, hauthor, rfl⟩, hback⟩

/- Larger views. -/

theorem ParentPath.mono {ws' : List CertifiedVertex} (hsub : ws ⊆ ws') {v : CertifiedVertex}
    (h : ParentPath ws a v) : ParentPath ws' a v := by
  induction h with
  | anchor hv ha => exact .anchor (hsub hv) ha
  | parent hv hw _ ih => exact .parent (hsub hv) hw ih

theorem PathBacked.mono {set : ValidatorSet} {ws' : List CertifiedVertex} {r window : ℕ}
    (h : PathBacked set ws a r window) (hsub : ws ⊆ ws') : PathBacked set ws' a r window := by
  obtain ⟨S, hle, hS⟩ := h
  refine ⟨S, hle, ?_⟩
  intro x hx
  obtain ⟨v, hv, hlt, hwin, hauthor, hpath⟩ := hS x hx
  exact ⟨v, hsub hv, hlt, hwin, hauthor, hpath.mono hsub⟩

theorem CommitsBy.mono {cfg : Config} {set : ValidatorSet} {ws' : List CertifiedVertex}
    {author : ValidatorId} {wave : WaveId} {t t' : Bool}
    (h : CommitsBy cfg set ws author wave t a) (hsub : ws ⊆ ws') (ht : t = true → t' = true) :
    CommitsBy cfg set ws' author wave t' a := by
  obtain ⟨⟨v, hv, hanchor⟩, hback⟩ := h
  refine ⟨⟨v, hsub hv, hanchor⟩, ?_⟩
  cases hback with
  | inl hshort => exact Or.inl (hshort.mono hsub)
  | inr hslow => exact Or.inr ⟨ht hslow.1, hslow.2.mono hsub⟩

end Paths
section Search
variable {cr : Crypto} {cfg : Config} {set : ValidatorSet} {wave : WaveId} {ctx : HostContext}
  {ws : List CertifiedVertex}

theorem pathBacked_iff (hdag : ctx.dag.Holds ws) (hroom : Roomy ws ctx) {u : CertifiedVertex}
    (hu : u ∈ ws) (set : ValidatorSet) (r window : ℕ) :
    ∃ S, countSupporters u.vertex.hash r ctx window = .ok S ∧
      (2 * ((set.entries.length - 1) / 3) + 1 ≤ S.card ↔
        PathBacked set ws u.vertex.hash r window) := by
  obtain ⟨S, hS, hmem⟩ := countSupporters_shown hdag.shows (List.Subset.refl ws) hroom
    u.vertex.hash r window
  refine ⟨S, hS, ?_, ?_⟩
  · intro hle
    refine ⟨S, hle, ?_⟩
    intro x hx
    obtain ⟨v, hv, hlt, hwin, hauthor, hsup⟩ := (hmem x).mp hx
    exact ⟨v, hv, hlt, hwin, hauthor, (supports_iff_path hdag hu hv).mp hsup⟩
  · rintro ⟨T, hle, hT⟩
    refine hle.trans (Finset.card_le_card ?_)
    intro x hx
    obtain ⟨v, hv, hlt, hwin, hauthor, hpath⟩ := hT x hx
    exact (hmem x).mpr ⟨v, hv, hlt, hwin, hauthor, (supports_iff_path hdag hu hv).mpr hpath⟩

theorem find_anchor (hdag : ctx.dag.Holds ws) (hslot : SlotUnique ws) {r : Round}
    {vs : List CertifiedVertex} (hvs : ctx.dag.verticesAtRound r = .ok vs) (author : ValidatorId)
    (v : CertifiedVertex) :
    vs.find? (fun v => decide (v.vertex.author = author)) = some v ↔
      v ∈ ws ∧ v.vertex.round = r ∧ v.vertex.author = author := by
  have hlisted := hdag.listed r vs hvs
  constructor
  · intro h
    obtain ⟨hv, hround⟩ := (hlisted v).mp (List.mem_of_find?_eq_some h)
    exact ⟨hv, hround, by simpa using List.find?_some h⟩
  · rintro ⟨hv, hround, hauthor⟩
    have hsome : (vs.find? fun v => decide (v.vertex.author = author)).isSome := by
      rw [List.find?_isSome]
      exact ⟨v, (hlisted v).mpr ⟨hv, hround⟩, decide_eq_true hauthor⟩
    obtain ⟨w, hw⟩ := Option.isSome_iff_exists.mp hsome
    obtain ⟨hmem, hround'⟩ := (hlisted w).mp (List.mem_of_find?_eq_some hw)
    have hauthor' : w.vertex.author = author := by simpa using List.find?_some hw
    rwa [hslot w hmem v hv (hround'.trans hround.symm) (hauthor'.trans hauthor.symm)] at hw

/-- Once the anchor author is known, the wave is decided, by the paths of the view. -/
theorem tryCommitWave_decides (cfg : Config) (hdag : ctx.dag.Holds ws) (hslot : SlotUnique ws)
    (hroom : Roomy ws ctx) {author : ValidatorId}
    (hselect : selectAnchor cr wave set ctx = .ok author) (timedOut : Bool) :
    ∃ decision, tryCommitWave cr wave cfg set ctx timedOut = .ok decision ∧
      ∀ a, decision.map (·.anchorHash) = some a ↔ CommitsBy cfg set ws author wave timedOut a := by
  obtain ⟨vs, hvs⟩ := hdag.total.atRound (firstRound wave)
  have hanchor := find_anchor hdag hslot hvs author
  cases hfind : vs.find? fun v => decide (v.vertex.author = author) with
  | none =>
    refine ⟨none, tryCommitWave_absent hselect hvs hfind timedOut, ?_⟩
    intro a
    refine iff_of_false (by simp) ?_
    rintro ⟨⟨v, hv, hround, hauthor, -⟩, -⟩
    rw [(hanchor v).mpr ⟨hv, hround, hauthor⟩] at hfind
    cases hfind
  | some u =>
    obtain ⟨hu, hround, hauthor⟩ := (hanchor u).mp hfind
    obtain ⟨S, hS, hshort⟩ := pathBacked_iff hdag hroom hu set (firstRound wave)
      cfg.bullshark.shortcutRoundCount
    obtain ⟨T, hT, hslow⟩ := pathBacked_iff hdag hroom hu set (firstRound wave)
      cfg.bullshark.slowPathRoundCount
    refine ⟨_, tryCommitWave_counted timedOut hselect hvs hfind hS hT, ?_⟩
    intro a
    rw [commitsBy_anchor hslot hu hround hauthor, BackedInTime, ← hshort, ← hslow]
    split
    · rename_i hle
      simp [hle]
    rename_i hfew
    split
    · rename_i hle
      simp [hle]
    · rename_i hfew'
      exact iff_of_false (by simp) fun h => h.2.elim hfew hfew'

/-- `wave` is committed in that view, by the anchor `a`. -/
def CommitsAnchor (cr : Crypto) (wave : WaveId) (cfg : Config) (set : ValidatorSet)
    (ctx : HostContext) (timedOut : Bool) (a : Hash32) : Prop :=
  ∃ d, tryCommitWave cr wave cfg set ctx timedOut = .ok (some d) ∧ d.anchorHash = a

theorem commits_iff (hdag : ctx.dag.Holds ws) (hslot : SlotUnique ws) (hroom : Roomy ws ctx)
    (timedOut : Bool) (a : Hash32) :
    CommitsAnchor cr wave cfg set ctx timedOut a ↔
      ∃ author, selectAnchor cr wave set ctx = .ok author ∧
        CommitsBy cfg set ws author wave timedOut a := by
  constructor
  · rintro ⟨d, hd, rfl⟩
    obtain ⟨-, author, -, -, hselect, -⟩ := tryCommitWave_anchor hd
    obtain ⟨decision, hdecision, hiff⟩ :=
      tryCommitWave_decides cfg hdag hslot hroom hselect timedOut
    cases hd.symm.trans hdecision
    exact ⟨author, hselect, (hiff _).mp rfl⟩
  · rintro ⟨author, hselect, hcommits⟩
    obtain ⟨decision, hdecision, hiff⟩ :=
      tryCommitWave_decides cfg hdag hslot hroom hselect timedOut
    obtain ⟨d, rfl, hhash⟩ := Option.map_eq_some_iff.mp ((hiff a).mpr hcommits)
    exact ⟨d, hdecision, hhash⟩

theorem selectAnchor_beacon {ctx' : HostContext} (h : ctx'.beacon = ctx.beacon) :
    selectAnchor cr wave set ctx' = selectAnchor cr wave set ctx := by
  unfold selectAnchor
  rw [h]

end Search

/-- The commit rule. Over a finite view with one vertex for each slot, `try_commit_wave` returns
once the anchor author is known; it commits exactly the vertex of that author, exactly if `2f+1`
authors have a path to it from the window; and what it commits stays committed in every larger
view, and after the timeout. -/
theorem commit_rule (cr : Crypto) (wave : WaveId) (cfg : Config) (set : ValidatorSet)
    (ctx : HostContext) (ws : List CertifiedVertex) (hdag : ctx.dag.Holds ws)
    (hslot : SlotUnique ws) (hroom : Roomy ws ctx) :
    (∀ author, selectAnchor cr wave set ctx = .ok author → ∀ timedOut,
      ∃ decision, tryCommitWave cr wave cfg set ctx timedOut = .ok decision) ∧
    (∀ timedOut a, CommitsAnchor cr wave cfg set ctx timedOut a ↔
      ∃ author, selectAnchor cr wave set ctx = .ok author ∧
        CommitsBy cfg set ws author wave timedOut a) ∧
    ∀ (timedOut timedOut' : Bool) (a : Hash32) (ctx' : HostContext) (ws' : List CertifiedVertex),
      CommitsAnchor cr wave cfg set ctx timedOut a → (timedOut = true → timedOut' = true) →
      ctx'.dag.Holds ws' → SlotUnique ws' → Roomy ws' ctx' → ws ⊆ ws' →
      ctx'.beacon = ctx.beacon → CommitsAnchor cr wave cfg set ctx' timedOut' a := by
  refine ⟨?_, commits_iff hdag hslot hroom, ?_⟩
  · intro author hselect timedOut
    obtain ⟨decision, hdecision, -⟩ := tryCommitWave_decides cfg hdag hslot hroom hselect timedOut
    exact ⟨decision, hdecision⟩
  · intro timedOut timedOut' a ctx' ws' h ht hdag' hslot' hroom' hsub hbeacon
    obtain ⟨author, hselect, hcommits⟩ := (commits_iff hdag hslot hroom timedOut a).mp h
    refine (commits_iff hdag' hslot' hroom' timedOut' a).mpr ⟨author, ?_, hcommits.mono hsub ht⟩
    rw [selectAnchor_beacon hbeacon, hselect]

section Devnet
open Devnet

/-- One round after the anchor has the authors to commit it; with one more, and after the timeout,
it is committed still. -/
theorem commit_rule_devnet :
    CommitsBy config validators (verticesUpTo 5) ⟨0⟩ 1 false (vertexHash 4 0) ∧
      CommitsAnchor openCrypto 1 config validators ((ports 0 0).holding (verticesUpTo 6)) true
        (vertexHash 4 0) := by
  obtain ⟨-, hiff, hmono⟩ := commit_rule openCrypto 1 config validators
    ((ports 0 0).holding (verticesUpTo 5)) (verticesUpTo 5) (LiveDag.view_holds (by decide))
    (by decide) (by decide)
  have hcommits : CommitsAnchor openCrypto 1 config validators
      ((ports 0 0).holding (verticesUpTo 5)) false (vertexHash 4 0) :=
    ⟨⟨1, .shortcut, vertexHash 4 0⟩, by decide, rfl⟩
  obtain ⟨author, hselect, hback⟩ := (hiff false (vertexHash 4 0)).mp hcommits
  have hauthor : selectAnchor openCrypto 1 validators ((ports 0 0).holding (verticesUpTo 5)) =
      .ok ⟨0⟩ := by decide
  cases hauthor.symm.trans hselect
  exact ⟨hback, hmono false true (vertexHash 4 0) ((ports 0 0).holding (verticesUpTo 6))
    (verticesUpTo 6) hcommits (by decide) (LiveDag.view_holds (by decide)) (by decide) (by decide)
    (by decide) rfl⟩

end Devnet
end LuaDag
