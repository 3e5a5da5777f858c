import LuaDag.Linearization

/-! What waves yield. Every wave has one micro QC that it can yield from all vertices there
are; a pass over the waves, from views that hold the past of the anchors it commits, emits
these micro QCs in order. -/
namespace LuaDag
open MacroFin Bullshark

/-- Ports of a node over views of `vs`: one set, one beacon, and nothing that makes a call
fail. -/
structure SteadyPorts (vs : List CertifiedVertex) (set : ValidatorSet) (beacon : Hash32)
    (ctx : HostContext) : Prop where
  setFor : ctx.setFor 0 = .ok (some set)
  size : 2 ≤ set.entries.length ∧ set.entries.length < 2 ^ 32
  beacon : ctx.beacon = .ok beacon
  prove : ∀ m, ∃ proof, ctx.vrfProve m = .ok proof
  room : Roomy vs ctx

section Attempts
variable {cr : Crypto} {cfg : Config} {vs held : List CertifiedVertex} {set : ValidatorSet}
  {beacon : Hash32} {ctx ref : HostContext}

theorem SteadyPorts.activeSet (h : SteadyPorts vs set beacon ctx) :
    activeSet (ctx.holding held) = .ok set := by
  simp [LuaDag.activeSet, HostContext.holding, h.setFor]

theorem SteadyPorts.nonempty (h : SteadyPorts vs set beacon ctx) : set.entries ≠ [] := by
  intro hnil
  have hsize := h.size.1
  rw [hnil] at hsize
  exact absurd hsize (by decide)

theorem SteadyPorts.selectAnchor (h : SteadyPorts vs set beacon ctx)
    (hrefs : SteadyPorts vs set beacon ref) (wave : WaveId) :
    Bullshark.selectAnchor cr wave set ctx = Bullshark.selectAnchor cr wave set ref := by
  unfold Bullshark.selectAnchor
  rw [h.beacon, hrefs.beacon]

theorem SteadyPorts.tryCommitWave (h : SteadyPorts vs set beacon ctx) (hsub : held ⊆ vs)
    (wave : WaveId) (t : Bool) :
    ∃ r, Bullshark.tryCommitWave cr wave cfg set (ctx.holding held) t = .ok r := by
  obtain ⟨e, -, hauthor, -⟩ := @selectAnchor_spec cr wave set (ctx.holding held) beacon
    h.nonempty h.beacon
  have hne : set.entries.isEmpty = false := by simpa using h.nonempty
  have hat : (ctx.holding held).dag.verticesAtRound (firstRound wave) =
      .ok (held.filter fun v => decide (v.vertex.round = firstRound wave)) := by
    simp only [HostContext.holding, LiveDag.view, LiveDag.byRound_of]
  unfold Bullshark.tryCommitWave
  simp only [hne, hauthor, hat, Bool.false_eq_true, if_false]
  split
  · exact ⟨none, rfl⟩
  rename_i v _
  obtain ⟨S, hS, -⟩ := countSupporters_spec hsub h.room v.vertex.hash (firstRound wave)
    cfg.bullshark.shortcutRoundCount
  obtain ⟨T, hT, -⟩ := countSupporters_spec hsub h.room v.vertex.hash (firstRound wave)
    cfg.bullshark.slowPathRoundCount
  simp only [hS, hT]
  split
  · exact ⟨_, rfl⟩
  split
  · split
    · exact ⟨_, rfl⟩
    · exact ⟨_, rfl⟩
  · exact ⟨_, rfl⟩

theorem SteadyPorts.anchorPresent (h : SteadyPorts vs set beacon ctx) (wave : WaveId) :
    ∃ r, Bullshark.anchorPresent cr wave set (ctx.holding held) = .ok r := by
  obtain ⟨e, -, hauthor, -⟩ := @selectAnchor_spec cr wave set (ctx.holding held) beacon
    h.nonempty h.beacon
  unfold Bullshark.anchorPresent
  rw [hauthor]
  exact ⟨_, rfl⟩

/-- A wave that cannot be committed is left as it is. -/
theorem SteadyPorts.attempt_idle (h : SteadyPorts vs set beacon ctx) (hsub : held ⊆ vs)
    {wave : WaveId} {t : Bool} (hno : ∀ a, ¬ CanCommit cr cfg (ctx.holding held) wave t a)
    (book : WaveBook) :
    ∃ acts, (tryEmitForWave cr wave cfg (ctx.holding held) t book).result = .ok acts ∧
      acts.filterMap microQcHash = [] ∧
      (tryEmitForWave cr wave cfg (ctx.holding held) t book).state.core = book.core := by
  obtain ⟨r, hr⟩ := @SteadyPorts.tryCommitWave cr cfg vs held set beacon ctx h hsub wave t
  obtain ⟨present, hpresent⟩ := @SteadyPorts.anchorPresent cr vs held set beacon ctx h wave
  have hset : (ctx.holding held).setFor 0 = .ok (some set) := h.setFor
  unfold tryEmitForWave
  split
  · exact ⟨[], rfl, rfl, rfl⟩
  simp only [hset, hr]
  cases r with
  | some d => exact absurd ⟨set, d, hset, hr, rfl⟩ (hno d.anchorHash)
  | none =>
    dsimp only
    unfold armSlowTimer
    split
    · rw [hpresent]
      cases present with
      | false => exact ⟨[], rfl, rfl, rfl⟩
      | true => exact ⟨_, rfl, rfl, rfl⟩
    · exact ⟨[], rfl, rfl, rfl⟩

theorem attempt_commit {wave : WaveId} {t : Bool} {a : Hash32}
    (hcan : CanCommit cr cfg (ctx.holding held) wave t a) {book : WaveBook}
    (hnew : wave ∉ book.committedWaves) {qc : Option MicroQc}
    (hqc : freshQc cr a (ctx.holding held) book.emitted = .ok qc) :
    ∃ acts, (tryEmitForWave cr wave cfg (ctx.holding held) t book).result = .ok acts ∧
      acts.filterMap microQcHash = (qc.map (·.checkpointHash)).toList ∧
      (tryEmitForWave cr wave cfg (ctx.holding held) t book).state.core =
        ⟨insert wave book.committedWaves, noteQc qc book.emitted⟩ := by
  obtain ⟨set', d, hset', hd, rfl⟩ := hcan
  unfold tryEmitForWave
  rw [if_neg hnew]
  simp only [hset', hd]
  have hemit : ∀ (marked : WaveBook) (acts : List Action),
      marked.core = ⟨insert wave book.committedWaves, book.emitted⟩ →
      acts.filterMap microQcHash = [] →
      ∃ acts', ((Outcome.ok marked acts : Result WaveBook).andThen
          (emitCommitted cr d.anchorHash (ctx.holding held))).result = .ok acts' ∧
        acts'.filterMap microQcHash = (qc.map (·.checkpointHash)).toList ∧
        ((Outcome.ok marked acts : Result WaveBook).andThen
          (emitCommitted cr d.anchorHash (ctx.holding held))).state.core =
          ⟨insert wave book.committedWaves, noteQc qc book.emitted⟩ := by
    intro marked acts hmarked hacts
    have hemitted : marked.emitted = book.emitted := congrArg WaveCore.emitted hmarked
    have hcommitted : marked.committedWaves = insert wave book.committedWaves :=
      congrArg WaveCore.committed hmarked
    rw [Outcome.andThen_of_ok rfl, Outcome.ok_state, emitCommitted_eq, hemitted, hqc]
    cases qc with
    | none => exact ⟨acts ++ [], rfl, by simp [hacts], hmarked⟩
    | some qc =>
      refine ⟨acts ++ [.broadcastMicroQc qc], rfl, by simp [hacts, microQcHash], ?_⟩
      simp [WaveBook.core, hcommitted, noteQc]
  split
  · exact hemit _ [] rfl rfl
  · exact hemit _ _ rfl rfl

end Attempts

/- What a wave yields. -/

def PastHeld (vs : List CertifiedVertex) (a : Hash32) (dag : DagView) : Prop :=
  ∀ v ∈ vs, (LiveDag.of vs).view.Reaches a v.vertex.hash →
    ∃ u, dag.vertex v.vertex.hash = .ok (some u)

def finalQc (cr : Crypto) (ctx : HostContext) (vs : List CertifiedVertex) (a : Hash32) :
    Option Hash32 :=
  match freshQc cr a (ctx.holding vs) ∅ with
  | .ok (some qc) => some qc.checkpointHash
  | _ => none

section Final
variable {cr : Crypto} {vs held : List CertifiedVertex} {set : ValidatorSet}
  {beacon : Hash32} {ctx ref : HostContext} {a : Hash32}

theorem lookupAll_of (vs : List CertifiedVertex) (order : List Hash32) :
    lookupAll (LiveDag.of vs).view order =
      .ok (order.filterMap fun h => (LiveDag.of vs).byHash[h]?) := by
  induction order with
  | nil => rfl
  | cons h order ih =>
    have hv : (LiveDag.of vs).view.vertex h = .ok (LiveDag.of vs).byHash[h]? := rfl
    unfold lookupAll
    rw [hv, ih, List.filterMap_cons]
    cases (LiveDag.of vs).byHash[h]? with
    | none => rfl
    | some v => rfl

theorem microQcTryFinalize_congr {x : Hash32} {ls ls' : List CertifiedVertex}
    (hset : activeSet ctx = .ok set) (hset' : activeSet ref = .ok set)
    (h : ls.map (·.vertex) = ls'.map (·.vertex)) :
    microQcTryFinalize x ls ctx = microQcTryFinalize x ls' ref := by
  have hauthors : ls.map (·.vertex.author) = ls'.map (·.vertex.author) := by
    have hmap := congrArg (List.map Vertex.author) h
    rw [List.map_map, List.map_map] at hmap
    exact hmap
  unfold microQcTryFinalize
  rw [hset, hset', hauthors]

/-- A view that holds the past looks it up as `vs` does. -/
theorem PastHeld.lookup (h : PastHeld vs a (LiveDag.of held).view) (hvs : Coherent vs)
    (hsub : held ⊆ vs) {b : Hash32} (hb : (LiveDag.of vs).view.Reaches a b) :
    (LiveDag.of vs).byHash[b]?.map (·.vertex) = (LiveDag.of held).byHash[b]?.map (·.vertex) := by
  cases hv : (LiveDag.of vs).byHash[b]? with
  | none =>
    cases hu : (LiveDag.of held).byHash[b]? with
    | none => rfl
    | some u =>
      obtain ⟨hmem, rfl⟩ := LiveDag.byHash_some hu
      obtain ⟨w, hw⟩ := LiveDag.byHash_of_mem (hsub hmem)
      rw [hv] at hw
      cases hw
  | some v =>
    obtain ⟨hmem, rfl⟩ := LiveDag.byHash_some hv
    obtain ⟨u, hu⟩ := h v hmem hb
    have hu' : (LiveDag.of held).byHash[v.vertex.hash]? = some u := Except.ok.inj hu
    obtain ⟨humem, huhash⟩ := LiveDag.byHash_some hu'
    rw [hu', Option.map_some, Option.map_some, hvs.hash v hmem u (hsub humem) huhash.symm]

theorem parents_eq (vs : List CertifiedVertex) (b : Hash32) :
    (LiveDag.of vs).view.parents b =
      ((LiveDag.of vs).byHash[b]?.map (·.vertex)).elim [] (·.parents) := by
  simp only [DagView.parents, LiveDag.view]
  cases (LiveDag.of vs).byHash[b]? with
  | none => rfl
  | some v => rfl

theorem PastHeld.closure (h : PastHeld vs a (LiveDag.of held).view) (hvs : Coherent vs)
    (hsub : held ⊆ vs) {order order' : List Hash32}
    (horder : closureOfAnchor a (ctx.holding held) = .ok order)
    (horder' : closureOfAnchor a (ref.holding vs) = .ok order') : order' = order := by
  refine closureOfAnchor_agree horder' horder ?_
  intro b hb
  have hlook : (LiveDag.of vs).view.parents b = (LiveDag.of held).view.parents b := by
    rw [parents_eq, parents_eq, h.lookup hvs hsub hb]
  exact hlook

theorem microQcTryFinalize_returns (hset : activeSet ctx = .ok set) (x : Hash32)
    (ls : List CertifiedVertex) : ∃ r, microQcTryFinalize x ls ctx = .ok r := by
  unfold microQcTryFinalize
  rw [hset]
  dsimp only
  split
  · exact ⟨_, rfl⟩
  split
  · exact ⟨_, rfl⟩
  · exact ⟨_, rfl⟩

theorem freshQc_holding {order : List Hash32} {r : Option MicroQc}
    (horder : closureOfAnchor a (ctx.holding held) = .ok order)
    (hr : microQcTryFinalize (checkpointHashFromLinearization cr order)
      (order.filterMap fun x => (LiveDag.of held).byHash[x]?) (ctx.holding held) = .ok r)
    (emitted : Finset Hash32) :
    freshQc cr a (ctx.holding held) emitted =
      .ok (if checkpointHashFromLinearization cr order ∈ emitted then none else r) := by
  have hdag : (ctx.holding held).dag = (LiveDag.of held).view := rfl
  unfold freshQc
  simp only [horder, hdag, lookupAll_of, hr]
  by_cases hold : checkpointHashFromLinearization cr order ∈ emitted
  · rw [if_pos hold, if_pos hold]
  · rw [if_neg hold, if_neg hold]

theorem freshQc_of_past (h : SteadyPorts vs set beacon ctx) (href : SteadyPorts vs set beacon ref)
    (hvs : Coherent vs) (hsub : held ⊆ vs) (ha : a ∈ hashesOf vs)
    (hpast : PastHeld vs a (LiveDag.of held).view) (emitted : Finset Hash32) :
    ∃ qc, freshQc cr a (ctx.holding held) emitted = .ok qc ∧
      qc.map (·.checkpointHash) =
        (finalQc cr ref vs a).filter fun x => decide (x ∉ emitted) := by
  obtain ⟨order, horder⟩ := closureOfAnchor_returns hsub h.room ha
  obtain ⟨order', horder'⟩ := closureOfAnchor_returns (List.Subset.refl _) href.room ha
  obtain rfl := hpast.closure hvs hsub horder horder'
  have hmaps : (order'.filterMap fun x => (LiveDag.of held).byHash[x]?).map (·.vertex) =
      (order'.filterMap fun x => (LiveDag.of vs).byHash[x]?).map (·.vertex) := by
    rw [List.map_filterMap, List.map_filterMap]
    refine List.filterMap_congr ?_
    intro b hb
    exact (hpast.lookup hvs hsub ((mem_closureOfAnchor horder' b).mp hb)).symm
  have hqc := @microQcTryFinalize_congr set (ctx.holding held) (ref.holding vs)
    (checkpointHashFromLinearization cr order') _ _ h.activeSet href.activeSet hmaps
  obtain ⟨r, hr⟩ := microQcTryFinalize_returns (@SteadyPorts.activeSet vs vs set beacon ref href)
    (checkpointHashFromLinearization cr order')
    (order'.filterMap fun x => (LiveDag.of vs).byHash[x]?)
  have hfinal : finalQc cr ref vs a = r.map (·.checkpointHash) := by
    unfold finalQc
    rw [freshQc_holding horder' hr, if_neg (Finset.notMem_empty _)]
    cases r with
    | none => rfl
    | some qc => rfl
  refine ⟨_, freshQc_holding horder (hqc.trans hr) emitted, ?_⟩
  rw [hfinal]
  cases r with
  | none => simp
  | some qc =>
    rw [Option.map_some, microQcTryFinalize_hash hr, Option.filter_some]
    by_cases hold : checkpointHashFromLinearization cr order' ∈ emitted
    · rw [if_pos hold, if_neg (by simpa)]
      rfl
    · rw [if_neg hold, if_pos (by simpa), Option.map_some, microQcTryFinalize_hash hr]

end Final

def LiveWave (cr : Crypto) (cfg : Config) (ctx : HostContext) (vs : List CertifiedVertex)
    (wave : WaveId) : Prop :=
  ∃ a, CanCommit cr cfg (ctx.holding vs) wave true a

open Classical in
noncomputable def waveQc (cr : Crypto) (cfg : Config) (ctx : HostContext)
    (vs : List CertifiedVertex) (wave : WaveId) : Option Hash32 :=
  if h : LiveWave cr cfg ctx vs wave then finalQc cr ctx vs h.choose else none

section Waves
variable {cr : Crypto} {cfg : Config} {vs held : List CertifiedVertex} {set : ValidatorSet}
  {beacon : Hash32} {ctx ref : HostContext} {wave : WaveId} {t : Bool} {a : Hash32}

/-- A commit from some view is possible from all of `vs`, under any such ports. -/
theorem canCommit_all (h : SteadyPorts vs set beacon ctx) (href : SteadyPorts vs set beacon ref)
    (hvs : Coherent vs) (hsub : held ⊆ vs) (hcan : CanCommit cr cfg (ctx.holding held) wave t a) :
    CanCommit cr cfg (ref.holding vs) wave true a := by
  have hall := canCommit_mono hvs hsub h.room hcan
  rw [canCommit_iff hvs (List.Subset.refl _) h.room] at hall
  rw [canCommit_iff hvs (List.Subset.refl _) href.room]
  obtain ⟨set', author, hset, hne, hauthor, hrest⟩ := hall
  rw [h.setFor] at hset
  cases hset
  rw [h.selectAnchor href] at hauthor
  exact ⟨set, author, href.setFor, hne, hauthor, hrest⟩

theorem anchor_unique (h : SteadyPorts vs set beacon ctx) (hvs : Coherent vs) {t' : Bool}
    {a' : Hash32} (hcan : CanCommit cr cfg (ctx.holding vs) wave t a)
    (hcan' : CanCommit cr cfg (ctx.holding vs) wave t' a') : a = a' := by
  rw [canCommit_iff hvs (List.Subset.refl _) h.room] at hcan hcan'
  obtain ⟨s, author, hs, -, hauthor, ⟨v, hv, hround, hva, hhash⟩, -⟩ := hcan
  obtain ⟨s', author', hs', -, hauthor', ⟨v', hv', hround', hva', hhash'⟩, -⟩ := hcan'
  rw [hs, Except.ok.injEq, Option.some.injEq] at hs'
  subst hs'
  rw [hauthor, Except.ok.injEq] at hauthor'
  subst hauthor'
  rw [← hhash, ← hhash', hvs.slot v hv v' hv' (hround.trans hround'.symm) (hva.trans hva'.symm)]

theorem waveQc_eq (h : SteadyPorts vs set beacon ctx) (hvs : Coherent vs)
    (hcan : CanCommit cr cfg (ctx.holding vs) wave true a) :
    waveQc cr cfg ctx vs wave = finalQc cr ctx vs a := by
  have hlive : LiveWave cr cfg ctx vs wave := ⟨a, hcan⟩
  unfold waveQc
  rw [dif_pos hlive, anchor_unique h hvs hlive.choose_spec hcan]

theorem anchor_held (h : SteadyPorts vs set beacon ctx) (hvs : Coherent vs)
    (hcan : CanCommit cr cfg (ctx.holding vs) wave t a) : a ∈ hashesOf vs := by
  obtain ⟨v, hv, -, rfl⟩ := canCommit_anchor hvs (List.Subset.refl _) h.room hcan
  exact (mem_hashesOf hv).1

end Waves

/- Passes over the waves. -/

def emitWave (qcOf : WaveId → Option Hash32) (sent : List Hash32) (wave : WaveId) : List Hash32 :=
  sent ++ ((qcOf wave).filter fun x => decide (x ∉ sent)).toList

theorem prefix_emitWave (qcOf : WaveId → Option Hash32) (sent : List Hash32) (wave : WaveId) :
    sent <+: emitWave qcOf sent wave :=
  List.prefix_append _ _

/-- The book after the waves `ws` have been committed in this order and `sent` emitted. -/
structure Ordered (qcOf : WaveId → Option Hash32) (ws : List WaveId) (sent : List Hash32)
    (book : WaveBook) : Prop where
  committed : book.committedWaves = ws.toFinset
  emitted : book.emitted = sent.toFinset
  order : sent = ws.foldl (emitWave qcOf) []

section Pass
variable {cr : Crypto} {cfg : Config} {vs held : List CertifiedVertex} {set : ValidatorSet}
  {beacon : Hash32} {ctx ref : HostContext} {ws : List WaveId} {sent : List Hash32}

theorem Ordered.idle {qcOf : WaveId → Option Hash32} {book book' : WaveBook}
    (h : Ordered qcOf ws sent book) (hcore : book'.core = book.core) :
    Ordered qcOf ws sent book' :=
  ⟨(congrArg WaveCore.committed hcore).trans h.committed,
    (congrArg WaveCore.emitted hcore).trans h.emitted, h.order⟩

/-- A commit from a view that holds the past of its anchor. -/
theorem Ordered.commit {book : WaveBook} {wave : WaveId} {t : Bool} {a : Hash32}
    (hord : Ordered (waveQc cr cfg ref vs) ws sent book) (h : SteadyPorts vs set beacon ctx)
    (href : SteadyPorts vs set beacon ref) (hvs : Coherent vs) (hsub : held ⊆ vs)
    (hnew : wave ∉ book.committedWaves) (hcan : CanCommit cr cfg (ctx.holding held) wave t a)
    (hpast : PastHeld vs a (LiveDag.of held).view) :
    ∃ acts, (tryEmitForWave cr wave cfg (ctx.holding held) t book).result = .ok acts ∧
      Ordered (waveQc cr cfg ref vs) (ws ++ [wave]) (sent ++ acts.filterMap microQcHash)
        (tryEmitForWave cr wave cfg (ctx.holding held) t book).state := by
  have hall := canCommit_all h href hvs hsub hcan
  obtain ⟨qc, hqc, hhash⟩ := @freshQc_of_past cr vs held set beacon ctx ref a h href hvs hsub
    (anchor_held href hvs hall) hpast book.emitted
  obtain ⟨acts, hres, hacts, hcore⟩ := attempt_commit hcan hnew hqc
  have hsent : sent ++ acts.filterMap microQcHash = emitWave (waveQc cr cfg ref vs) sent wave := by
    rw [hacts, hhash, hord.emitted, emitWave, waveQc_eq href hvs hall]
    simp only [List.mem_toFinset]
  refine ⟨acts, hres, ⟨?_, ?_, ?_⟩⟩
  · have hcommitted : (tryEmitForWave cr wave cfg (ctx.holding held) t book).state.committedWaves =
        insert wave book.committedWaves := congrArg WaveCore.committed hcore
    rw [hcommitted, hord.committed, List.toFinset_append]
    ext x
    simp
  · have hemitted : (tryEmitForWave cr wave cfg (ctx.holding held) t book).state.emitted =
        noteQc qc book.emitted := congrArg WaveCore.emitted hcore
    rw [hemitted, hacts, List.toFinset_append, ← hord.emitted]
    cases qc with
    | none => simp [noteQc]
    | some qc =>
      ext x
      simp [noteQc]
  · rw [hsent, List.foldl_append, ← hord.order]
    rfl

def Commits (cr : Crypto) (cfg : Config) (ctx : HostContext) (committed : Finset Nat)
    (wave : WaveId) : Prop :=
  wave ∉ committed ∧ ∃ a, CanCommit cr cfg ctx wave false a

open Classical in
theorem Ordered.attempt (h : SteadyPorts vs set beacon ctx) (href : SteadyPorts vs set beacon ref)
    (hvs : Coherent vs) (hsub : held ⊆ vs) {before : Finset Nat} {wave : WaveId} {book : WaveBook}
    (hord : Ordered (waveQc cr cfg ref vs) ws sent book)
    (hsame : wave ∈ book.committedWaves ↔ wave ∈ before)
    (hpast : ∀ a, wave ∉ before → CanCommit cr cfg (ctx.holding held) wave false a →
      PastHeld vs a (LiveDag.of held).view) :
    ∃ acts, (if wave ∈ book.committedWaves then Outcome.quiet book
        else tryEmitForWave cr wave cfg (ctx.holding held) false book).result = .ok acts ∧
      Ordered (waveQc cr cfg ref vs)
        (ws ++ [wave].filter fun w => decide (Commits cr cfg (ctx.holding held) before w))
        (sent ++ acts.filterMap microQcHash)
        (if wave ∈ book.committedWaves then Outcome.quiet book
          else tryEmitForWave cr wave cfg (ctx.holding held) false book).state := by
  by_cases hold : wave ∈ book.committedWaves
  · have hno : ¬ Commits cr cfg (ctx.holding held) before wave := fun hc => hc.1 (hsame.mp hold)
    rw [if_pos hold]
    refine ⟨[], rfl, ?_⟩
    simpa [hno] using hord
  rw [if_neg hold]
  have hnew : wave ∉ before := fun hin => hold (hsame.mpr hin)
  by_cases hcan : ∃ a, CanCommit cr cfg (ctx.holding held) wave false a
  · have hyes : Commits cr cfg (ctx.holding held) before wave := ⟨hnew, hcan⟩
    obtain ⟨a, ha⟩ := hcan
    have hcommit := hord.commit h href hvs hsub hold ha (hpast a hnew ha)
    simpa [hyes] using hcommit
  · have hno : ¬ Commits cr cfg (ctx.holding held) before wave := fun hc => hcan hc.2
    obtain ⟨acts, hres, hacts, hcore⟩ := h.attempt_idle hsub (fun a ha => hcan ⟨a, ha⟩) book
    refine ⟨acts, hres, ?_⟩
    simpa [hno, hacts] using hord.idle hcore

open Classical in
/-- A pass over the waves `l` commits those that can be committed, in order. -/
theorem Ordered.pass (h : SteadyPorts vs set beacon ctx) (href : SteadyPorts vs set beacon ref)
    (hvs : Coherent vs) (hsub : held ⊆ vs) (before : Finset Nat)
    (l : List WaveId) (hnodup : l.Nodup)
    (hpast : ∀ w ∈ l, ∀ a, w ∉ before → CanCommit cr cfg (ctx.holding held) w false a →
      PastHeld vs a (LiveDag.of held).view)
    {o : Result WaveBook} {acts : List Action} (ho : o.result = .ok acts)
    (hsame : ∀ w ∈ l, w ∈ o.state.committedWaves ↔ w ∈ before)
    (hord : Ordered (waveQc cr cfg ref vs) ws (sent ++ acts.filterMap microQcHash) o.state) :
    ∃ acts', (l.foldl (fun o w => o.andThen fun book =>
        if w ∈ book.committedWaves then .quiet book
        else tryEmitForWave cr w cfg (ctx.holding held) false book) o).result = .ok acts' ∧
      Ordered (waveQc cr cfg ref vs)
        (ws ++ l.filter fun w => decide (Commits cr cfg (ctx.holding held) before w))
        (sent ++ acts'.filterMap microQcHash)
        (l.foldl (fun o w => o.andThen fun book =>
          if w ∈ book.committedWaves then .quiet book
          else tryEmitForWave cr w cfg (ctx.holding held) false book) o).state := by
  induction l generalizing ws o acts with
  | nil => exact ⟨acts, ho, by simpa using hord⟩
  | cons w l ih =>
    have hrest := List.nodup_cons.mp hnodup
    have hpast' : ∀ x ∈ l, ∀ a, x ∉ before → CanCommit cr cfg (ctx.holding held) x false a →
        PastHeld vs a (LiveDag.of held).view :=
      fun x hx => hpast x (List.mem_cons_of_mem _ hx)
    have hnext : ∃ acts', (o.andThen fun book =>
        if w ∈ book.committedWaves then Outcome.quiet book
        else tryEmitForWave cr w cfg (ctx.holding held) false book).result = .ok acts' ∧
        Ordered (waveQc cr cfg ref vs)
          (ws ++ [w].filter fun w => decide (Commits cr cfg (ctx.holding held) before w))
          (sent ++ acts'.filterMap microQcHash)
          (o.andThen fun book =>
            if w ∈ book.committedWaves then Outcome.quiet book
            else tryEmitForWave cr w cfg (ctx.holding held) false book).state := by
      obtain ⟨acts', hres, hstep⟩ := hord.attempt h href hvs hsub (hsame w (by simp))
        (hpast w (by simp))
      rw [Outcome.andThen_of_ok ho]
      refine ⟨acts ++ acts', by simp only [hres, Except.map], ?_⟩
      rw [List.filterMap_append, ← List.append_assoc]
      exact hstep
    obtain ⟨acts', hres', hord'⟩ := hnext
    rw [List.foldl_cons]
    -- the attempt touches `w` only: the waves ahead are committed as they were before the pass
    have hsame' : ∀ x ∈ l, x ∈ (o.andThen fun book =>
        if w ∈ book.committedWaves then Outcome.quiet book
        else tryEmitForWave cr w cfg (ctx.holding held) false book).state.committedWaves ↔
        x ∈ before := by
      intro x hx
      have hne : x ≠ w := fun heq => hrest.1 (heq ▸ hx)
      rw [← hsame x (List.mem_cons_of_mem _ hx), hord'.committed, hord.committed]
      simp only [List.mem_toFinset, List.mem_append, List.mem_filter, List.mem_singleton]
      constructor
      · rintro (hold | ⟨heq, -⟩)
        · exact hold
        · exact absurd heq hne
      · exact Or.inl
    obtain ⟨acts'', hres'', hord''⟩ := ih hrest.2 hpast' hres' hsame' hord'
    refine ⟨acts'', hres'', ?_⟩
    have hsplit : w :: l = [w] ++ l := rfl
    rw [hsplit, List.filter_append, ← List.append_assoc]
    exact hord''

end Pass

end LuaDag
