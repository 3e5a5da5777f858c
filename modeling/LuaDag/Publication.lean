import LuaDag.Linearization
import LuaDag.MicroRing
import Mathlib.Data.Set.Card

/-! What a committed wave publishes. A wave is marked before its checkpoint is known to have
a quorum of authors, and it is not tried again. -/
namespace LuaDag
open Bullshark MacroFin

def DagView.pastAuthors (dag : DagView) (a : Hash32) : Set ValidatorId :=
  {i | ∃ h v, dag.Reaches a h ∧ dag.vertex h = .ok (some v) ∧ v.vertex.author = i}

/-- Ports that do not fail, over a view whose walks end. -/
structure HostContext.Works (ctx : HostContext) : Prop where
  set : ∃ s, ctx.setFor 0 = .ok s
  beacon : ∃ b, ctx.beacon = .ok b
  prove : ∀ msg, ∃ p, ctx.vrfProve msg = .ok p
  dag : ctx.dag.Total
  walks : ∀ r vs, ctx.dag.verticesAtRound r = .ok vs → ∀ v ∈ vs,
    (∀ t, ∃ found, vertexReaches v t ctx = .ok found) ∧
      ∃ order, closureOfAnchor v.vertex.hash ctx = .ok order

def microQcOf : Action → Option MicroQc
  | .broadcastMicroQc qc => some qc
  | _ => none

def NodeCall.microQcs (cr : Crypto) (call : NodeCall) : List MicroQc :=
  (StateMachine.exec cr call.input call.pre).actions.filterMap microQcOf

theorem microQcHash_eq (a : Action) : microQcHash a = (microQcOf a).map (·.checkpointHash) := by
  cases a <;> rfl

theorem microQcOf_none {acts : List Action} (h : ∀ a ∈ acts, microQcHash a = none) :
    acts.filterMap microQcOf = [] := by
  refine List.filterMap_eq_nil_iff.mpr ?_
  intro a ha
  have hnone := h a ha
  rw [microQcHash_eq] at hnone
  exact Option.map_eq_none_iff.mp hnone

/-- Each wave that the call inserts into `committed_waves` emits one micro QC, on the
checkpoint of its anchor, and there are no others. -/
def CommitsPublish (cr : Crypto) (call : NodeCall) : Prop :=
  ∃ ps : List (WaveId × MicroQc), (ps.map (·.1)).Nodup ∧
    (∀ w, w ∈ ps.map (·.1) ↔
      w ∈ (StateMachine.exec cr call.input call.pre).state.waves.committedWaves ∧
        w ∉ call.pre.waves.committedWaves) ∧
    ps.map (·.2) = call.microQcs cr ∧
    ∀ p ∈ ps, ∃ a order, Linearizes cr call p.1 a order ∧
      p.2.checkpointHash = checkpointHashFromLinearization cr order

/- When an anchor is published. -/
namespace Bullshark
section Anchor
variable {cr : Crypto} {cfg : Config} {ctx : HostContext}

theorem lookupAll_spec {dag : DagView} (htotal : dag.Total) (hs : List Hash32) :
    ∃ vs, lookupAll dag hs = .ok vs ∧
      ∀ v, v ∈ vs ↔ ∃ h ∈ hs, dag.vertex h = .ok (some v) := by
  induction hs with
  | nil => exact ⟨[], rfl, by simp⟩
  | cons h hs ih =>
    obtain ⟨vs, hvs, hmem⟩ := ih
    obtain ⟨o, ho⟩ := htotal.vertex h
    refine ⟨o.toList ++ vs, by simp [lookupAll, ho, hvs, Except.map], ?_⟩
    intro v
    simp only [List.mem_append, Option.mem_toList, hmem, List.mem_cons, exists_eq_or_imp, ho,
      Except.ok.injEq]

def Attested (ctx : HostContext) (a : Hash32) : Prop :=
  ∃ set, ctx.setFor 0 = .ok (some set) ∧
    2 * ((set.entries.length - 1) / 3) + 1 ≤ (ctx.dag.pastAuthors a).ncard

theorem freshQc_spec (hworks : ctx.Works) {set : ValidatorSet}
    (hset : ctx.setFor 0 = .ok (some set)) (hne : set.entries.isEmpty = false) {a : Hash32}
    {order : List Hash32} (horder : closureOfAnchor a ctx = .ok order) (emitted : Finset Hash32) :
    ∃ qc, freshQc cr a ctx emitted = .ok qc ∧
      (qc.isSome ↔ checkpointHashFromLinearization cr order ∉ emitted ∧ Attested ctx a) ∧
      ∀ q, qc = some q → q.checkpointHash = checkpointHashFromLinearization cr order := by
  have hactive : activeSet ctx = .ok set := by simp [activeSet, hset]
  have hlen : set.entries.length ≠ 0 := by
    intro hzero
    rw [List.isEmpty_eq_false_iff] at hne
    exact hne (List.length_eq_zero_iff.mp hzero)
  unfold freshQc
  rw [horder]
  dsimp only
  by_cases hold : checkpointHashFromLinearization cr order ∈ emitted
  · exact ⟨none, by rw [if_pos hold], by simp [hold], by simp⟩
  rw [if_neg hold]
  obtain ⟨vs, hvs, hmem⟩ := lookupAll_spec hworks.dag order
  have hauthors : ((vs.map (·.vertex.author)).toFinset : Set ValidatorId) =
      ctx.dag.pastAuthors a := by
    ext i
    simp only [Finset.mem_coe, List.mem_toFinset, List.mem_map, hmem, DagView.pastAuthors,
      Set.mem_ofPred_eq, mem_closureOfAnchor horder]
    constructor
    · rintro ⟨v, ⟨h, hr, hv⟩, hi⟩
      exact ⟨h, v, hr, hv, hi⟩
    · rintro ⟨h, v, hr, hv, hi⟩
      exact ⟨v, ⟨h, hr, hv⟩, hi⟩
  have hcard : (ctx.dag.pastAuthors a).ncard = (vs.map (·.vertex.author)).toFinset.card := by
    rw [← hauthors, Set.ncard_coe_finset]
  have hattested : Attested ctx a ↔
      ¬ (vs.map (·.vertex.author)).toFinset.card < 2 * ((set.entries.length - 1) / 3) + 1 := by
    simp [Attested, hset, hcard]
  simp only [hvs, microQcTryFinalize, hactive, if_neg hlen]
  by_cases hfew : (vs.map (·.vertex.author)).toFinset.card < 2 * ((set.entries.length - 1) / 3) + 1
  · rw [if_pos hfew]
    exact ⟨none, rfl, by simp [hattested, hfew], by simp⟩
  · rw [if_neg hfew]
    exact ⟨_, rfl, by simp [hattested, hfew, hold], by simp⟩

theorem addSupporters_returns (a : Hash32) {vs : List CertifiedVertex}
    (hvs : ∀ v ∈ vs, ∃ found, vertexReaches v a ctx = .ok found) (supporters : Finset ValidatorId) :
    ∃ S, addSupporters a ctx vs supporters = .ok S := by
  induction vs generalizing supporters with
  | nil => exact ⟨supporters, rfl⟩
  | cons v vs ih =>
    obtain ⟨found, hfound⟩ := hvs v (by simp)
    unfold addSupporters
    rw [hfound]
    exact ih (fun w hw => hvs w (List.mem_cons_of_mem v hw)) _

theorem countSupporters_returns (hworks : ctx.Works) (a : Hash32) (r window : Nat) :
    ∃ S, countSupporters a r ctx window = .ok S := by
  induction window with
  | zero => exact ⟨∅, rfl⟩
  | succ window ih =>
    obtain ⟨S, hS⟩ := ih
    obtain ⟨vs, hvs⟩ := hworks.dag.atRound (r + (window + 1))
    unfold countSupporters
    rw [hS]
    dsimp only
    rw [hvs]
    exact addSupporters_returns a (fun v hv => (hworks.walks _ vs hvs v hv).1 a) S

theorem selectAnchor_returns (hworks : ctx.Works) (wave : WaveId) {set : ValidatorSet}
    (hne : set.entries.isEmpty = false) : ∃ author, selectAnchor cr wave set ctx = .ok author := by
  obtain ⟨b, hb⟩ := hworks.beacon
  obtain ⟨e, -, he, -⟩ := @selectAnchor_spec cr wave set ctx b
    (List.isEmpty_eq_false_iff.mp hne) hb
  exact ⟨e.id, he⟩

theorem tryCommitWave_returns (hworks : ctx.Works) (wave : WaveId) (set : ValidatorSet)
    (t : Bool) : ∃ d, tryCommitWave cr wave cfg set ctx t = .ok d := by
  unfold tryCommitWave
  by_cases hne : set.entries.isEmpty = true
  · exact ⟨none, by rw [if_pos hne]⟩
  rw [if_neg hne]
  obtain ⟨author, hauthor⟩ := @selectAnchor_returns cr ctx hworks wave set (by simpa using hne)
  obtain ⟨vs, hvs⟩ := hworks.dag.atRound (firstRound wave)
  simp only [hauthor, hvs]
  split
  · exact ⟨none, rfl⟩
  rename_i v hv
  obtain ⟨S, hS⟩ := countSupporters_returns hworks v.vertex.hash (firstRound wave)
    cfg.bullshark.shortcutRoundCount
  obtain ⟨T, hT⟩ := countSupporters_returns hworks v.vertex.hash (firstRound wave)
    cfg.bullshark.slowPathRoundCount
  simp only [hS, hT]
  repeat' split
  all_goals exact ⟨_, rfl⟩

/-- Anchors are linearized, and one attempt commits one anchor at most. -/
theorem CanCommit.closure (hworks : ctx.Works) {wave : WaveId} {t : Bool} {a : Hash32}
    (h : CanCommit cr cfg ctx wave t a) :
    ∃ set order, ctx.setFor 0 = .ok (some set) ∧ set.entries.isEmpty = false ∧
      closureOfAnchor a ctx = .ok order := by
  obtain ⟨set, d, hset, hd, rfl⟩ := h
  obtain ⟨hne, author, vs, v, hauthor, hvs, hfind, hhash⟩ := tryCommitWave_anchor hd
  obtain ⟨order, horder⟩ := (hworks.walks _ vs hvs v (List.mem_of_find?_eq_some hfind)).2
  exact ⟨set, order, hset, hne, hhash ▸ horder⟩

theorem CanCommit.unique {wave : WaveId} {t : Bool} {a a' : Hash32}
    (h : CanCommit cr cfg ctx wave t a) (h' : CanCommit cr cfg ctx wave t a') : a = a' := by
  obtain ⟨set, d, hset, hd, rfl⟩ := h
  obtain ⟨set', d', hset', hd', rfl⟩ := h'
  rw [hset] at hset'
  cases hset'
  rw [hd] at hd'
  cases hd'
  rfl

/- One attempt. -/

theorem armSlowTimer_returns (hworks : ctx.Works) (wave : WaveId) {set : ValidatorSet}
    (hne : set.entries.isEmpty = false) (t : Bool) (book : WaveBook) :
    ∃ acts, (armSlowTimer cr wave cfg set ctx t book).result = .ok acts := by
  obtain ⟨author, hauthor⟩ := @selectAnchor_returns cr ctx hworks wave set hne
  obtain ⟨vs, hvs⟩ := hworks.dag.atRound (firstRound wave)
  unfold armSlowTimer anchorPresent
  simp only [hauthor, hvs]
  repeat' split
  all_goals first
    | exact ⟨_, rfl⟩
    | contradiction

theorem armSlowTimer_committed (wave : WaveId) (set : ValidatorSet) (t : Bool) (book : WaveBook) :
    (armSlowTimer cr wave cfg set ctx t book).state.committedWaves = book.committedWaves := by
  unfold armSlowTimer
  repeat' split
  all_goals rfl

theorem emitCommitted_returns (hworks : ctx.Works) {wave : WaveId} {t : Bool} {a : Hash32}
    (hcan : CanCommit cr cfg ctx wave t a) (book : WaveBook) :
    (∃ acts, (emitCommitted cr a ctx book).result = .ok acts) ∧
      (emitCommitted cr a ctx book).state.committedWaves = book.committedWaves := by
  obtain ⟨set, order, hset, hne, horder⟩ := hcan.closure hworks
  obtain ⟨qc, hqc, -, -⟩ := @freshQc_spec cr ctx hworks set hset hne a order horder book.emitted
  rw [emitCommitted_eq, hqc]
  cases qc with
  | none => exact ⟨⟨_, rfl⟩, rfl⟩
  | some qc => exact ⟨⟨_, rfl⟩, rfl⟩

/-- An attempt returns, keeps the waves committed before, and commits what it can. -/
theorem tryEmitForWave_returns (hworks : ctx.Works) {set : ValidatorSet}
    (hset : ctx.setFor 0 = .ok (some set)) (hne : set.entries.isEmpty = false) (wave : WaveId)
    (t : Bool) (book : WaveBook) :
    (∃ acts, (tryEmitForWave cr wave cfg ctx t book).result = .ok acts) ∧
      book.committedWaves ⊆ (tryEmitForWave cr wave cfg ctx t book).state.committedWaves ∧
      ∀ a, CanCommit cr cfg ctx wave t a →
        wave ∈ (tryEmitForWave cr wave cfg ctx t book).state.committedWaves := by
  unfold tryEmitForWave
  by_cases hold : wave ∈ book.committedWaves
  · rw [if_pos hold]
    exact ⟨⟨_, rfl⟩, Finset.Subset.refl _, fun _ _ => hold⟩
  rw [if_neg hold, hset]
  dsimp only
  obtain ⟨d, hd⟩ := @tryCommitWave_returns cr cfg ctx hworks wave set t
  rw [hd]
  cases d with
  | none =>
    refine ⟨armSlowTimer_returns hworks wave hne t book, ?_, ?_⟩
    · rw [armSlowTimer_committed]
    · rintro a ⟨set', d', hset', hd', -⟩
      rw [hset] at hset'
      cases hset'
      rw [hd] at hd'
      cases hd'
  | some d =>
    have hcan : CanCommit cr cfg ctx wave t d.anchorHash := ⟨set, d, hset, hd, rfl⟩
    have hrest : ∀ (o : Result WaveBook) (acts : List Action), o.result = .ok acts →
        o.state.committedWaves = insert wave book.committedWaves →
        (∃ acts, (o.andThen (emitCommitted cr d.anchorHash ctx)).result = .ok acts) ∧
          (o.andThen (emitCommitted cr d.anchorHash ctx)).state.committedWaves =
            insert wave book.committedWaves := by
      intro o acts ho hstate
      obtain ⟨⟨acts', hacts'⟩, hkept⟩ := emitCommitted_returns hworks hcan o.state
      rw [Outcome.andThen_of_ok ho, hacts']
      exact ⟨⟨acts ++ acts', rfl⟩, hkept.trans hstate⟩
    dsimp only
    split
    · obtain ⟨hacts, hstate⟩ := hrest (.quiet { book with
        committedWaves := insert wave book.committedWaves }) [] rfl rfl
      refine ⟨hacts, ?_, fun _ _ => ?_⟩
      · rw [hstate]
        exact Finset.subset_insert wave _
      · rw [hstate]
        exact Finset.mem_insert_self wave _
    · rename_i id _
      obtain ⟨hacts, hstate⟩ := hrest (.ok { book with
        committedWaves := insert wave book.committedWaves
        slowTimerByWave := book.slowTimerByWave.erase wave
        timerToWave := book.timerToWave.erase id } [.cancelTimer id]) _ rfl rfl
      refine ⟨hacts, ?_, fun _ _ => ?_⟩
      · rw [hstate]
        exact Finset.subset_insert wave _
      · rw [hstate]
        exact Finset.mem_insert_self wave _

theorem onCertifiedVertex_returns (hworks : ctx.Works) {set : ValidatorSet}
    (hset : ctx.setFor 0 = .ok (some set)) (hne : set.entries.isEmpty = false)
    (cv : CertifiedVertex) (book : WaveBook) :
    (∃ acts, (onCertifiedVertex cr cfg cv ctx book).result = .ok acts) ∧
      ∀ w a, w ≤ waveOfRound cv.vertex.round → CanCommit cr cfg ctx w false a →
        w ∈ (onCertifiedVertex cr cfg cv ctx book).state.committedWaves := by
  have hfold : ∀ (ws : List Nat) (o : Result WaveBook), (∃ acts, o.result = .ok acts) →
      (∃ acts, (ws.foldl (fun o w => o.andThen fun book =>
        if w ∈ book.committedWaves then .quiet book
        else tryEmitForWave cr w cfg ctx false book) o).result = .ok acts) ∧
      o.state.committedWaves ⊆ (ws.foldl (fun o w => o.andThen fun book =>
        if w ∈ book.committedWaves then .quiet book
        else tryEmitForWave cr w cfg ctx false book) o).state.committedWaves ∧
      ∀ w ∈ ws, ∀ a, CanCommit cr cfg ctx w false a →
        w ∈ (ws.foldl (fun o w => o.andThen fun book =>
          if w ∈ book.committedWaves then .quiet book
          else tryEmitForWave cr w cfg ctx false book) o).state.committedWaves := by
    intro ws
    induction ws with
    | nil => exact fun o ho => ⟨ho, Finset.Subset.refl _, by simp⟩
    | cons w ws ih =>
      intro o ho
      obtain ⟨acts, hacts⟩ := ho
      obtain ⟨⟨acts', hacts'⟩, hkeep, hcommit⟩ :=
        @tryEmitForWave_returns cr cfg ctx hworks set hset hne w false o.state
      have hstep : (∃ as, (o.andThen fun book => if w ∈ book.committedWaves then .quiet book
            else tryEmitForWave cr w cfg ctx false book).result = .ok as) ∧
          o.state.committedWaves ⊆ (o.andThen fun book =>
            if w ∈ book.committedWaves then .quiet book
            else tryEmitForWave cr w cfg ctx false book).state.committedWaves ∧
          ∀ a, CanCommit cr cfg ctx w false a → w ∈ (o.andThen fun book =>
            if w ∈ book.committedWaves then .quiet book
            else tryEmitForWave cr w cfg ctx false book).state.committedWaves := by
        rw [Outcome.andThen_of_ok hacts]
        by_cases hold : w ∈ o.state.committedWaves
        · simp only [if_pos hold]
          exact ⟨⟨acts ++ [], rfl⟩, Finset.Subset.refl _, fun _ _ => hold⟩
        · simp only [if_neg hold, hacts']
          exact ⟨⟨acts ++ acts', rfl⟩, hkeep, hcommit⟩
      obtain ⟨hok, hsub, hin⟩ := ih _ hstep.1
      refine ⟨hok, hstep.2.1.trans hsub, ?_⟩
      intro w' hw' a hcan
      cases List.mem_cons.mp hw' with
      | inl heq =>
        subst heq
        exact hsub (hstep.2.2 a hcan)
      | inr hmem => exact hin w' hmem a hcan
  obtain ⟨hok, -, hin⟩ := hfold (List.range (waveOfRound cv.vertex.round + 1)) (.quiet book)
    ⟨[], rfl⟩
  exact ⟨hok, fun w a hw => hin w (List.mem_range.mpr (Nat.lt_succ_of_le hw)) a⟩

theorem onTimerFired_returns (hworks : ctx.Works) {set : ValidatorSet}
    (hset : ctx.setFor 0 = .ok (some set)) (hne : set.entries.isEmpty = false) (id : TimerId)
    (book : WaveBook) :
    (∃ acts, (onTimerFired cr cfg id ctx book).result = .ok acts) ∧
      ∀ w a, book.timerToWave[id]? = some w → CanCommit cr cfg ctx w true a →
        w ∈ (onTimerFired cr cfg id ctx book).state.committedWaves := by
  unfold onTimerFired
  split
  · rename_i hnone
    refine ⟨⟨[], rfl⟩, ?_⟩
    intro w a hw
    rw [hnone] at hw
    cases hw
  · rename_i wave hwave
    obtain ⟨hok, -, hcommit⟩ := @tryEmitForWave_returns cr cfg ctx hworks set hset hne wave true
      { book with
        timerToWave := book.timerToWave.erase id
        slowTimerByWave := book.slowTimerByWave.erase wave }
    refine ⟨hok, ?_⟩
    intro w a hw
    rw [hwave] at hw
    cases hw
    exact hcommit a

end Anchor
end Bullshark

/- A call as a pass: its commits, each with the micro QC it yields. -/

structure WaveCommit where
  wave : WaveId
  anchor : Hash32
  qc : Option MicroQc

/-- The commits `cs` of a call so far, with its actions and what L2 holds after them. -/
structure Pass (cr : Crypto) (call : NodeCall) (acts : List Action) (cs : List WaveCommit)
    (d : WaveCore) : Prop where
  waves : (cs.map (·.wave)).Nodup
  commits : ∀ x ∈ cs, call.commits cr x.wave x.anchor
  committed : ∀ w, w ∈ d.committed ↔
    w ∈ call.pre.waves.committedWaves ∨ ∃ x ∈ cs, x.wave = w
  emitted : ∀ h, h ∈ d.emitted ↔
    h ∈ call.pre.waves.emitted ∨ ∃ x ∈ cs, ∃ q, x.qc = some q ∧ q.checkpointHash = h
  qcs : acts.filterMap microQcOf = cs.filterMap (·.qc)
  published : ∀ x ∈ cs, ∀ q, x.qc = some q → checkpointOf cr x.anchor call.ctx =
    .ok q.checkpointHash ∧ Attested call.ctx x.anchor ∧ q.checkpointHash ∉ call.pre.waves.emitted
  withheld : ∀ x ∈ cs, x.qc = none → Attested call.ctx x.anchor →
    ∃ h, checkpointOf cr x.anchor call.ctx = .ok h ∧ (h ∈ call.pre.waves.emitted ∨
      ∃ y ∈ cs, y.wave ≠ x.wave ∧ ∃ q, y.qc = some q ∧ q.checkpointHash = h)
  apart : cs.Pairwise fun x y => ∀ q q', x.qc = some q → y.qc = some q' →
    q.checkpointHash ≠ q'.checkpointHash

section Passes
variable {cr : Crypto} {call : NodeCall}

theorem Pass.start : Pass cr call [] [] call.pre.waves.core :=
  ⟨by simp, by simp, by simp [WaveBook.core], by simp [WaveBook.core], by simp, by simp, by simp,
    List.Pairwise.nil⟩

theorem Pass.other {acts acts' : List Action} {cs : List WaveCommit} {d : WaveCore}
    (h : Pass cr call acts cs d) (hacts : ∀ a ∈ acts', microQcHash a = none) :
    Pass cr call (acts ++ acts') cs d :=
  { h with qcs := by rw [List.filterMap_append, microQcOf_none hacts, List.append_nil, h.qcs] }

theorem Pass.commit (hworks : call.ctx.Works) {acts acts' : List Action} {cs : List WaveCommit}
    {d : WaveCore} (h : Pass cr call acts cs d) {wave : WaveId} {a : Hash32} {t : Bool}
    (hnew : wave ∉ d.committed) (htried : call.tries wave t)
    (hcan : CanCommit cr call.pre.cfg call.ctx wave t a)
    (hacts : ∀ a ∈ acts', microQcHash a = none) {qc : Option MicroQc}
    (hqc : freshQc cr a call.ctx d.emitted = .ok qc) :
    Pass cr call (acts ++ (acts' ++ (qc.map Action.broadcastMicroQc).toList))
      (cs ++ [⟨wave, a, qc⟩]) ⟨insert wave d.committed, noteQc qc d.emitted⟩ := by
  obtain ⟨set, order, hset, hne, horder⟩ := hcan.closure hworks
  obtain ⟨qc', hqc', hsome, hhash⟩ := @freshQc_spec cr call.ctx hworks set hset hne a order horder
    d.emitted
  rw [hqc] at hqc'
  cases hqc'
  have hcheck : checkpointOf cr a call.ctx =
      .ok (checkpointHashFromLinearization cr order) := by
    simp [checkpointOf, horder, Except.map]
  rw [h.committed, not_or] at hnew
  have hapartWave : ∀ x ∈ cs, x.wave ≠ wave := fun x hx heq => hnew.2 ⟨x, hx, heq⟩
  refine ⟨?_, ?_, ?_, ?_, ?_, ?_, ?_, ?_⟩
  · rw [List.map_append, List.nodup_append]
    refine ⟨h.waves, by simp, ?_⟩
    intro w hw w' hw' heq
    obtain ⟨x, hx, rfl⟩ := List.mem_map.mp hw
    simp only [List.map_cons, List.map_nil, List.mem_singleton] at hw'
    exact hapartWave x hx (heq.trans hw')
  · intro x hx
    cases List.mem_append.mp hx with
    | inl hold => exact h.commits x hold
    | inr hlast =>
      rw [List.mem_singleton.mp hlast]
      exact ⟨hnew.1, t, htried, hcan⟩
  · intro w
    simp only [Finset.mem_insert, h.committed, List.mem_append, List.mem_singleton, or_and_right,
      exists_or, exists_eq_left]
    rw [@eq_comm _ w wave]
    exact or_comm.trans or_assoc
  · intro x
    simp only [List.mem_append, List.mem_singleton, or_and_right, exists_or, exists_eq_left]
    cases qc with
    | none => simpa [noteQc] using h.emitted x
    | some q =>
      simp only [noteQc, Finset.mem_insert, h.emitted, Option.some.injEq, exists_eq_left']
      rw [@eq_comm _ x q.checkpointHash]
      exact or_comm.trans or_assoc
  · rw [List.filterMap_append, List.filterMap_append, List.filterMap_append, h.qcs,
      microQcOf_none hacts]
    cases qc <;> rfl
  · intro x hx q hq
    cases List.mem_append.mp hx with
    | inl hold => exact h.published x hold q hq
    | inr hlast =>
      rw [List.mem_singleton.mp hlast] at hq ⊢
      dsimp only at hq
      obtain ⟨hfresh, hatt⟩ := hsome.mp (by rw [hq]; rfl)
      rw [← hhash q hq] at hfresh
      refine ⟨by rw [hcheck, hhash q hq], hatt, ?_⟩
      exact fun hin => hfresh ((h.emitted _).mpr (Or.inl hin))
  · intro x hx hnone hatt
    cases List.mem_append.mp hx with
    | inl hold =>
      obtain ⟨c, hc, hwhy⟩ := h.withheld x hold hnone hatt
      refine ⟨c, hc, hwhy.imp_right ?_⟩
      rintro ⟨y, hy, hother⟩
      exact ⟨y, List.mem_append_left _ hy, hother⟩
    | inr hlast =>
      rw [List.mem_singleton.mp hlast] at hnone hatt ⊢
      dsimp only at hnone hatt ⊢
      refine ⟨_, hcheck, ?_⟩
      have hold : checkpointHashFromLinearization cr order ∈ d.emitted := by
        by_contra hfresh
        have hyes := hsome.mpr ⟨hfresh, hatt⟩
        rw [hnone] at hyes
        cases hyes
      rw [h.emitted] at hold
      refine hold.imp_right ?_
      rintro ⟨y, hy, hq⟩
      exact ⟨y, List.mem_append_left _ hy, hapartWave y hy, hq⟩
  · rw [List.pairwise_append]
    refine ⟨h.apart, List.pairwise_singleton _ _, ?_⟩
    intro x hx y hy q q' hq hq' heq
    rw [List.mem_singleton.mp hy] at hq'
    dsimp only at hq'
    obtain ⟨hfresh, -⟩ := hsome.mp (by rw [hq']; rfl)
    rw [← hhash q' hq', ← heq] at hfresh
    exact hfresh ((h.emitted _).mpr (Or.inr ⟨x, hx, q, hq, rfl⟩))

theorem pass_of_steady (hworks : call.ctx.Works) {o : Result StateMachine}
    (ho : Simulation.Steady (NodeWaveStep cr call) (·.waves.core) call.pre.waves.core o) :
    ∃ acts cs, Pass cr call acts cs o.state.waves.core ∧ ∀ as, o.result = .ok as → as = acts := by
  obtain ⟨acts, hpath, hres⟩ := ho
  have hkept := hpath.invariant (P := fun _ acts d => ∃ cs, Pass cr call acts cs d)
    (R := fun _ => True) ?_ (fun _ _ => trivial) [] [] ⟨[], Pass.start⟩
  · obtain ⟨cs, hcs⟩ := hkept
    exact ⟨acts, cs, by simpa using hcs, hres⟩
  rintro sg acts c sg' acts' d - hmove ⟨cs, hcs⟩
  cases hmove with
  | other _ hacts => exact ⟨cs, hcs.other hacts⟩
  | own hstep =>
    cases hstep with
    | idle _ hacts => exact ⟨cs, hcs.other hacts⟩
    | commit wave t a qc acts' hnew htried hcan hacts hqc =>
      exact ⟨_, hcs.commit hworks hnew htried hcan hacts hqc⟩
    | stuck wave t a e acts' hnew htried hcan hacts hqc =>
      obtain ⟨set, order, hset, hne, horder⟩ := hcan.closure hworks
      obtain ⟨qc, hqc', -⟩ := @freshQc_spec cr call.ctx hworks set hset hne a order horder
        c.emitted
      rw [hqc] at hqc'
      cases hqc'

end Passes

/- The rest of the step. -/

/-- L1 passes the event on to L2. -/
def NodeCall.opensWaves (cr : Crypto) (call : NodeCall) : Prop :=
  match call.event with
  | some (.certifiedVertexReceived cv) => ∃ acts,
    (VertexCert.onCertifiedVertex cr call.pre.cfg call.ctx cv call.pre.vertices).result = .ok acts
  | _ => True

/-- What follows L2 in the step fails: a window closes under a set too small for a schedule,
or the timer is due in L3 or L1 as well, and its handler fails there. -/
def NodeCall.failsAfter (cr : Crypto) (call : NodeCall) : Prop :=
  match call.event with
  | some (.certifiedVertexReceived _) => ∃ set, call.ctx.setFor 0 = .ok (some set) ∧
      set.entries.length < 2 ∧ call.pre.cfg.macroFin.macroWindowW ≤
        call.pre.macros.microRing.length + {w | ∃ a, call.commits cr w a}.ncard
  | some (.timerFired id) =>
    (∃ e, (MacroFin.onTimerFired cr call.pre.cfg call.ctx id call.pre.macros).result = .error e) ∨
      ∃ e, (VertexCert.onTimerFired call.pre.cfg call.ctx id call.pre.vertices).result = .error e
  | _ => False

/-- The commit of `wave` by the anchor `a` can be published: the known past of `a` has a quorum
of authors, no other commit has its checkpoint, and the step gets to its end. -/
structure Publishable (cr : Crypto) (call : NodeCall) (wave : WaveId) (a : Hash32) : Prop where
  attested : Attested call.ctx a
  fresh : ∀ h, checkpointOf cr a call.ctx = .ok h → h ∉ call.pre.waves.emitted ∧
    ∀ w' a', w' ≠ wave → call.commits cr w' a' → checkpointOf cr a' call.ctx ≠ .ok h
  completes : ¬ call.failsAfter cr

section Rest
variable {cr : Crypto} {call : NodeCall}

theorem closeWindow_short {cfg : Config} {ctx : HostContext} {set : ValidatorSet}
    (hshort : set.entries.length < 2) (book : MacroBook) :
    ∃ e, (closeWindow cr cfg ctx set book).result = .error e := by
  unfold closeWindow
  dsimp only
  split
  · rename_i e _
    exact ⟨e, rfl⟩
  · rename_i beacon _
    obtain ⟨e, he⟩ := @vrfSortition_short cr set hshort beacon book.nextHeight book.reputation
    refine ⟨e, Outcome.andThen_error_iff.mpr (Or.inl ?_)⟩
    have he' : vrfSortition cr beacon set book.nextHeight
      (freezeBeacon book.nextHeight beacon (installCandidate cr book)).reputation = .error e := he
    unfold takeRole
    rw [he']
    rfl

theorem pushAll_short {cfg : Config} {ctx : HostContext} {set : ValidatorSet}
    (hshort : set.entries.length < 2) (hs : List Hash32) {o : Result MacroBook}
    {acts : List Action} (ho : o.result = .ok acts) :
    (∃ as, (pushAll cr cfg ctx set hs o).result = .ok as) ↔
      hs = [] ∨ o.state.microRing.length + hs.length < cfg.macroFin.macroWindowW := by
  induction hs generalizing o acts with
  | nil => simp [pushAll, ho]
  | cons h hs ih =>
    rw [pushAll, List.foldl_cons, ← pushAll]
    by_cases hlt : (o.state.microRing ++ [h]).length < cfg.macroFin.macroWindowW
    · have hpush : pushMicroQc cr cfg ctx set h o.state =
          .quiet { o.state with microRing := o.state.microRing ++ [h] } := by
        simp only [pushMicroQc, if_pos hlt]
      have hok : (o.andThen (pushMicroQc cr cfg ctx set h)).result = .ok (acts ++ []) := by
        rw [Outcome.andThen_of_ok ho, hpush]
        rfl
      rw [ih hok, Outcome.andThen_of_ok ho, hpush]
      simp only [Outcome.quiet_state, List.length_append, List.length_cons, List.length_nil,
        reduceCtorEq, false_or] at hlt ⊢
      constructor
      · rintro (rfl | hroom)
        · simpa using hlt
        · omega
      · intro hroom
        exact Or.inr (by omega)
    · obtain ⟨e, he⟩ := @closeWindow_short cr cfg ctx set hshort
        { o.state with microRing := o.state.microRing ++ [h] }
      have hpush : (pushMicroQc cr cfg ctx set h o.state).result = .error e := by
        simp only [pushMicroQc, if_neg hlt, he]
      have hfail : (o.andThen (pushMicroQc cr cfg ctx set h)).result = .error e :=
        Outcome.andThen_error_iff.mpr (Or.inr ⟨acts, ho, hpush⟩)
      rw [pushAll_error hfail, hfail]
      simp only [List.length_append, List.length_singleton] at hlt
      simp only [reduceCtorEq, exists_false, List.length_cons, false_or, false_iff]
      omega

/-- L3 takes the micro QCs unless a set without a schedule closes a window. -/
theorem onLocalMicroQcs_returns {cfg : Config} {ctx : HostContext} (hworks : ctx.Works)
    {set : ValidatorSet} (hset : ctx.setFor 0 = .ok (some set)) (acts : List Action)
    (book : MacroBook) (hsome : acts.filterMap microQcHash ≠ []) :
    (∃ as, (onLocalMicroQcs cr cfg ctx acts book).result = .ok as) ↔
      ¬ (set.entries.length < 2 ∧ cfg.macroFin.macroWindowW ≤
        book.microRing.length + (acts.filterMap microQcHash).length) := by
  have hactive : activeSet ctx = .ok set := by simp [activeSet, hset]
  rw [onLocalMicroQcs_eq hactive]
  by_cases hshort : set.entries.length < 2
  · rw [pushAll_short hshort _ (Outcome.quiet_result book)]
    simp [hsome, hshort]
  · obtain ⟨beacon, hbeacon⟩ := hworks.beacon
    obtain ⟨schedule, hsched⟩ := @vrfSortition_ok cr set beacon book.nextHeight book.reputation
      (Nat.le_of_not_lt hshort)
    have hpush := (@pushAll_ok cr cfg ctx set (acts.filterMap microQcHash) (.quiet book) [] rfl
      fun _ => ⟨beacon, schedule, hbeacon, hsched, fun _ => hworks.prove _⟩).1
    simp [hshort, hpush]

structure Passed (cr : Crypto) (call : NodeCall) (cs : List WaveCommit) : Prop where
  pass : ∃ acts, Pass cr call acts cs
    (StateMachine.exec cr call.input call.pre).state.waves.core
  qcs : ∀ as, (StateMachine.exec cr call.input call.pre).result = .ok as →
    call.microQcs cr = cs.filterMap (·.qc)
  opens : cs ≠ [] → call.opensWaves cr
  all : call.opensWaves cr → ∀ w a, call.commits cr w a → ∃ x ∈ cs, x.wave = w ∧ x.anchor = a
  returns : cs ≠ [] → (∀ x ∈ cs, x.qc.isSome) →
    ((∃ as, (StateMachine.exec cr call.input call.pre).result = .ok as) ↔ ¬ call.failsAfter cr)

theorem NodeCall.commits.someSet {w : WaveId} {a : Hash32} (h : call.commits cr w a) :
    ∃ set, call.ctx.setFor 0 = .ok (some set) ∧ set.entries.isEmpty = false := by
  obtain ⟨-, t, -, set, d, hset, hd, -⟩ := h
  exact ⟨set, hset, (tryCommitWave_anchor hd).1⟩

/-- What can be committed has been, by the anchor it can be committed by. -/
theorem Pass.all {acts : List Action} {cs : List WaveCommit} {d : WaveCore}
    (h : Pass cr call acts cs d) {t : Bool} (honly : ∀ w t', call.tries w t' → t' = t)
    (hcommitted : ∀ w a, call.tries w t → CanCommit cr call.pre.cfg call.ctx w t a →
      w ∈ d.committed) {w : WaveId} {a : Hash32} (hc : call.commits cr w a) :
    ∃ x ∈ cs, x.wave = w ∧ x.anchor = a := by
  obtain ⟨hnew, t', htried, hcan⟩ := hc
  cases honly w t' htried
  have hin := ((h.committed w).mp (hcommitted w a htried hcan)).resolve_left hnew
  obtain ⟨x, hx, rfl⟩ := hin
  obtain ⟨-, t', htried', hcan'⟩ := h.commits x hx
  cases honly _ t' htried'
  exact ⟨x, hx, rfl, hcan'.unique hcan⟩

theorem Pass.ncard {acts : List Action} {cs : List WaveCommit} {d : WaveCore}
    (h : Pass cr call acts cs d)
    (hall : ∀ w a, call.commits cr w a → ∃ x ∈ cs, x.wave = w ∧ x.anchor = a) :
    {w | ∃ a, call.commits cr w a}.ncard = cs.length := by
  have hset : {w | ∃ a, call.commits cr w a} = ((cs.map (·.wave)).toFinset : Set WaveId) := by
    ext w
    simp only [Set.mem_ofPred_eq, Finset.mem_coe, List.mem_toFinset, List.mem_map]
    constructor
    · rintro ⟨a, ha⟩
      obtain ⟨x, hx, hw, -⟩ := hall w a ha
      exact ⟨x, hx, hw⟩
    · rintro ⟨x, hx, rfl⟩
      exact ⟨x.anchor, h.commits x hx⟩
  rw [hset, Set.ncard_coe_finset, List.toFinset_card_of_nodup h.waves, List.length_map]

theorem length_filterMap_microQc (acts : List Action) :
    (acts.filterMap microQcHash).length = (acts.filterMap microQcOf).length := by
  have hmap : acts.filterMap microQcHash =
      (acts.filterMap microQcOf).map (·.checkpointHash) := by
    rw [List.map_filterMap]
    exact List.filterMap_congr fun a _ => microQcHash_eq a
  rw [hmap, List.length_map]

theorem length_filterMap_qc {cs : List WaveCommit} :
    (cs.filterMap (·.qc)).length = cs.length ↔ ∀ x ∈ cs, x.qc.isSome := by
  rw [List.length_filterMap_eq_countP, List.countP_eq_length]

theorem lowerLayers_closed {cv : CertifiedVertex} {e : Error}
    (h : (VertexCert.onCertifiedVertex cr call.pre.cfg call.ctx cv call.pre.vertices).result =
      .error e) :
    (lowerLayers cr call cv).state.waves = call.pre.waves ∧
      (lowerLayers cr call cv).result = .error e := by
  have hl1 : (call.pre.onVertices
      (VertexCert.onCertifiedVertex cr call.pre.cfg call.ctx cv)).result = .error e := h
  unfold lowerLayers
  rw [Outcome.andThen_of_error hl1]
  exact ⟨rfl, hl1⟩

theorem lowerLayers_open {cv : CertifiedVertex} {acts : List Action}
    (h : (VertexCert.onCertifiedVertex cr call.pre.cfg call.ctx cv call.pre.vertices).result =
      .ok acts) :
    (lowerLayers cr call cv).state.waves =
        (Bullshark.onCertifiedVertex cr call.pre.cfg cv call.ctx call.pre.waves).state ∧
      (lowerLayers cr call cv).result =
        (Bullshark.onCertifiedVertex cr call.pre.cfg cv call.ctx call.pre.waves).result.map
          (acts ++ ·) := by
  have hl1 : (call.pre.onVertices
      (VertexCert.onCertifiedVertex cr call.pre.cfg call.ctx cv)).result = .ok acts := h
  unfold lowerLayers
  rw [Outcome.andThen_of_ok hl1]
  exact ⟨rfl, rfl⟩

/-- A certified vertex goes through L1 and L2, and what they made reaches L3. -/
theorem exec_certified_layers {cv : CertifiedVertex}
    (hev : call.event = some (.certifiedVertexReceived cv)) :
    StateMachine.exec cr call.input call.pre = (lowerLayers cr call cv).bind fun actions sm =>
      sm.onMacros (onLocalMicroQcs cr sm.cfg call.ctx actions) :=
  @exec_certified cr call cv hev

theorem exec_certified_waves {cv : CertifiedVertex}
    (hev : call.event = some (.certifiedVertexReceived cv)) :
    (StateMachine.exec cr call.input call.pre).state.waves =
      (lowerLayers cr call cv).state.waves := by
  rw [exec_certified_layers hev]
  cases hlower : (lowerLayers cr call cv).result with
  | error e => rw [Outcome.bind_of_error hlower]
  | ok acts =>
    rw [Outcome.bind_of_ok hlower]
    rfl

theorem exec_certified_microQcs {cv : CertifiedVertex}
    (hev : call.event = some (.certifiedVertexReceived cv)) {as : List Action}
    (has : (StateMachine.exec cr call.input call.pre).result = .ok as) :
    ∃ acts, (lowerLayers cr call cv).result = .ok acts ∧
      call.microQcs cr = acts.filterMap microQcOf := by
  cases hlower : (lowerLayers cr call cv).result with
  | error e =>
    rw [exec_certified_layers hev, Outcome.bind_of_error hlower, hlower] at has
    cases has
  | ok acts =>
    have hmacros := handled_noMicro (MacroHandler.handled (.micro cv acts hev hlower))
    have hresult := (onCertifiedVertex_eq cv hlower).2
    rw [← exec_certified hev, has] at hresult
    cases hlocal : (onLocalMicroQcs cr call.pre.cfg call.ctx acts call.pre.macros).result with
    | error e =>
      rw [hlocal] at hresult
      cases hresult
    | ok acts' =>
      rw [hlocal] at hresult
      simp only [Except.map, Except.ok.injEq] at hresult
      simp only [Outcome.actions, hlocal] at hmacros
      refine ⟨acts, rfl, ?_⟩
      rw [NodeCall.microQcs, Outcome.actions, has]
      simp only [hresult, List.filterMap_append, microQcOf_none hmacros, List.append_nil]

theorem passed_certified (hworks : call.ctx.Works) {cv : CertifiedVertex}
    (hev : call.event = some (.certifiedVertexReceived cv)) : ∃ cs, Passed cr call cs := by
  obtain ⟨la, cs, hpass, hres⟩ := pass_of_steady hworks ((layers_waves cr call).lower cv hev)
  have htries : ∀ w t, call.tries w t ↔ w ≤ waveOfRound cv.vertex.round ∧ t = false := by
    intro w t
    simp only [NodeCall.tries, hev]
  have hopens : call.opensWaves cr ↔ ∃ acts, (VertexCert.onCertifiedVertex cr call.pre.cfg call.ctx
      cv call.pre.vertices).result = .ok acts := by
    simp only [NodeCall.opensWaves, hev]
  -- with commits there is a set, L2 returns, and commits all it can
  have hall : call.opensWaves cr → ∀ w a, call.commits cr w a →
      (∃ acts, (lowerLayers cr call cv).result = .ok acts) ∧
        ∃ x ∈ cs, x.wave = w ∧ x.anchor = a := by
    intro hopen w a hc
    obtain ⟨acts, hacts⟩ := hopens.mp hopen
    obtain ⟨set, hset, hne⟩ := hc.someSet
    obtain ⟨⟨acts', hacts'⟩, hcommit⟩ := @onCertifiedVertex_returns cr call.pre.cfg call.ctx hworks
      set hset hne cv call.pre.waves
    obtain ⟨hstate, hresult⟩ := lowerLayers_open hacts
    refine ⟨⟨acts ++ acts', by rw [hresult, hacts']; rfl⟩, ?_⟩
    refine hpass.all (t := false) (fun w t' ht => ((htries w t').mp ht).2) ?_ hc
    intro w a ht hcan
    have hin := hcommit w a ((htries w false).mp ht).1 hcan
    rw [← hstate] at hin
    exact hin
  have hopen : cs ≠ [] → call.opensWaves cr := by
    intro hne
    rw [hopens]
    cases hl1 : (VertexCert.onCertifiedVertex cr call.pre.cfg call.ctx cv
        call.pre.vertices).result with
    | ok acts => exact ⟨acts, rfl⟩
    | error e =>
      obtain ⟨x, hx⟩ := List.exists_mem_of_ne_nil cs hne
      have hin := (hpass.committed x.wave).mpr (Or.inr ⟨x, hx, rfl⟩)
      rw [WaveBook.core, (lowerLayers_closed hl1).1] at hin
      exact absurd hin (hpass.commits x hx).1
  refine ⟨cs, ⟨la, by rwa [exec_certified_waves hev]⟩, ?_, hopen,
    fun ho w a hc => (hall ho w a hc).2, ?_⟩
  · intro as has
    obtain ⟨acts, hlower, hqcs⟩ := exec_certified_microQcs hev has
    rw [hqcs, hres acts hlower, hpass.qcs]
  · intro hne hsome
    obtain ⟨x, hx⟩ := List.exists_mem_of_ne_nil cs hne
    have hopened := hopen hne
    obtain ⟨set, hset, -⟩ := (hpass.commits x hx).someSet
    obtain ⟨acts, hlower⟩ := (hall hopened x.wave x.anchor (hpass.commits x hx)).1
    have hlen : (acts.filterMap microQcHash).length = cs.length := by
      rw [length_filterMap_microQc, hres acts hlower, hpass.qcs, length_filterMap_qc]
      exact hsome
    have hnonempty : acts.filterMap microQcHash ≠ [] := by
      intro hnil
      rw [hnil, List.length_nil] at hlen
      exact hne (List.length_eq_zero_iff.mp hlen.symm)
    have hlocal := @onLocalMicroQcs_returns cr call.pre.cfg call.ctx hworks set hset acts
      call.pre.macros hnonempty
    have hfails : call.failsAfter cr ↔ set.entries.length < 2 ∧
        call.pre.cfg.macroFin.macroWindowW ≤ call.pre.macros.microRing.length +
          (acts.filterMap microQcHash).length := by
      have hcount := hpass.ncard fun w a hc => (hall hopened w a hc).2
      simp only [NodeCall.failsAfter, hev, hset, Except.ok.injEq, Option.some.injEq,
        exists_eq_left', hcount, hlen]
    rw [hfails, ← hlocal, exec_certified hev, (onCertifiedVertex_eq cv hlower).2]
    cases (onLocalMicroQcs cr call.pre.cfg call.ctx acts call.pre.macros).result with
    | error e => simp [Except.map]
    | ok as => simp [Except.map]

/- The three handlers of a timer work on books of their own. -/

theorem exec_fires {id : TimerId} (hev : call.event = some (.timerFired id)) :
    StateMachine.exec cr call.input call.pre = call.pre.onTimerFired cr call.ctx id := by
  obtain ⟨sm, req, ctx⟩ := call
  cases req with
  | genesis => cases hev
  | event e =>
    cases hev
    rfl

theorem onWaves_rest (f : WaveBook → Result WaveBook)
    (g : StateMachine → MacroBook → Result MacroBook) (sm : StateMachine) :
    ((sm.onWaves f).andThen fun sm => sm.onMacros (g sm)).state.waves = (f sm.waves).state ∧
      ((sm.onWaves f).andThen fun sm => sm.onMacros (g sm)).state.vertices = sm.vertices ∧
      ((sm.onWaves f).andThen fun sm => sm.onMacros (g sm)).state.cfg = sm.cfg := by
  cases hr : (sm.onWaves f).result with
  | error e =>
    rw [Outcome.andThen_of_error hr]
    exact ⟨rfl, rfl, rfl⟩
  | ok acts =>
    rw [Outcome.andThen_of_ok hr]
    exact ⟨rfl, rfl, rfl⟩

theorem exec_firedWaves {id : TimerId} (hev : call.event = some (.timerFired id)) :
    (StateMachine.exec cr call.input call.pre).state.waves =
      (Bullshark.onTimerFired cr call.pre.cfg id call.ctx call.pre.waves).state := by
  have hrest := (@onWaves_rest (Bullshark.onTimerFired cr call.pre.cfg id call.ctx)
    (fun sm => MacroFin.onTimerFired cr sm.cfg call.ctx id) call.pre).1
  rw [exec_fires hev, ← hrest]
  unfold StateMachine.onTimerFired
  cases hr : ((call.pre.onWaves (Bullshark.onTimerFired cr call.pre.cfg id call.ctx)).andThen
      fun sm => sm.onMacros (MacroFin.onTimerFired cr sm.cfg call.ctx id)).result with
  | error e => rw [Outcome.andThen_of_error hr]
  | ok acts =>
    rw [Outcome.andThen_of_ok hr]
    rfl

theorem exec_fired_ok_iff {id : TimerId} (hev : call.event = some (.timerFired id)) :
    (∃ as, (StateMachine.exec cr call.input call.pre).result = .ok as) ↔
      (∃ as, (Bullshark.onTimerFired cr call.pre.cfg id call.ctx call.pre.waves).result = .ok as) ∧
      (∃ as, (MacroFin.onTimerFired cr call.pre.cfg call.ctx id call.pre.macros).result = .ok as) ∧
      ∃ as, (VertexCert.onTimerFired call.pre.cfg call.ctx id call.pre.vertices).result =
        .ok as := by
  obtain ⟨-, hvertices, hcfg⟩ := @onWaves_rest
    (Bullshark.onTimerFired cr call.pre.cfg id call.ctx)
    (fun sm => MacroFin.onTimerFired cr sm.cfg call.ctx id) call.pre
  rw [exec_fires hev]
  unfold StateMachine.onTimerFired
  rw [Outcome.andThen_ok_iff, Outcome.andThen_ok_iff, and_assoc]
  refine and_congr Iff.rfl (and_congr Iff.rfl ?_)
  simp only [StateMachine.onVertices, Outcome.lift, hvertices, hcfg]

theorem passed_timer (hworks : call.ctx.Works) {id : TimerId}
    (hev : call.event = some (.timerFired id)) : ∃ cs, Passed cr call cs := by
  obtain ⟨acts, cs, hpass, hres⟩ := pass_of_steady hworks (exec_waves cr call)
  have htries : ∀ w t, call.tries w t ↔ call.pre.waves.timerToWave[id]? = some w ∧ t = true := by
    intro w t
    simp only [NodeCall.tries, hev]
  have hall : ∀ w a, call.commits cr w a → ∃ x ∈ cs, x.wave = w ∧ x.anchor = a := by
    intro w a hc
    obtain ⟨set, hset, hne⟩ := hc.someSet
    refine hpass.all (t := true) (fun w t' ht => ((htries w t').mp ht).2) ?_ hc
    intro w a ht hcan
    have hin := (@onTimerFired_returns cr call.pre.cfg call.ctx hworks set hset hne id
      call.pre.waves).2 w a ((htries w true).mp ht).1 hcan
    rw [exec_firedWaves hev]
    exact hin
  refine ⟨cs, ⟨acts, hpass⟩, ?_, ?_, fun _ => hall, ?_⟩
  · intro as has
    rw [NodeCall.microQcs, Outcome.actions, has]
    simp only [hres as has, hpass.qcs]
  · intro _
    simp only [NodeCall.opensWaves, hev]
  · intro hne _
    obtain ⟨x, hx⟩ := List.exists_mem_of_ne_nil cs hne
    obtain ⟨set, hset, hne⟩ := (hpass.commits x hx).someSet
    have hwaves := (@onTimerFired_returns cr call.pre.cfg call.ctx hworks set hset hne id
      call.pre.waves).1
    rw [exec_fired_ok_iff hev]
    simp only [NodeCall.failsAfter, hev, hwaves, true_and, not_or, not_exists]
    cases (MacroFin.onTimerFired cr call.pre.cfg call.ctx id call.pre.macros).result <;>
      cases (VertexCert.onTimerFired call.pre.cfg call.ctx id call.pre.vertices).result <;> simp

theorem passed_other (hworks : call.ctx.Works)
    (hcv : ∀ cv, call.event ≠ some (.certifiedVertexReceived cv))
    (hid : ∀ id, call.event ≠ some (.timerFired id)) : Passed cr call [] := by
  obtain ⟨acts, cs, hpass, hres⟩ := pass_of_steady hworks (exec_waves cr call)
  have hnone : ∀ w a, ¬ call.commits cr w a := by
    rintro w a ⟨-, t, htried, -⟩
    unfold NodeCall.tries at htried
    split at htried
    · rename_i cv hev
      exact hcv cv hev
    · rename_i id hev
      exact hid id hev
    · exact htried
  have hnil : cs = [] := by
    by_contra hne
    obtain ⟨x, hx⟩ := List.exists_mem_of_ne_nil cs hne
    exact hnone x.wave x.anchor (hpass.commits x hx)
  subst hnil
  refine ⟨⟨acts, hpass⟩, ?_, by simp, fun _ w a hc => absurd hc (hnone w a), by simp⟩
  intro as has
  rw [NodeCall.microQcs, Outcome.actions, has]
  simp only [hres as has, hpass.qcs]

theorem exec_passed (hworks : call.ctx.Works) : ∃ cs, Passed cr call cs := by
  by_cases hcv : ∃ cv, call.event = some (.certifiedVertexReceived cv)
  · obtain ⟨cv, hev⟩ := hcv
    exact passed_certified hworks hev
  by_cases hid : ∃ id, call.event = some (.timerFired id)
  · obtain ⟨id, hev⟩ := hid
    exact passed_timer hworks hev
  · exact ⟨[], passed_other hworks (fun cv h => hcv ⟨cv, h⟩) fun id h => hid ⟨id, h⟩⟩

theorem Passed.inserted {cs : List WaveCommit} (h : Passed cr call cs) (w : WaveId) :
    w ∈ cs.map (·.wave) ↔
      w ∈ (StateMachine.exec cr call.input call.pre).state.waves.committedWaves ∧
        w ∉ call.pre.waves.committedWaves := by
  obtain ⟨acts, hpass⟩ := h.pass
  have hiff := hpass.committed w
  rw [WaveBook.core] at hiff
  rw [hiff, List.mem_map]
  constructor
  · rintro ⟨x, hx, rfl⟩
    exact ⟨Or.inr ⟨x, hx, rfl⟩, (hpass.commits x hx).1⟩
  · rintro ⟨hor, hnew⟩
    exact hor.resolve_left hnew

/-- A call publishes its commits iff each of them yields a micro QC and the step returns. -/
theorem Passed.publish_iff {cs : List WaveCommit} (h : Passed cr call cs) :
    CommitsPublish cr call ↔ (∀ x ∈ cs, x.qc.isSome) ∧
      (cs ≠ [] → ∃ as, (StateMachine.exec cr call.input call.pre).result = .ok as) := by
  obtain ⟨acts, hpass⟩ := h.pass
  constructor
  · rintro ⟨ps, hnodup, hwaves, hqcs, -⟩
    have hsame : (ps.map (·.1)).toFinset = (cs.map (·.wave)).toFinset := by
      ext w
      rw [List.mem_toFinset, List.mem_toFinset, hwaves, h.inserted]
    have hlen : ps.length = cs.length := by
      have hcard := congrArg Finset.card hsame
      rwa [List.toFinset_card_of_nodup hnodup, List.toFinset_card_of_nodup hpass.waves,
        List.length_map, List.length_map] at hcard
    have hcount : (call.microQcs cr).length = cs.length := by
      rw [← hqcs, List.length_map, hlen]
    cases hr : (StateMachine.exec cr call.input call.pre).result with
    | ok as =>
      rw [h.qcs as hr, length_filterMap_qc] at hcount
      exact ⟨hcount, fun _ => ⟨as, rfl⟩⟩
    | error e =>
      have hnone : call.microQcs cr = [] := by
        simp [NodeCall.microQcs, Outcome.actions, hr]
      rw [hnone] at hcount
      have hnil : cs = [] := List.length_eq_zero_iff.mp hcount.symm
      simp [hnil]
  · rintro ⟨hsome, hok⟩
    have hmap : (cs.filterMap fun x => x.qc.map fun q => (x.wave, q)).map (·.1) =
        cs.map (·.wave) := by
      rw [List.map_filterMap, ← List.filterMap_eq_map]
      refine List.filterMap_congr ?_
      intro x hx
      obtain ⟨q, hq⟩ := Option.isSome_iff_exists.mp (hsome x hx)
      simp [hq]
    refine ⟨cs.filterMap fun x => x.qc.map fun q => (x.wave, q), ?_, ?_, ?_, ?_⟩
    · rw [hmap]
      exact hpass.waves
    · rw [hmap]
      exact h.inserted
    · rw [List.map_filterMap]
      by_cases hnil : cs = []
      · subst hnil
        cases hr : (StateMachine.exec cr call.input call.pre).result with
        | ok as => exact (h.qcs as hr).symm
        | error e => simp [NodeCall.microQcs, Outcome.actions, hr]
      · obtain ⟨as, has⟩ := hok hnil
        rw [h.qcs as has]
        refine List.filterMap_congr ?_
        intro x _
        cases x.qc <;> rfl
    · intro p hp
      obtain ⟨x, hx, hxp⟩ := List.mem_filterMap.mp hp
      obtain ⟨q, hq, rfl⟩ := Option.map_eq_some_iff.mp hxp
      obtain ⟨hcheck, -, -⟩ := hpass.published x hx q hq
      unfold checkpointOf at hcheck
      cases horder : closureOfAnchor x.anchor call.ctx with
      | error e =>
        rw [horder] at hcheck
        cases hcheck
      | ok order =>
        rw [horder] at hcheck
        simp only [Except.map, Except.ok.injEq] at hcheck
        have hin := (h.inserted x.wave).mp (List.mem_map_of_mem hx)
        exact ⟨x.anchor, order, ⟨hpass.commits x hx, hin.1, horder⟩, hcheck.symm⟩

/-- One call publishes all its commits iff each of them can be published. -/
theorem commitsPublish_iff (hworks : call.ctx.Works) :
    CommitsPublish cr call ↔
      (call.opensWaves cr → ∀ w a, call.commits cr w a → Publishable cr call w a) := by
  obtain ⟨cs, h⟩ := @exec_passed cr call hworks
  obtain ⟨acts, hpass⟩ := h.pass
  rw [h.publish_iff]
  constructor
  · rintro ⟨hsome, hok⟩ hopen w a hc
    obtain ⟨x, hx, rfl, rfl⟩ := h.all hopen w a hc
    have hne := List.ne_nil_of_mem hx
    obtain ⟨q, hq⟩ := Option.isSome_iff_exists.mp (hsome x hx)
    obtain ⟨hcheck, hatt, hnew⟩ := hpass.published x hx q hq
    refine ⟨hatt, ?_, (h.returns hne hsome).mp (hok hne)⟩
    intro c hcc
    rw [hcheck] at hcc
    cases hcc
    refine ⟨hnew, ?_⟩
    intro w' a' hw' hc' hcheck'
    obtain ⟨y, hy, rfl, rfl⟩ := h.all hopen w' a' hc'
    obtain ⟨q', hq'⟩ := Option.isSome_iff_exists.mp (hsome y hy)
    have hsame := (hpass.published y hy q' hq').1
    rw [hcheck'] at hsame
    have hhash : q.checkpointHash = q'.checkpointHash := by simpa using hsame
    have hapart : x = y := by
      by_contra hxy
      have hsymm : Std.Symm fun x y : WaveCommit => ∀ q q', x.qc = some q → y.qc = some q' →
          q.checkpointHash ≠ q'.checkpointHash :=
        ⟨fun _ _ h q q' hq hq' heq => h q' q hq' hq heq.symm⟩
      exact hpass.apart.forall hx hy hxy q q' hq hq' hhash
    exact hw' (congrArg WaveCommit.wave hapart.symm)
  · intro hcond
    have hsome : ∀ x ∈ cs, x.qc.isSome := by
      intro x hx
      have hpub := hcond (h.opens (List.ne_nil_of_mem hx)) _ _ (hpass.commits x hx)
      by_contra hnone
      obtain ⟨c, hcheck, hwhy⟩ := hpass.withheld x hx (by simpa using hnone) hpub.attested
      obtain ⟨hnew, hothers⟩ := hpub.fresh c hcheck
      obtain ⟨y, hy, hne, q, hq, rfl⟩ := hwhy.resolve_left hnew
      exact hothers y.wave y.anchor hne (hpass.commits y hy) (hpass.published y hy q hq).1
    refine ⟨hsome, ?_⟩
    intro hne
    obtain ⟨x, hx⟩ := List.exists_mem_of_ne_nil cs hne
    exact (h.returns hne hsome).mpr
      (hcond (h.opens hne) _ _ (hpass.commits x hx)).completes

end Rest

/-- In runs over ports that do not fail, every wave is published by the step that commits it
if and only if every commit can be published. -/
theorem waves_published_iff (cr : Crypto) (cfg : Config) (self : ValidatorId)
    (is : List StateMachine.Input) (hworks : ∀ i ∈ is, i.2.Works) :
    (∀ call ∈ StateMachine.run cr cfg self is, CommitsPublish cr call) ↔
      ∀ call ∈ StateMachine.run cr cfg self is, NodeCall.opensWaves cr call →
        ∀ w a, NodeCall.commits cr call w a → Publishable cr call w a :=
  forall₂_congr fun _ hcall => commitsPublish_iff (hworks _ (run_input hcall))

/-- Ports over a view that holds some of the vertices `vs`, with room for its walks. -/
theorem works_holding {vs ws : List CertifiedVertex} {ctx : HostContext} (hsub : ws ⊆ vs)
    (hroom : Roomy vs ctx) (hset : ∃ s, ctx.setFor 0 = .ok s) (hbeacon : ∃ b, ctx.beacon = .ok b)
    (hprove : ∀ msg, ∃ p, ctx.vrfProve msg = .ok p) : (ctx.holding ws).Works := by
  refine ⟨hset, hbeacon, hprove, LiveDag.view_total _, ?_⟩
  intro r us hus v hv
  have hmem : v ∈ ws := by
    simp only [HostContext.holding, LiveDag.view, LiveDag.byRound_of, Except.ok.injEq] at hus
    rw [← hus] at hv
    exact (List.mem_filter.mp hv).1
  refine ⟨?_, closureOfAnchor_returns hsub hroom (mem_hashesOf (hsub hmem)).1⟩
  intro t
  obtain ⟨found, hfound, -⟩ := vertexReaches_spec hsub hroom hmem t
  exact ⟨found, hfound⟩

section Devnet
open Devnet

def partialViewOf (ws : List CertifiedVertex) (top : Round) : StateMachine.Input :=
  (.event (.certifiedVertexReceived (vertexAt top 2)), (ports 2 top).holding ws)

theorem partialView_works {ws : List CertifiedVertex} {top : Round} (hsub : ws ⊆ verticesUpTo top)
    (hroom : Roomy (verticesUpTo top) (ports 2 top)) : (partialViewOf ws top).2.Works :=
  works_holding hsub hroom ⟨_, rfl⟩ ⟨_, rfl⟩ fun _ => ⟨_, rfl⟩

def quorateInput : StateMachine.Input := partialViewOf (fromRound 3 (verticesUpTo 5)) 5

def quorateCall : NodeCall := ⟨StateMachine.new config ⟨2⟩, quorateInput⟩

theorem quorate_publishes : CommitsPublish openCrypto quorateCall := by
  have hwaves : (StateMachine.exec openCrypto quorateCall.input
      quorateCall.pre).state.waves.committedWaves = {1} := by
    decide
  refine ⟨[(1, ⟨vertexHash 4 0, repeatedSig 0xAB, [7#8]⟩)], by decide, ?_, by decide, ?_⟩
  · intro w
    rw [hwaves]
    simp [quorateCall, StateMachine.new]
  · intro p hp
    rw [List.mem_singleton.mp hp]
    refine ⟨vertexHash 4 0, vertexHash 4 0 :: (List.range 3).map (vertexHash 3) ++
      (List.range 3).map (vertexHash 2), ⟨⟨by decide, false, ⟨by decide, rfl⟩, validators,
      ⟨1, .shortcut, vertexHash 4 0⟩, rfl, by decide, rfl⟩, ?_, by decide⟩,
      by decide⟩
    rw [hwaves]
    simp

theorem quorate_publishable : Publishable openCrypto quorateCall 1 (vertexHash 4 0) := by
  have hworks : ∀ i ∈ [quorateInput], i.2.Works := by
    intro i hi
    rw [List.mem_singleton.mp hi]
    exact partialView_works (fromRound_subset 3 _) (by decide)
  have hcall : ∀ call ∈ StateMachine.run openCrypto config ⟨2⟩ [quorateInput],
      call = quorateCall := by
    simp [StateMachine.run, Trace.calls, quorateCall]
  refine (waves_published_iff openCrypto config ⟨2⟩ [quorateInput] hworks).mp ?_ quorateCall
    (by simp [StateMachine.run, Trace.calls, quorateCall]) ⟨[], by decide⟩ 1 _
    ⟨by decide, false, ⟨by decide, rfl⟩, validators, ⟨1, .shortcut, vertexHash 4 0⟩, rfl,
      by decide, rfl⟩
  intro call hc
  rw [hcall call hc]
  exact quorate_publishes

/-- The anchor of wave 0 has no parents: the wave is marked, and no quorum of authors
publishes it. -/
theorem first_wave_unpublished :
    ∃ is : List StateMachine.Input, (∀ i ∈ is, i.2.Works) ∧
      ¬ ∀ call ∈ StateMachine.run openCrypto config ⟨2⟩ is, CommitsPublish openCrypto call := by
  refine ⟨[partialViewOf (verticesUpTo 1) 1], ?_, ?_⟩
  · intro i hi
    rw [List.mem_singleton.mp hi]
    exact partialView_works (List.Subset.refl _) (by decide)
  · intro h
    obtain ⟨ps, -, hwaves, hqcs, -⟩ := h ⟨StateMachine.new config ⟨2⟩,
      partialViewOf (verticesUpTo 1) 1⟩ (by simp [StateMachine.run, Trace.calls])
    have hnone : NodeCall.microQcs openCrypto ⟨StateMachine.new config ⟨2⟩,
        partialViewOf (verticesUpTo 1) 1⟩ = [] := by
      decide
    have hin := (hwaves 0).mpr ⟨by decide, by decide⟩
    rw [hnone, List.map_eq_nil_iff] at hqcs
    simp [hqcs] at hin

end Devnet
end LuaDag
