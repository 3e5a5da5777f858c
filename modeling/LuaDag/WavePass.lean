import LuaDag.Layers

/-! L2 as an abstract protocol: waves commit, each once, and a committed wave yields at most
one micro QC. What one attempt of the source does is one move. -/
namespace LuaDag
open Simulation (Moves.single Moves.step Moves.refl Steady.move Steady.quiet Steady.fail
  Steady.andThen)
open MacroFin (microQcHash)

structure WaveCore where
  committed : Finset Nat
  emitted : Finset Hash32

def Bullshark.WaveBook.core (b : Bullshark.WaveBook) : WaveCore := ⟨b.committedWaves, b.emitted⟩

namespace Bullshark

def freshQc (cr : Crypto) (anchorHash : Hash32) (ctx : HostContext) (emitted : Finset Hash32) :
    Except Error (Option MicroQc) :=
  match closureOfAnchor anchorHash ctx with
  | .error e => .error e
  | .ok order =>
    if checkpointHashFromLinearization cr order ∈ emitted then .ok none
    else
      match lookupAll ctx.dag order with
      | .error e => .error e
      | .ok linearized =>
        microQcTryFinalize (checkpointHashFromLinearization cr order) linearized ctx

def noteQc (qc : Option MicroQc) (emitted : Finset Hash32) : Finset Hash32 :=
  match qc with
  | none => emitted
  | some qc => insert qc.checkpointHash emitted

/-- The attempt at `wave` finds its anchor `anchorHash` with enough support. -/
def CanCommit (cr : Crypto) (cfg : Config) (ctx : HostContext) (wave : WaveId) (timedOut : Bool)
    (anchorHash : Hash32) : Prop :=
  ∃ set d, ctx.setFor 0 = .ok (some set) ∧
    tryCommitWave cr wave cfg set ctx timedOut = .ok (some d) ∧ d.anchorHash = anchorHash

end Bullshark

open Bullshark

/-- The attempts of a call: every wave up to that of a new vertex, or a wave whose timer
has fired. -/
def NodeCall.tries (call : NodeCall) (wave : WaveId) (timedOut : Bool) : Prop :=
  match call.event with
  | some (.certifiedVertexReceived cv) => wave ≤ waveOfRound cv.vertex.round ∧ timedOut = false
  | some (.timerFired id) => call.pre.waves.timerToWave[id]? = some wave ∧ timedOut = true
  | _ => False

/-- The call tries `wave`, which is not committed yet, and succeeds. -/
def NodeCall.commits (cr : Crypto) (call : NodeCall) (wave : WaveId) (anchorHash : Hash32) : Prop :=
  wave ∉ call.pre.waves.committedWaves ∧
    ∃ timedOut, call.tries wave timedOut ∧
      CanCommit cr call.pre.cfg call.ctx wave timedOut anchorHash

inductive WaveStep (cr : Crypto) (cfg : Config) (ctx : HostContext)
    (tried : WaveId → Bool → Prop) : WaveCore → List SignReq → List Action → WaveCore → Prop
  | idle (c : WaveCore) (acts : List Action) (h : ∀ a ∈ acts, microQcHash a = none) :
      WaveStep cr cfg ctx tried c [] acts c
  | commit (c : WaveCore) (wave : WaveId) (timedOut : Bool) (a : Hash32) (qc : Option MicroQc)
      (acts : List Action) (hnew : wave ∉ c.committed) (htried : tried wave timedOut)
      (hcan : CanCommit cr cfg ctx wave timedOut a) (hacts : ∀ a ∈ acts, microQcHash a = none)
      (hqc : freshQc cr a ctx c.emitted = .ok qc) :
      WaveStep cr cfg ctx tried c [] (acts ++ (qc.map Action.broadcastMicroQc).toList)
        ⟨insert wave c.committed, noteQc qc c.emitted⟩
  /-- The wave is marked before its linearization fails. -/
  | stuck (c : WaveCore) (wave : WaveId) (timedOut : Bool) (a : Hash32) (e : Error)
      (acts : List Action) (hnew : wave ∉ c.committed) (htried : tried wave timedOut)
      (hcan : CanCommit cr cfg ctx wave timedOut a) (hacts : ∀ a ∈ acts, microQcHash a = none)
      (hqc : freshQc cr a ctx c.emitted = .error e) :
      WaveStep cr cfg ctx tried c [] acts ⟨insert wave c.committed, c.emitted⟩

namespace Bullshark
section Attempt
variable {cr : Crypto} {cfg : Config} {ctx : HostContext} {tried : WaveId → Bool → Prop}

/- Anchors. -/

theorem betterAnchor_some (best c : ValidatorId × Nat) :
    ∃ win, betterAnchor (some best) c = some win ∧ (win = best ∨ win = c) ∧
      win.2 ≤ best.2 ∧ win.2 ≤ c.2 := by
  unfold betterAnchor
  dsimp only
  split
  · rename_i hlt
    exact ⟨c, rfl, Or.inr rfl, Nat.le_of_lt hlt, Nat.le_refl _⟩
  rename_i hge
  split
  · rename_i hsame
    exact ⟨c, rfl, Or.inr rfl, Nat.le_of_eq hsame.1, Nat.le_refl _⟩
  · exact ⟨best, rfl, Or.inl rfl, Nat.le_refl _, Nat.le_of_not_lt hge⟩

theorem foldl_betterAnchor (best : ValidatorId × Nat) (cs : List (ValidatorId × Nat)) :
    ∃ win, cs.foldl betterAnchor (some best) = some win ∧ win ∈ best :: cs ∧
      ∀ c ∈ best :: cs, win.2 ≤ c.2 := by
  induction cs generalizing best with
  | nil => exact ⟨best, rfl, by simp, by simp⟩
  | cons c cs ih =>
    obtain ⟨next, hnext, hfrom, hbest, hc⟩ := betterAnchor_some best c
    obtain ⟨win, hwin, hmem, hmin⟩ := ih next
    have hle : win.2 ≤ next.2 := hmin next (by simp)
    refine ⟨win, by rw [List.foldl_cons, hnext, hwin], ?_, ?_⟩
    · cases List.mem_cons.mp hmem with
      | inl heq =>
        rw [heq]
        obtain rfl | rfl := hfrom <;> simp
      | inr hin => simp [hin]
    · intro x hx
      simp only [List.mem_cons] at hx
      obtain rfl | rfl | hin := hx
      · exact hle.trans hbest
      · exact hle.trans hc
      · exact hmin x (by simp [hin])

/-- What decides an anchor: the beacon, and no entry has a lower score than the winner. -/
theorem selectAnchor_spec {cr : Crypto} (wave : WaveId) {set : ValidatorSet} {ctx : HostContext}
    {beacon : Hash32} (hne : set.entries ≠ []) (hbeacon : ctx.beacon = .ok beacon) :
    ∃ e ∈ set.entries, selectAnchor cr wave set ctx = .ok e.id ∧ ∀ e' ∈ set.entries,
      cr.sortitionScore (sortitionBeta cr beacon wave e.id) set.totalStake e.stake 0 ≤
        cr.sortitionScore (sortitionBeta cr beacon wave e'.id) set.totalStake e'.stake 0 := by
  obtain ⟨first, rest, hes⟩ := List.exists_cons_of_ne_nil hne
  let scoreOf : ValidatorEntry → ValidatorId × Nat := fun e =>
    (e.id, cr.sortitionScore (sortitionBeta cr beacon wave e.id) set.totalStake e.stake 0)
  obtain ⟨win, hwin, hmem, hmin⟩ := foldl_betterAnchor (scoreOf first) (rest.map scoreOf)
  rw [← List.map_cons, ← hes] at hmem hmin
  obtain ⟨e, he, rfl⟩ := List.mem_map.mp hmem
  refine ⟨e, he, ?_, fun e' he' => hmin _ (List.mem_map_of_mem he')⟩
  have hscored : (set.entries.map scoreOf).foldl betterAnchor none = some (scoreOf e) := by
    rw [hes, List.map_cons, List.foldl_cons, ← hwin]
    rfl
  unfold selectAnchor
  rw [if_neg (by simpa using hne), hbeacon]
  dsimp only
  rw [hscored]

/-- A decision is for the vertex of the selected author. -/
theorem tryCommitWave_anchor {wave : WaveId} {set : ValidatorSet} {t : Bool} {d : CommitDecision}
    (h : tryCommitWave cr wave cfg set ctx t = .ok (some d)) :
    set.entries.isEmpty = false ∧ ∃ author vs v, selectAnchor cr wave set ctx = .ok author ∧
      ctx.dag.verticesAtRound (firstRound wave) = .ok vs ∧
      vs.find? (fun v => decide (v.vertex.author = author)) = some v ∧
      v.vertex.hash = d.anchorHash := by
  unfold tryCommitWave at h
  dsimp only at h
  split at h
  · cases h
  rename_i hne
  split at h
  · cases h
  rename_i author hauthor
  split at h
  · cases h
  rename_i vs hvs
  split at h
  · cases h
  rename_i v hv
  refine ⟨by simpa using hne, author, vs, v, hauthor, hvs, hv, ?_⟩
  split at h
  · cases h
  split at h
  · cases h
    rfl
  split at h
  · split at h
    · cases h
    split at h
    · cases h
      rfl
    · cases h
  · cases h

theorem tryCommitWave_absent {wave : WaveId} {set : ValidatorSet} {author : ValidatorId}
    {vs : List CertifiedVertex} (hselect : selectAnchor cr wave set ctx = .ok author)
    (hvs : ctx.dag.verticesAtRound (firstRound wave) = .ok vs)
    (hfind : vs.find? (fun v => decide (v.vertex.author = author)) = none) (timedOut : Bool) :
    tryCommitWave cr wave cfg set ctx timedOut = .ok none := by
  unfold tryCommitWave
  rw [hselect]
  dsimp only
  rw [hvs]
  dsimp only
  rw [hfind]
  split <;> rfl

section Counted
variable {wave : WaveId} {set : ValidatorSet} (timedOut : Bool) {author : ValidatorId}
  {vs : List CertifiedVertex} {anchor : CertifiedVertex} {shortcut slow : Finset ValidatorId}
  (hselect : selectAnchor cr wave set ctx = .ok author)
  (hvs : ctx.dag.verticesAtRound (firstRound wave) = .ok vs)
  (hfind : vs.find? (fun v => decide (v.vertex.author = author)) = some anchor)
  (hshort : countSupporters anchor.vertex.hash (firstRound wave) ctx
    cfg.bullshark.shortcutRoundCount = .ok shortcut)
  (hslow : countSupporters anchor.vertex.hash (firstRound wave) ctx
    cfg.bullshark.slowPathRoundCount = .ok slow)
include hselect hvs hfind hshort hslow

/-- What `try_commit_wave` decides once the supporters of its anchor are counted. -/
theorem tryCommitWave_counted :
    tryCommitWave cr wave cfg set ctx timedOut =
      .ok (if 2 * ((set.entries.length - 1) / 3) + 1 ≤ shortcut.card then
          some ⟨wave, .shortcut, anchor.vertex.hash⟩
        else if timedOut = true ∧ 2 * ((set.entries.length - 1) / 3) + 1 ≤ slow.card then
          some ⟨wave, .slowPath, anchor.vertex.hash⟩
        else none) := by
  have hne : set.entries.isEmpty = false := by
    by_contra h
    rw [selectAnchor, if_pos (by simpa using h)] at hselect
    cases hselect
  unfold tryCommitWave
  rw [hne, if_neg (by decide), hselect]
  dsimp only
  rw [hvs]
  dsimp only
  rw [hfind]
  dsimp only
  rw [hshort]
  dsimp only
  split
  · rfl
  cases timedOut with
  | false => simp
  | true =>
    rw [if_pos rfl, hslow]
    dsimp only
    split <;> simp_all

theorem tryCommitWave_threshold :
    (∃ d, tryCommitWave cr wave cfg set ctx timedOut = .ok (some d)) ↔
      2 * ((set.entries.length - 1) / 3) + 1 ≤ shortcut.card ∨
        timedOut = true ∧ 2 * ((set.entries.length - 1) / 3) + 1 ≤ slow.card := by
  rw [tryCommitWave_counted timedOut hselect hvs hfind hshort hslow]
  split
  · rename_i hle
    exact iff_of_true ⟨_, rfl⟩ (Or.inl hle)
  rename_i hfew
  split
  · rename_i hle
    exact iff_of_true ⟨_, rfl⟩ (Or.inr hle)
  · rename_i hfew'
    exact iff_of_false (by simp) (fun h => h.elim hfew hfew')

end Counted

/-- Where an anchor can be committed, set and beacon can be read. -/
theorem CanCommit.ports {wave : WaveId} {t : Bool} {a : Hash32}
    (h : CanCommit cr cfg ctx wave t a) :
    ∃ set beacon, activeSet ctx = .ok set ∧ ctx.beacon = .ok beacon := by
  obtain ⟨set, d, hset, hd, -⟩ := h
  obtain ⟨-, author, -, -, hauthor, -⟩ := tryCommitWave_anchor hd
  unfold selectAnchor at hauthor
  split at hauthor
  · cases hauthor
  split at hauthor
  · cases hauthor
  rename_i beacon hbeacon
  exact ⟨set, beacon, by simp [activeSet, hset], hbeacon⟩

theorem microQcTryFinalize_hash {h : Hash32} {vs : List CertifiedVertex} {qc : MicroQc}
    (hqc : microQcTryFinalize h vs ctx = .ok (some qc)) : qc.checkpointHash = h := by
  unfold microQcTryFinalize at hqc
  split at hqc
  · cases hqc
  dsimp only at hqc
  split at hqc
  · cases hqc
  split at hqc
  · cases hqc
  · cases hqc
    rfl

/-- `emitCommitted` in terms of the micro QC it yields. -/
theorem emitCommitted_eq (a : Hash32) (book : WaveBook) :
    emitCommitted cr a ctx book =
      match freshQc cr a ctx book.emitted with
      | .error e => .fail book e
      | .ok none => .quiet book
      | .ok (some qc) =>
        .ok { book with emitted := insert qc.checkpointHash book.emitted }
          [.broadcastMicroQc qc] := by
  unfold emitCommitted freshQc
  cases hclosure : closureOfAnchor a ctx with
  | error e => rfl
  | ok order =>
    dsimp only
    by_cases hold : checkpointHashFromLinearization cr order ∈ book.emitted
    · rw [if_pos hold, if_pos hold]
    rw [if_neg hold, if_neg hold]
    cases hlookup : lookupAll ctx.dag order with
    | error e => rfl
    | ok linearized =>
      dsimp only
      cases hqc : microQcTryFinalize (checkpointHashFromLinearization cr order) linearized ctx with
      | error e => rfl
      | ok qc =>
        cases qc with
        | none => rfl
        | some qc =>
          dsimp only
          rw [microQcTryFinalize_hash hqc]

theorem armSlowTimer_step (wave : WaveId) (set : ValidatorSet) (timedOut : Bool)
    (book : WaveBook) :
    Simulation.Steady (WaveStep cr cfg ctx tried) WaveBook.core book.core
      (armSlowTimer cr wave cfg set ctx timedOut book) := by
  unfold armSlowTimer
  split
  · split
    · exact Steady.fail book _
    · exact Steady.quiet book
    · exact Steady.move (WaveStep.idle book.core _ (by simp [microQcHash]))
  · exact Steady.quiet book

theorem commit_step {wave : WaveId} {timedOut : Bool} {a : Hash32} {book marked : WaveBook}
    {acts : List Action} (hnew : wave ∉ book.committedWaves) (htried : tried wave timedOut)
    (hcan : CanCommit cr cfg ctx wave timedOut a)
    (hacts : ∀ a ∈ acts, microQcHash a = none)
    (hmarked : marked.core = ⟨insert wave book.committedWaves, book.emitted⟩) :
    Simulation.Steady (WaveStep cr cfg ctx tried) WaveBook.core book.core
      ((Outcome.ok marked acts).andThen (emitCommitted cr a ctx)) := by
  have hemitted : marked.emitted = book.emitted := congrArg WaveCore.emitted hmarked
  have hcommitted : marked.committedWaves = insert wave book.committedWaves :=
    congrArg WaveCore.committed hmarked
  rw [Outcome.andThen_of_ok rfl, Outcome.ok_state, emitCommitted_eq, hemitted]
  cases hqc : freshQc cr a ctx book.emitted with
  | error e =>
    refine ⟨acts, ?_, fun as has => by cases has⟩
    have hmove := WaveStep.stuck book.core wave timedOut a e acts hnew htried hcan hacts hqc
    rw [Outcome.fail_state, hmarked]
    exact Moves.single hmove
  | ok qc =>
    have hmove := WaveStep.commit book.core wave timedOut a qc acts hnew htried hcan hacts hqc
    cases qc with
    | none =>
      refine Steady.move ?_
      simpa [noteQc, WaveBook.core, hcommitted, hemitted] using hmove
    | some qc =>
      refine Steady.move ?_
      simpa [WaveBook.core, hcommitted, noteQc] using hmove

theorem tryEmitForWave_step {wave : WaveId} {timedOut : Bool} (htried : tried wave timedOut)
    (book : WaveBook) :
    Simulation.Steady (WaveStep cr cfg ctx tried) WaveBook.core book.core
      (tryEmitForWave cr wave cfg ctx timedOut book) := by
  unfold tryEmitForWave
  split
  · exact Steady.quiet book
  rename_i hnew
  split
  · exact Steady.fail book _
  · exact Steady.quiet book
  rename_i set hset
  split
  · exact Steady.fail book _
  · exact armSlowTimer_step wave set timedOut book
  rename_i d hd
  have hcan : CanCommit cr cfg ctx wave timedOut d.anchorHash := ⟨set, d, hset, hd, rfl⟩
  dsimp only
  split
  · exact commit_step hnew htried hcan (by simp) rfl
  · exact commit_step hnew htried hcan (by simp [microQcHash]) rfl

theorem onCertifiedVertex_step {cv : CertifiedVertex}
    (htried : ∀ w ≤ waveOfRound cv.vertex.round, tried w false) (book : WaveBook) :
    Simulation.Steady (WaveStep cr cfg ctx tried) WaveBook.core book.core
      (onCertifiedVertex cr cfg cv ctx book) := by
  unfold onCertifiedVertex
  have hfold : ∀ (ws : List Nat) (o : Result WaveBook), (∀ w ∈ ws, tried w false) →
      Simulation.Steady (WaveStep cr cfg ctx tried) WaveBook.core book.core o →
      Simulation.Steady (WaveStep cr cfg ctx tried) WaveBook.core book.core
        (ws.foldl (fun o w => o.andThen fun book =>
          if w ∈ book.committedWaves then .quiet book
          else tryEmitForWave cr w cfg ctx false book) o) := by
    intro ws
    induction ws with
    | nil => exact fun o _ ho => ho
    | cons w ws ih =>
      intro o hws ho
      refine ih _ (fun w' hw' => hws w' (List.mem_cons_of_mem _ hw')) (Steady.andThen ho ?_)
      intro _ _
      split
      · exact Steady.quiet _
      · exact tryEmitForWave_step (hws w (by simp)) _
  refine hfold _ _ ?_ (Steady.quiet book)
  intro w hw
  exact htried w (Nat.le_of_lt_succ (List.mem_range.mp hw))

theorem onTimerFired_step {id : TimerId} {book : WaveBook}
    (htried : ∀ w, book.timerToWave[id]? = some w → tried w true) :
    Simulation.Steady (WaveStep cr cfg ctx tried) WaveBook.core book.core
      (onTimerFired cr cfg id ctx book) := by
  unfold onTimerFired
  split
  · exact Steady.quiet book
  · rename_i wave hwave
    exact tryEmitForWave_step (htried wave hwave) { book with
      timerToWave := book.timerToWave.erase id
      slowTimerByWave := book.slowTimerByWave.erase wave }

end Attempt
end Bullshark

/- The whole call. -/

theorem vertex_noMicro {call : NodeCall} {c : VertexCore} {o : Result VertexBook}
    (h : VertexSteady call c o) : ∀ a ∈ o.actions, microQcHash a = none := by
  intro a ha
  have hkind := (vertex_kind h).2 a ha
  cases a <;> simp_all [Action.isVertexKind, microQcHash]

theorem handled_noMicro {cr : Crypto} {call : NodeCall} {c : MacroCore} {o : Result MacroBook}
    (h : Handled cr call c o) : ∀ a ∈ o.actions, microQcHash a = none := by
  intro a ha
  have hkind := (handled_kind h).2 a ha
  cases a <;> simp_all [Action.isMacroKind, microQcHash]

abbrev NodeWaveStep (cr : Crypto) (call : NodeCall) :=
  Simulation.Within (WaveStep cr call.pre.cfg call.ctx call.tries) (fun _ => True)
    (fun a => microQcHash a = none)

theorem layers_waves (cr : Crypto) (call : NodeCall) :
    LayersSteady cr call (NodeWaveStep cr call) (·.waves.core) := by
  refine ⟨?_, ?_, ?_⟩
  · intro sm f _ hf
    exact Simulation.Steady.other rfl (fun _ _ => trivial) (vertex_noMicro (hf.steady sm.vertices))
  · intro sm f hsm hf
    refine @Simulation.Steady.lift _ _ _ _ _ _ WaveBook.core _ _ _ _ _ _ _ ?_ fun _ => rfl
    cases hf with
    | certified cv h =>
      refine onCertifiedVertex_step ?_ sm.waves
      intro w hw
      simp [NodeCall.tries, h, hw]
    | microQc qc h => exact Steady.quiet sm.waves
    | timer id h =>
      refine onTimerFired_step ?_
      intro w hw
      simp [NodeCall.tries, h, ← hsm, hw]
  · intro sm f hsm hf
    refine Simulation.Steady.other rfl (fun _ _ => trivial) ?_
    have hnone := handled_noMicro hf.handled
    rw [← hsm] at hnone
    exact hnone

theorem exec_waves (cr : Crypto) (call : NodeCall) :
    Simulation.Steady (NodeWaveStep cr call) (·.waves.core) call.pre.waves.core
      (StateMachine.exec cr call.input call.pre) :=
  (layers_waves cr call).exec

end LuaDag
