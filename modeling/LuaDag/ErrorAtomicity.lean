import LuaDag.VertexMoves
import LuaDag.WavePass
import LuaDag.MacroFrame
import LuaDag.Devnet

/-! Steps that fail in a port. Nothing is rolled back: the machine is as before the call
exactly where no write that changes something comes before the failing port. -/
namespace LuaDag
open VertexCert Bullshark MacroFin

inductive OwnError : Error → Prop
  | noSet : OwnError (.invalidConfig "no validator set for epoch 0")
  | tooLarge : OwnError (.invalidConfig "validator set too large")
  | emptySet : OwnError (.invalidConfig "anchor selection on empty validator set")
  | assemble (e : CertError) : OwnError (.invalidConfig ("assemble vertex cert: " ++ e.text))
  | selfCheck (e : CertError) : OwnError (.invalidConfig ("self-check vertex cert: " ++ e.text))
  | panic (msg : String) : OwnError (.panic msg)
  | overflow : OwnError .overflow

def confirmedBlobs (signed : List SignReq) : List BlobRef :=
  signed.flatMap fun r =>
    match r with
    | (.vertexProposal, .vertexBody _ _ _ blobs) => blobs
    | _ => []

section Step
variable (cr : Crypto) (sm : StateMachine) (ctx : HostContext)

/-- The step has changed nothing: delivering the event again has the effect it has now. -/
structure StepUndone (ev : Event) : Prop where
  state : (sm.step cr ctx ev).state = sm
  blobs : confirmedBlobs (sm.step cr ctx ev).signed = []
  again : ∀ ctx', (sm.step cr ctx ev).state.step cr ctx' ev = sm.step cr ctx' ev

end Step

/- What is written before a port is asked. -/
section Writes
variable (cr : Crypto) (cfg : Config) (ctx : HostContext)

def Recorded (book : VertexBook) (cv : CertifiedVertex) : Prop :=
  ∃ certs, book.certifiedByRound[cv.vertex.round]? = some certs ∧
    certs[cv.vertex.author]? = some cv.vertex.hash

/-- L1 passes the certificate on and keeps its book: the certificate is known before the node
has started, or it completes no round and is pruned at once with nothing else to prune. -/
def VerticesStay (book : VertexBook) (cv : CertifiedVertex) : Prop :=
  book.started = false ∧ Recorded book cv ∨
    book.started = true ∧ (∃ set need, activeSet ctx = .ok set ∧ quorumNeed set = .ok need ∧
      (recordCert book cv).certifiedCountAt book.currentRound < need) ∧
      prune (recordCert book cv) = book

def WaveBlocks (w : WaveId) : Prop :=
  (∃ e, ctx.setFor 0 = .error e) ∨
    ∃ set e, ctx.setFor 0 = .ok (some set) ∧ tryCommitWave cr w cfg set ctx false = .error e

def WaveMoves (book : WaveBook) (w : WaveId) : Prop :=
  ∃ set, ctx.setFor 0 = .ok (some set) ∧
    ((∃ d, tryCommitWave cr w cfg set ctx false = .ok (some d)) ∨
      tryCommitWave cr w cfg set ctx false = .ok none ∧
        book.slowTimerByWave.contains w = false ∧ anchorPresent cr w set ctx = .ok true)

/-- L2 fails at a wave of `ws`, and none before it is marked or armed. -/
def WavesStay (ws : List WaveId) (book : WaveBook) : Prop :=
  ∃ w ∈ ws, w ∉ book.committedWaves ∧ WaveBlocks cr cfg ctx w ∧
    ∀ w' ∈ ws, w' < w → w' ∉ book.committedWaves → ¬ WaveMoves cr cfg ctx book w'

def NothingNew (sm : StateMachine) : Event → Prop
  | .certifiedVertexReceived cv =>
    sm.vertices.started = true ∧ (∃ e, ctx.setFor 0 = .error e) ∧ Recorded sm.vertices cv ∨
      VerticesStay ctx sm.vertices cv ∧
        WavesStay cr sm.cfg ctx (List.range (waveOfRound cv.vertex.round + 1)) sm.waves
  | .blsPartialReceived bp => (∃ e, ctx.setFor 0 = .error e) ∨
      sm.macros.partialSigs[toLex (bp.checkpointHash, bp.validator)]? = some bp.sig
  | .subnetAggregateReceived a => (∃ e, ctx.setFor 0 = .error e) ∨
      ∃ aggs, sm.macros.subnetAggs[a.checkpointHash]? = some aggs ∧ aggs[a.subnet]? = some a
  | .vertexPartialReceived bp => ∃ sigs, sm.vertices.collecting[bp.vertexHash]? = some sigs
  -- the timer is taken from its book first
  | .timerFired _ => False
  | _ => True

end Writes

/- L1. -/
namespace VertexCert
section Own
variable {cr : Crypto} {cfg : Config} {ctx : HostContext} {set : ValidatorSet}

theorem activeSet_port {e : Error} (h : activeSet ctx = .error e) (hport : ¬ OwnError e) :
    ctx.setFor 0 = .error e := by
  unfold activeSet at h
  split at h
  · cases h
    assumption
  · cases h
    exact absurd .noSet hport
  · cases h

theorem activeSet_reads (h : activeSet ctx = .ok set) : ctx.setFor 0 = .ok (some set) := by
  unfold activeSet at h
  split at h
  · cases h
  · cases h
  · cases h
    assumption

theorem quorumNeed_own {e : Error} (h : quorumNeed set = .error e) : OwnError e := by
  unfold quorumNeed at h
  split at h
  · cases h
    exact .tooLarge
  · cases h

def FailsOwn (f : VertexBook → Result VertexBook) : Prop :=
  ∀ b e, (f b).result = .error e → OwnError e

theorem FailsOwn.andThen {f g : VertexBook → Result VertexBook} (hf : FailsOwn f)
    (hg : FailsOwn g) : FailsOwn fun b => (f b).andThen g := by
  intro b e h
  obtain hl | ⟨acts, -, hr⟩ := Outcome.andThen_error_iff.mp h
  · exact hf b e hl
  · exact hg _ e hr

theorem tryFinalizeWith_failsOwn (hset : activeSet ctx = .ok set)
    {advance : VertexBook → Result VertexBook} (hadv : FailsOwn advance) (hash : Hash32) :
    FailsOwn (tryFinalizeWith cr ctx advance hash) := by
  intro b e h
  unfold tryFinalizeWith at h
  split at h
  · cases h
  split at h
  · cases h
  rw [hset] at h
  dsimp only at h
  split at h
  · rename_i hneed
    cases h
    exact quorumNeed_own hneed
  split at h
  · cases h
  split at h
  · cases h
  split at h
  · cases h
    exact .assemble _
  split at h
  · cases h
    exact .selfCheck _
  obtain hl | ⟨acts, -, hr⟩ := Outcome.andThen_error_iff.mp h
  · cases hl
  · exact hadv _ e hr

theorem proposeRoundWith_failsOwn (hset : activeSet ctx = .ok set)
    {advance : VertexBook → Result VertexBook} (hadv : FailsOwn advance) (round : Round)
    (parents : List Hash32) : FailsOwn (proposeRoundWith cr cfg ctx advance round parents) := by
  intro b e h
  obtain hl | ⟨acts, -, hr⟩ := Outcome.andThen_error_iff.mp h
  · cases hl
  · exact tryFinalizeWith_failsOwn hset hadv _ _ e hr

theorem maybeAdvanceWith_failsOwn (hset : activeSet ctx = .ok set)
    {loop : Nat → VertexBook → Result VertexBook} (hloop : ∀ need, FailsOwn (loop need)) :
    FailsOwn (maybeAdvanceWith ctx loop) := by
  intro b e h
  unfold maybeAdvanceWith at h
  split at h
  · cases h
  rw [hset] at h
  dsimp only at h
  split at h
  · rename_i hneed
    cases h
    exact quorumNeed_own hneed
  · exact (hloop _).andThen (fun _ _ h => by cases h) b e h

theorem advanceLoop_failsOwn (hset : activeSet ctx = .ok set) (fuel need : Nat) :
    FailsOwn (advanceLoop cr cfg ctx fuel need) := by
  induction fuel generalizing need with
  | zero =>
    intro b e h
    cases h
    exact .overflow
  | succ fuel ih =>
    intro b e h
    unfold advanceLoop at h
    split at h
    · cases h
    split at h
    · cases h
    obtain hl | ⟨acts, -, hr⟩ := Outcome.andThen_error_iff.mp h
    · exact proposeRoundWith_failsOwn hset (maybeAdvanceWith_failsOwn hset ih) _ _ _ e hl
    · exact ih need _ e hr

theorem maybeAdvance_failsOwn (hset : activeSet ctx = .ok set) :
    FailsOwn (maybeAdvance cr cfg ctx) :=
  maybeAdvanceWith_failsOwn hset (advanceLoop_failsOwn hset ctx.fuel)

end Own

section Stay
variable {cr : Crypto}

theorem recordCert_same {b : VertexBook} {cv : CertifiedVertex} :
    recordCert b cv = b ↔ Recorded b cv := by
  have hfield : recordCert b cv = b ↔ b.certifiedByRound.insert cv.vertex.round
      ((b.certifiedByRound[cv.vertex.round]?.getD ∅).insert cv.vertex.author cv.vertex.hash) =
        b.certifiedByRound :=
    ⟨fun h => congrArg VertexBook.certifiedByRound h, fun h => by rw [recordCert, h]⟩
  rw [hfield, Maps.insert_same, Recorded]
  cases b.certifiedByRound[cv.vertex.round]? with
  | none => simp
  | some certs =>
    simp only [Option.getD_some, Option.some.injEq, exists_eq_left']
    rw [eq_comm, Maps.insert_same]

theorem bookMove_round {call : NodeCall} {n : Round} {b d : VertexBook} {sg : List SignReq}
    {acts : List Action} (h : BookMove cr call b sg acts d)
    (hb : b.started = true ∧ n ≤ b.currentRound) : d.started = true ∧ n ≤ d.currentRound := by
  cases h with
  | genesis hst =>
    rw [hb.1] at hst
    cases hst
  | propose set need certs hst hset hready => exact ⟨hst, hb.2.trans (Nat.le_succ _)⟩
  | _ => exact hb

theorem bookSteady_round {call : NodeCall} {n : Round} {b : VertexBook} {o : Result VertexBook}
    (h : BookSteady cr call b o) (hst : b.started = true) (hn : n ≤ b.currentRound) :
    o.state.started = true ∧ n ≤ o.state.currentRound := by
  obtain ⟨acts, hpath, -⟩ := h
  exact hpath.keeps (P := fun d => d.started = true ∧ n ≤ d.currentRound)
    (fun _ _ _ _ => bookMove_round) ⟨hst, hn⟩

/-- Either the current round holds no quorum and nothing but pruning happens, or the node goes
on to a higher round. -/
theorem maybeAdvance_stays {call : NodeCall} {set : ValidatorSet} {need : Nat} {b : VertexBook}
    (hset : activeSet call.ctx = .ok set) (hneed : quorumNeed set = .ok need)
    (hst : b.started = true) {acts : List Action}
    (hok : (maybeAdvance cr call.pre.cfg call.ctx b).result = .ok acts) :
    (b.certifiedCountAt b.currentRound < need ∧
        maybeAdvance cr call.pre.cfg call.ctx b = .quiet (prune b)) ∨
      ¬ b.certifiedCountAt b.currentRound < need ∧
        b.currentRound < (maybeAdvance cr call.pre.cfg call.ctx b).state.currentRound := by
  have hpos : 0 < need := by
    unfold quorumNeed at hneed
    split at hneed
    · cases hneed
    · cases hneed
      exact Nat.succ_pos _
  have hunfold : maybeAdvance cr call.pre.cfg call.ctx b =
      (advanceLoop cr call.pre.cfg call.ctx call.ctx.fuel need b).andThen
        fun b => .quiet (prune b) := by
    simp [maybeAdvance, maybeAdvanceWith, hst, hset, hneed]
  rw [hunfold] at hok ⊢
  cases hfuel : call.ctx.fuel with
  | zero =>
    rw [hfuel] at hok
    cases hok
  | succ fuel =>
    rw [hfuel] at hok
    cases hcerts : b.certifiedByRound[b.currentRound]? with
    | none =>
      refine Or.inl ⟨by simpa [VertexBook.certifiedCountAt, hcerts] using hpos, ?_⟩
      rw [advanceLoop, hcerts, Outcome.quiet_andThen]
    | some certs =>
      by_cases hsize : certs.size < need
      · refine Or.inl ⟨by simpa [VertexBook.certifiedCountAt, hcerts] using hsize, ?_⟩
        rw [advanceLoop, hcerts]
        dsimp only
        rw [if_pos hsize, Outcome.quiet_andThen]
      · refine Or.inr ⟨by simpa [VertexBook.certifiedCountAt, hcerts] using hsize, ?_⟩
        rw [advanceLoop, hcerts] at hok ⊢
        dsimp only at hok ⊢
        rw [if_neg hsize] at hok ⊢
        -- the new proposal raises the round, and nothing after it lowers it
        have hfinal := @tryFinalizeWith_moves cr call _
          (@maybeAdvanceWith_moves cr call _ (@advanceLoop_moves cr call fuel))
          (ownVertex cr call.ctx b (b.currentRound + 1) (certs.values.take need)).hash
          (seeded cr call.ctx b (b.currentRound + 1) (certs.values.take need))
        have hkept := @bookSteady_round cr call (b.currentRound + 1)
          (seeded cr call.ctx b (b.currentRound + 1) (certs.values.take need)) _ hfinal hst
          (Nat.le_refl _)
        have hraised : (proposeRoundWith cr call.pre.cfg call.ctx
            (maybeAdvanceWith call.ctx (advanceLoop cr call.pre.cfg call.ctx fuel))
            (b.currentRound + 1) (certs.values.take need) b).state.started = true ∧
          b.currentRound + 1 ≤ (proposeRoundWith cr call.pre.cfg call.ctx
            (maybeAdvanceWith call.ctx (advanceLoop cr call.pre.cfg call.ctx fuel))
            (b.currentRound + 1) (certs.values.take need) b).state.currentRound :=
          hkept
        obtain ⟨⟨acts', hloopOk⟩, -⟩ := Outcome.andThen_ok_iff.mp ⟨acts, hok⟩
        obtain ⟨⟨acts'', hproposeOk⟩, -⟩ := Outcome.andThen_ok_iff.mp ⟨acts', hloopOk⟩
        rw [Outcome.andThen_of_ok hloopOk, Outcome.andThen_of_ok hproposeOk]
        have hrest := (@advanceLoop_moves cr call fuel set need _ hset hneed hraised.1).1
        exact (bookSteady_round hrest hraised.1 hraised.2).2

/-- What L1 makes of a certified vertex when it does not fail on its own. -/
theorem onCertifiedVertex_stays {call : NodeCall} {cv : CertifiedVertex} {b : VertexBook}
    (hown : ∀ e, (VertexCert.onCertifiedVertex cr call.pre.cfg call.ctx cv b).result = .error e →
      ¬ OwnError e) :
    (b.started = true ∧ ∃ e, call.ctx.setFor 0 = .error e ∧
      VertexCert.onCertifiedVertex cr call.pre.cfg call.ctx cv b = .fail (recordCert b cv) e) ∨
    (∃ acts, (VertexCert.onCertifiedVertex cr call.pre.cfg call.ctx cv b).result = .ok acts) ∧
      ((VertexCert.onCertifiedVertex cr call.pre.cfg call.ctx cv b).state = b ↔
        VerticesStay call.ctx b cv) ∧
      (VerticesStay call.ctx b cv →
        VertexCert.onCertifiedVertex cr call.pre.cfg call.ctx cv b = .quiet b) := by
  cases hst : b.started with
  | false =>
    have hquiet : VertexCert.onCertifiedVertex cr call.pre.cfg call.ctx cv b =
        .quiet (recordCert b cv) := by
      have hst' : (recordCert b cv).started = false := hst
      simp [VertexCert.onCertifiedVertex, maybeAdvance, maybeAdvanceWith, hst']
    have hsame : recordCert b cv = b ↔ VerticesStay call.ctx b cv := by
      rw [recordCert_same]
      simp [VerticesStay, hst]
    rw [hquiet]
    exact Or.inr ⟨⟨[], rfl⟩, hsame, fun h => by rw [hsame.mpr h]⟩
  | true =>
    have hst' : (recordCert b cv).started = true := hst
    cases hset : activeSet call.ctx with
    | error e =>
      have hfail : VertexCert.onCertifiedVertex cr call.pre.cfg call.ctx cv b =
          .fail (recordCert b cv) e := by
        simp [VertexCert.onCertifiedVertex, maybeAdvance, maybeAdvanceWith, hst', hset]
      rw [hfail] at hown ⊢
      exact Or.inl ⟨rfl, e, activeSet_port hset (hown e rfl), rfl⟩
    | ok set =>
      cases hr : (VertexCert.onCertifiedVertex cr call.pre.cfg call.ctx cv b).result with
      | error e => exact absurd (maybeAdvance_failsOwn hset _ e hr) (hown e hr)
      | ok acts =>
        cases hneed : quorumNeed set with
        | error e =>
          simp [VertexCert.onCertifiedVertex, maybeAdvance, maybeAdvanceWith, hst', hset,
            hneed] at hr
        | ok need =>
          refine Or.inr ⟨⟨acts, rfl⟩, ?_⟩
          have hstay : VerticesStay call.ctx b cv ↔
              (recordCert b cv).certifiedCountAt b.currentRound < need ∧
                prune (recordCert b cv) = b := by
            simp [VerticesStay, hst, hset, hneed]
          rw [hstay]
          cases maybeAdvance_stays hset hneed hst' hr with
          | inl h =>
            have hquiet : VertexCert.onCertifiedVertex cr call.pre.cfg call.ctx cv b =
              .quiet (prune (recordCert b cv)) := h.2
            have hfew : (recordCert b cv).certifiedCountAt b.currentRound < need := h.1
            rw [hquiet]
            refine ⟨by simp [hfew], fun hsame => by rw [hsame.2]⟩
          | inr h =>
            have hmany : ¬ (recordCert b cv).certifiedCountAt b.currentRound < need := h.1
            have hup : b.currentRound <
              (VertexCert.onCertifiedVertex cr call.pre.cfg call.ctx cv b).state.currentRound := h.2
            refine ⟨⟨?_, fun hc => absurd hc.1 hmany⟩, fun hc => absurd hc.1 hmany⟩
            intro heq
            rw [heq] at hup
            exact absurd hup (Nat.lt_irrefl _)

theorem onVertexProposal_fails {p : VertexProposal} {ctx : HostContext} {b : VertexBook}
    {e : Error} (h : (onVertexProposal cr p ctx b).result = .error e) (hport : ¬ OwnError e) :
    onVertexProposal cr p ctx b = .fail b e := by
  unfold onVertexProposal at h ⊢
  dsimp only at h ⊢
  cases hset : activeSet ctx with
  | error e' =>
    rw [hset] at h
    cases h
    rfl
  | ok set =>
    rw [hset] at h
    have hvote : ∀ b' : VertexBook, (checkParentsAndVote set p ctx b').result = .error e →
        OwnError e := by
      intro b' hv
      have hok : ∀ b' : VertexBook, (vote b' p ctx).result ≠ .error e := by
        intro b'
        unfold vote
        dsimp only
        split <;> simp
      unfold checkParentsAndVote at hv
      split at hv
      · split at hv
        · rename_i hneed
          cases hv
          exact quorumNeed_own hneed
        · split at hv
          · exact absurd hv (hok b')
          · cases hv
      · split at hv
        · exact absurd hv (hok b')
        · cases hv
    exfalso
    dsimp only at h
    repeat' split at h
    all_goals first
      | exact hport (hvote _ h)
      | cases h

def openSlot (h : Hash32) (b : VertexBook) : VertexBook :=
  { b with collecting := b.collecting.insert h (b.collecting[h]?.getD ∅) }

theorem onVertexPartial_fails {cfg : Config} {bp : VertexPartial} {ctx : HostContext}
    {b : VertexBook} {e : Error} (h : (onVertexPartial cr cfg ctx bp b).result = .error e)
    (hport : ¬ OwnError e) :
    onVertexPartial cr cfg ctx bp b = .fail (openSlot bp.vertexHash b) e := by
  unfold onVertexPartial at h ⊢
  split at h
  · cases h
  rename_i hwho
  rw [if_neg hwho]
  cases hmine : b.myProposals[bp.vertexHash]? with
  | none =>
    rw [hmine] at h
    cases h
  | some p =>
    rw [hmine] at h
    dsimp only at h ⊢
    cases hnew : (b.collecting[bp.vertexHash]?.getD ∅)[bp.voter]? with
    | some prev =>
      rw [hnew] at h
      dsimp only at h
      split at h
      · cases h
      · cases h
    | none =>
      rw [hnew] at h
      dsimp only at h ⊢
      cases hset : activeSet ctx with
      | error e' =>
        rw [hset] at h
        cases h
        rfl
      | ok set =>
        rw [hset] at h
        dsimp only at h
        split at h
        · cases h
        · exact absurd (tryFinalizeWith_failsOwn hset (maybeAdvance_failsOwn hset) _ _ e h) hport

theorem openSlot_same {h : Hash32} {b : VertexBook} :
    openSlot h b = b ↔ ∃ sigs, b.collecting[h]? = some sigs := by
  have hfield : openSlot h b = b ↔
      b.collecting.insert h (b.collecting[h]?.getD ∅) = b.collecting :=
    ⟨fun heq => congrArg VertexBook.collecting heq, fun heq => by rw [openSlot, heq]⟩
  rw [hfield, Maps.insert_same]
  cases b.collecting[h]? with
  | none => simp
  | some sigs => simp

theorem onTimerFired_fails {cfg : Config} {ctx : HostContext} {id : TimerId} {b : VertexBook}
    {e : Error} (h : (VertexCert.onTimerFired cfg ctx id b).result = .error e) :
    (VertexCert.onTimerFired cfg ctx id b).state ≠ b := by
  have hnone : b.roundTimer = some id ∧
      (VertexCert.onTimerFired cfg ctx id b).state.roundTimer = none := by
    unfold VertexCert.onTimerFired at h ⊢
    split at h
    · cases h
    rename_i hid
    rw [if_neg hid]
    dsimp only at h ⊢
    refine ⟨not_not.mp hid, ?_⟩
    cases hset : activeSet ctx with
    | error e' => rfl
    | ok set =>
      rw [hset] at h
      dsimp only at h ⊢
      cases hneed : quorumNeed set with
      | error e' => rfl
      | ok need =>
        rw [hneed] at h
        dsimp only at h
        split at h
        · cases h
        · cases h
  intro heq
  rw [heq, hnone.1] at hnone
  cases hnone.2

end Stay
end VertexCert

/- L2. -/
namespace Bullshark
section Pass
variable {cr : Crypto} {cfg : Config} {ctx : HostContext}

def attempt (cr : Crypto) (cfg : Config) (ctx : HostContext) (w : WaveId) (book : WaveBook) :
    Result WaveBook :=
  if w ∈ book.committedWaves then .quiet book else tryEmitForWave cr w cfg ctx false book

def passOver (cr : Crypto) (cfg : Config) (ctx : HostContext) (ws : List WaveId)
    (book : WaveBook) : Result WaveBook :=
  ws.foldl (fun o w => o.andThen (attempt cr cfg ctx w)) (.quiet book)

theorem passOver_cons (w : WaveId) (ws : List WaveId) (book : WaveBook) :
    passOver cr cfg ctx (w :: ws) book =
      (attempt cr cfg ctx w book).andThen (passOver cr cfg ctx ws) := by
  have hfold : ∀ (ws : List WaveId) (o : Result WaveBook),
      ws.foldl (fun o w => o.andThen (attempt cr cfg ctx w)) o =
        o.andThen (passOver cr cfg ctx ws) := by
    intro ws
    induction ws with
    | nil =>
      intro o
      exact (Outcome.andThen_of_quiet rfl).symm
    | cons w ws ih =>
      intro o
      rw [List.foldl_cons, ih, Outcome.andThen_assoc]
      refine Outcome.andThen_congr ?_
      rw [passOver, List.foldl_cons, ih, Outcome.quiet_andThen]
  rw [passOver, List.foldl_cons, hfold, Outcome.quiet_andThen]

def Grows (b d : WaveBook) : Prop :=
  b.committedWaves ⊆ d.committedWaves ∧ b.timers.next ≤ d.timers.next

theorem Grows.refl (b : WaveBook) : Grows b b := ⟨Finset.Subset.refl _, Nat.le_refl _⟩

theorem Grows.trans {b d f : WaveBook} (h : Grows b d) (h' : Grows d f) : Grows b f :=
  ⟨h.1.trans h'.1, h.2.trans h'.2⟩

theorem emitCommitted_rest (a : Hash32) (b : WaveBook) :
    (emitCommitted cr a ctx b).state.committedWaves = b.committedWaves ∧
      (emitCommitted cr a ctx b).state.timers = b.timers ∧
      (emitCommitted cr a ctx b).state.timerToWave = b.timerToWave := by
  rw [emitCommitted_eq]
  repeat' split
  all_goals exact ⟨rfl, rfl, rfl⟩

/-- After an attempt that came through, only an empty set keeps the anchor from view. -/
theorem anchorPresent_own {w : WaveId} {set : ValidatorSet} {t : Bool} {e : Error}
    (h : tryCommitWave cr w cfg set ctx t = .ok none) (ha : anchorPresent cr w set ctx = .error e) :
    OwnError e := by
  unfold anchorPresent at ha
  by_cases hempty : set.entries.isEmpty = true
  · unfold selectAnchor at ha
    rw [if_pos hempty] at ha
    cases ha
    exact .emptySet
  unfold tryCommitWave at h
  rw [if_neg hempty] at h
  cases hauthor : selectAnchor cr w set ctx with
  | error e' =>
    rw [hauthor] at h
    cases h
  | ok author =>
    rw [hauthor] at h ha
    dsimp only at h ha
    cases hvs : ctx.dag.verticesAtRound (firstRound w) with
    | error e' =>
      rw [hvs] at h
      cases h
    | ok vs =>
      rw [hvs] at ha
      cases ha

theorem emitCommitted_grows {w : WaveId} {b : WaveBook} {o : Result WaveBook}
    {acts : List Action} (a : Hash32) (ho : o.result = .ok acts)
    (hmark : o.state.committedWaves = insert w b.committedWaves)
    (htimers : o.state.timers = b.timers) :
    Grows b (o.andThen (emitCommitted cr a ctx)).state ∧
      w ∈ (o.andThen (emitCommitted cr a ctx)).state.committedWaves := by
  have hrest := @emitCommitted_rest cr ctx a o.state
  rw [Outcome.andThen_of_ok ho]
  refine ⟨⟨?_, ?_⟩, ?_⟩
  · change b.committedWaves ⊆ (emitCommitted cr a ctx o.state).state.committedWaves
    rw [hrest.1, hmark]
    exact Finset.subset_insert w _
  · change b.timers.next ≤ (emitCommitted cr a ctx o.state).state.timers.next
    rw [hrest.2.1, htimers]
  · change w ∈ (emitCommitted cr a ctx o.state).state.committedWaves
    rw [hrest.1, hmark]
    exact Finset.mem_insert_self w _

/-- Without a decision, the attempt either takes a timer id or leaves the books alone. -/
theorem armSlowTimer_cases {w : WaveId} {b : WaveBook} {set : ValidatorSet}
    (hd : tryCommitWave cr w cfg set ctx false = .ok none) :
    ((b.slowTimerByWave.contains w = false ∧ anchorPresent cr w set ctx = .ok true) ∧
      Grows b (armSlowTimer cr w cfg set ctx false b).state ∧
      b.timers.next < (armSlowTimer cr w cfg set ctx false b).state.timers.next) ∨
    (¬ (b.slowTimerByWave.contains w = false ∧ anchorPresent cr w set ctx = .ok true) ∧
      (armSlowTimer cr w cfg set ctx false b = .quiet b ∨
        ∃ e, OwnError e ∧ armSlowTimer cr w cfg set ctx false b = .fail b e)) := by
  unfold armSlowTimer
  cases hold : b.slowTimerByWave.contains w with
  | true => exact Or.inr ⟨by simp, Or.inl rfl⟩
  | false =>
    cases ha : anchorPresent cr w set ctx with
    | error e =>
      have hown := anchorPresent_own hd ha
      exact Or.inr ⟨by simp, Or.inr ⟨e, hown, by simp⟩⟩
    | ok present =>
      cases present with
      | false => exact Or.inr ⟨by simp, Or.inl (by simp)⟩
      | true =>
        exact Or.inl ⟨⟨rfl, rfl⟩, ⟨Finset.Subset.refl _, Nat.le_succ _⟩, Nat.lt_succ_self _⟩

theorem attempt_cases {w : WaveId} {b : WaveBook} (hnew : w ∉ b.committedWaves) :
    (WaveMoves cr cfg ctx b w ∧ ¬ WaveBlocks cr cfg ctx w ∧
      Grows b (attempt cr cfg ctx w b).state ∧
      (w ∈ (attempt cr cfg ctx w b).state.committedWaves ∨
        b.timers.next < (attempt cr cfg ctx w b).state.timers.next)) ∨
    (¬ WaveMoves cr cfg ctx b w ∧
      ((WaveBlocks cr cfg ctx w ∧ ∃ e, attempt cr cfg ctx w b = .fail b e) ∨
        ¬ WaveBlocks cr cfg ctx w ∧ (attempt cr cfg ctx w b = .quiet b ∨
          ∃ e, OwnError e ∧ attempt cr cfg ctx w b = .fail b e))) := by
  have hattempt : attempt cr cfg ctx w b = tryEmitForWave cr w cfg ctx false b := if_neg hnew
  rw [hattempt]
  unfold tryEmitForWave
  rw [if_neg hnew]
  cases hset : ctx.setFor 0 with
  | error e =>
    refine Or.inr ⟨?_, Or.inl ⟨Or.inl ⟨e, hset⟩, e, rfl⟩⟩
    rintro ⟨set, hs, -⟩
    rw [hset] at hs
    cases hs
  | ok o =>
    cases o with
    | none =>
      refine Or.inr ⟨?_, Or.inr ⟨?_, Or.inl rfl⟩⟩
      · rintro ⟨set, hs, -⟩
        rw [hset] at hs
        cases hs
      · rintro (⟨e, hs⟩ | ⟨set, e, hs, -⟩)
        · rw [hset] at hs
          cases hs
        · rw [hset] at hs
          cases hs
    | some set =>
      have hmoves : WaveMoves cr cfg ctx b w ↔
          ((∃ d, tryCommitWave cr w cfg set ctx false = .ok (some d)) ∨
            tryCommitWave cr w cfg set ctx false = .ok none ∧
              b.slowTimerByWave.contains w = false ∧ anchorPresent cr w set ctx = .ok true) := by
        simp [WaveMoves, hset]
      have hblocks : WaveBlocks cr cfg ctx w ↔
          ∃ e, tryCommitWave cr w cfg set ctx false = .error e := by
        simp [WaveBlocks, hset]
      rw [hmoves, hblocks]
      dsimp only
      cases hd : tryCommitWave cr w cfg set ctx false with
      | error e => exact Or.inr ⟨by simp, Or.inl ⟨⟨e, rfl⟩, e, rfl⟩⟩
      | ok d =>
        cases d with
        | some d =>
          refine Or.inl ⟨Or.inl ⟨d, rfl⟩, by simp, ?_⟩
          dsimp only
          split
          · obtain ⟨hgrows, hmark⟩ := @emitCommitted_grows cr ctx w b
              (.quiet { b with committedWaves := insert w b.committedWaves }) [] d.anchorHash
              rfl rfl rfl
            exact ⟨hgrows, Or.inl hmark⟩
          · rename_i id _
            obtain ⟨hgrows, hmark⟩ := @emitCommitted_grows cr ctx w b (.ok { b with
              committedWaves := insert w b.committedWaves
              slowTimerByWave := b.slowTimerByWave.erase w
              timerToWave := b.timerToWave.erase id } [.cancelTimer id]) _ d.anchorHash
              rfl rfl rfl
            exact ⟨hgrows, Or.inl hmark⟩
        | none =>
          dsimp only
          obtain ⟨⟨hfresh, ha⟩, hgrows, hid⟩ | ⟨hno, hsame⟩ := @armSlowTimer_cases cr cfg ctx w b
            set hd
          · exact Or.inl ⟨Or.inr ⟨rfl, hfresh, ha⟩, by simp, hgrows, Or.inr hid⟩
          · refine Or.inr ⟨?_, Or.inr ⟨by simp, hsame⟩⟩
            rintro (⟨d, hd'⟩ | ⟨-, hyes⟩)
            · cases hd'
            · exact hno hyes

theorem attempt_grows (w : WaveId) (b : WaveBook) : Grows b (attempt cr cfg ctx w b).state := by
  by_cases hold : w ∈ b.committedWaves
  · rw [attempt, if_pos hold]
    exact Grows.refl b
  obtain ⟨-, -, hgrows, -⟩ | ⟨-, ⟨-, e, he⟩ | ⟨-, hq | ⟨e, -, he⟩⟩⟩ :=
    @attempt_cases cr cfg ctx w b hold
  · exact hgrows
  · rw [he]
    exact Grows.refl b
  · rw [hq]
    exact Grows.refl b
  · rw [he]
    exact Grows.refl b

theorem passOver_grows (ws : List WaveId) (b : WaveBook) :
    Grows b (passOver cr cfg ctx ws b).state := by
  induction ws generalizing b with
  | nil => exact Grows.refl b
  | cons w ws ih =>
    rw [passOver_cons]
    cases hr : (attempt cr cfg ctx w b).result with
    | error e =>
      rw [Outcome.andThen_of_error hr]
      exact attempt_grows w b
    | ok acts =>
      rw [Outcome.andThen_of_ok hr]
      exact (attempt_grows w b).trans (ih _)

theorem moved_stays {w : WaveId} {b : WaveBook} (hnew : w ∉ b.committedWaves)
    (hmoved : w ∈ (attempt cr cfg ctx w b).state.committedWaves ∨
      b.timers.next < (attempt cr cfg ctx w b).state.timers.next) (ws : List WaveId) :
    ((attempt cr cfg ctx w b).andThen (passOver cr cfg ctx ws)).state ≠ b := by
  intro hsame
  have hgrown : Grows (attempt cr cfg ctx w b).state b := by
    cases hr : (attempt cr cfg ctx w b).result with
    | error e =>
      rw [Outcome.andThen_of_error hr] at hsame
      rw [hsame]
      exact Grows.refl b
    | ok acts =>
      have hrest := @passOver_grows cr cfg ctx ws (attempt cr cfg ctx w b).state
      rw [Outcome.andThen_of_ok hr] at hsame
      dsimp only at hsame
      rwa [hsame] at hrest
  cases hmoved with
  | inl hin => exact absurd (hgrown.1 hin) hnew
  | inr hlt => exact absurd hgrown.2 (Nat.not_le_of_lt hlt)

theorem wavesStay_tail {w : WaveId} {ws : List WaveId} {b : WaveBook}
    (h : WavesStay cr cfg ctx (w :: ws) b)
    (hw : w ∈ b.committedWaves ∨ ¬ WaveBlocks cr cfg ctx w) :
    WavesStay cr cfg ctx ws b := by
  obtain ⟨v, hv, hnew, hblock, hbefore⟩ := h
  cases List.mem_cons.mp hv with
  | inl heq =>
    subst heq
    exact absurd hblock (hw.resolve_left hnew)
  | inr hmem =>
    exact ⟨v, hmem, hnew, hblock, fun w' hw' => hbefore w' (List.mem_cons_of_mem w hw')⟩

theorem wavesStay_cons {w : WaveId} {ws : List WaveId} {b : WaveBook}
    (h : WavesStay cr cfg ctx ws b) (hw : w ∈ b.committedWaves ∨ ¬ WaveMoves cr cfg ctx b w) :
    WavesStay cr cfg ctx (w :: ws) b := by
  obtain ⟨v, hv, hnew, hblock, hbefore⟩ := h
  refine ⟨v, List.mem_cons_of_mem w hv, hnew, hblock, ?_⟩
  intro w' hw' hlt hnew'
  cases List.mem_cons.mp hw' with
  | inl heq =>
    subst heq
    exact hw.resolve_left hnew'
  | inr hmem => exact hbefore w' hmem hlt hnew'

theorem passOver_stops {ws : List WaveId} (hsorted : ws.Pairwise (· < ·)) {b : WaveBook}
    (h : WavesStay cr cfg ctx ws b) : ∃ e, passOver cr cfg ctx ws b = .fail b e := by
  induction ws with
  | nil =>
    obtain ⟨w, hw, -⟩ := h
    cases hw
  | cons w ws ih =>
    obtain ⟨hlt, hsorted⟩ := List.pairwise_cons.mp hsorted
    rw [passOver_cons]
    by_cases hold : w ∈ b.committedWaves
    · rw [attempt, if_pos hold, Outcome.quiet_andThen]
      exact ih hsorted (wavesStay_tail h (Or.inl hold))
    obtain ⟨hmoves, hnoblock, -⟩ | ⟨-, ⟨-, e, he⟩ | ⟨hnoblock, hq | ⟨e, -, he⟩⟩⟩ :=
      @attempt_cases cr cfg ctx w b hold
    · obtain ⟨v, hv, -, hblock, hbefore⟩ := h
      cases List.mem_cons.mp hv with
      | inl heq =>
        subst heq
        exact absurd hblock hnoblock
      | inr hmem => exact absurd hmoves (hbefore w (by simp) (hlt v hmem) hold)
    · exact ⟨e, by rw [he, Outcome.andThen_of_error (Outcome.fail_result b e)]⟩
    · rw [hq, Outcome.quiet_andThen]
      exact ih hsorted (wavesStay_tail h (Or.inr hnoblock))
    · exact ⟨e, by rw [he, Outcome.andThen_of_error (Outcome.fail_result b e)]⟩

/-- A pass that a port stops has changed nothing only if no wave before moved. -/
theorem wavesStay_of_passOver {ws : List WaveId} (hsorted : ws.Pairwise (· < ·)) {b : WaveBook}
    {e : Error} (h : (passOver cr cfg ctx ws b).result = .error e) (hport : ¬ OwnError e)
    (hsame : (passOver cr cfg ctx ws b).state = b) : WavesStay cr cfg ctx ws b := by
  induction ws with
  | nil => cases h
  | cons w ws ih =>
    obtain ⟨hlt, hsorted⟩ := List.pairwise_cons.mp hsorted
    rw [passOver_cons] at h hsame
    by_cases hold : w ∈ b.committedWaves
    · rw [attempt, if_pos hold, Outcome.quiet_andThen] at h hsame
      exact wavesStay_cons (ih hsorted h hsame) (Or.inl hold)
    obtain ⟨-, -, -, hwhat⟩ | ⟨hstill, ⟨hblock, e', he'⟩ | ⟨-, hq | ⟨e', hown, he'⟩⟩⟩ :=
      @attempt_cases cr cfg ctx w b hold
    · exact absurd hsame (moved_stays hold hwhat ws)
    · refine ⟨w, by simp, hold, hblock, ?_⟩
      intro w' hw' hlt' hnew'
      cases List.mem_cons.mp hw' with
      | inl heq => exact absurd (heq ▸ hlt') (Nat.lt_irrefl _)
      | inr hmem => exact absurd (hlt w' hmem) (Nat.not_lt_of_lt hlt')
    · rw [hq, Outcome.quiet_andThen] at h hsame
      exact wavesStay_cons (ih hsorted h hsame) (Or.inr hstill)
    · rw [he', Outcome.andThen_of_error (Outcome.fail_result b e')] at h
      cases h
      exact absurd hown hport

theorem passOver_idle {ws : List WaveId} {b : WaveBook} {acts : List Action}
    (h : (passOver cr cfg ctx ws b).result = .ok acts)
    (hsame : (passOver cr cfg ctx ws b).state = b) : passOver cr cfg ctx ws b = .quiet b := by
  induction ws with
  | nil => rfl
  | cons w ws ih =>
    rw [passOver_cons] at h hsame ⊢
    by_cases hold : w ∈ b.committedWaves
    · rw [attempt, if_pos hold, Outcome.quiet_andThen] at h hsame ⊢
      exact ih h hsame
    obtain ⟨-, -, -, hwhat⟩ | ⟨-, ⟨-, e, he⟩ | ⟨-, hq | ⟨e, -, he⟩⟩⟩ :=
      @attempt_cases cr cfg ctx w b hold
    · exact absurd hsame (moved_stays hold hwhat ws)
    · rw [he, Outcome.andThen_of_error (Outcome.fail_result b e)] at h
      cases h
    · rw [hq, Outcome.quiet_andThen] at h hsame ⊢
      exact ih h hsame
    · rw [he, Outcome.andThen_of_error (Outcome.fail_result b e)] at h
      cases h

theorem onTimerFired_fails {id : TimerId} {b : WaveBook} {e : Error}
    (h : (Bullshark.onTimerFired cr cfg id ctx b).result = .error e) :
    (Bullshark.onTimerFired cr cfg id ctx b).state ≠ b := by
  intro hsame
  unfold Bullshark.onTimerFired at h hsame
  cases hw : b.timerToWave[id]? with
  | none =>
    rw [hw] at h
    cases h
  | some w =>
    rw [hw] at hsame
    dsimp only at hsame
    have hgone : ∀ d : WaveBook, d.timerToWave[id]? = none →
        (tryEmitForWave cr w cfg ctx true d).state.timerToWave[id]? = none := by
      intro d hd
      unfold tryEmitForWave
      split
      · exact hd
      split
      · exact hd
      · exact hd
      split
      · exact hd
      · exact hd
      · rename_i decision _
        have hrest : ∀ o : Result WaveBook, o.state.timerToWave[id]? = none →
            (o.andThen (emitCommitted cr decision.anchorHash ctx)).state.timerToWave[id]? =
              none := by
          intro o ho
          cases hr : o.result with
          | error e' => rwa [Outcome.andThen_of_error hr]
          | ok acts =>
            rw [Outcome.andThen_of_ok hr]
            dsimp only
            rwa [(emitCommitted_rest decision.anchorHash o.state).2.2]
        dsimp only
        split
        · exact hrest _ hd
        · refine hrest _ ?_
          rw [Outcome.ok_state, Maps.get_erase]
          split
          · rfl
          · exact hd
    have hnone := hgone { b with
      timerToWave := b.timerToWave.erase id
      slowTimerByWave := b.slowTimerByWave.erase w } (by simp)
    rw [hsame, hw] at hnone
    cases hnone

end Pass
end Bullshark

/- L3. -/
namespace MacroFin
section Own
variable {cr : Crypto} {cfg : Config} {ctx : HostContext}

theorem vrfSortition_own {beacon : Hash32} {set : ValidatorSet} {height : Height}
    {rep : ValidatorId → Reputation} {e : Error}
    (h : vrfSortition cr beacon set height rep = .error e) : OwnError e := by
  unfold vrfSortition at h
  dsimp only at h
  split at h
  · cases h
  · cases h
    exact .panic _

theorem activeMode_own {b : MacroBook} {set : ValidatorSet} {height : Height} {e : Error}
    (h : activeMode b cfg set height = .error e) : OwnError e := by
  unfold activeMode at h
  split at h
  · cases h
  split at h
  · cases h
    exact .panic _
  · cases h

theorem subnetAssign_own {set : ValidatorSet} {beacon : Hash32} {e : Error}
    (h : subnetAssign cfg set beacon = .error e) : OwnError e := by
  unfold subnetAssign at h
  split at h
  · cases h
    exact .panic _
  · cases h

theorem joinSubnet_returns (set : ValidatorSet) (assign : SubnetAssign) (hash : Hash32)
    (subnet : SubnetId) (v : ValidatorId) (b : MacroBook) :
    ∃ acts, (joinSubnet cr set assign hash subnet v b).result = .ok acts ∧
      (joinSubnet cr set assign hash subnet v b).state.candidateBeacon = b.candidateBeacon := by
  unfold joinSubnet
  dsimp only
  split
  · exact ⟨[], rfl, rfl⟩
  split
  · exact ⟨_, rfl, rfl⟩
  · exact ⟨[], rfl, rfl⟩

theorem finishMacroQcAdoption_returns (height : Height) (cand : MacroCheckpoint) (qc : MacroQc)
    (signers : Finset ValidatorId) (b : MacroBook) :
    ∃ acts, (finishMacroQcAdoption cfg height cand qc signers b).result = .ok acts :=
  Outcome.andThen_ok_iff.mpr ⟨⟨_, rfl⟩, (settleFinality_spares cfg _).2⟩

theorem castVote_own {set : ValidatorSet} {beacon : Hash32} {mode : AggregationMode}
    {locks : LockMacro} {cp : MacroCheckpoint} {b : MacroBook} {e : Error}
    (h : (castVote cr cfg ctx set beacon mode locks cp b).result = .error e) : OwnError e := by
  unfold castVote at h
  dsimp only at h
  split at h
  · rename_i hassign
    cases h
    exact subnetAssign_own hassign
  · rename_i assign _
    exfalso
    obtain hl | ⟨_, -, hr⟩ := Outcome.andThen_error_iff.mp h
    · obtain hl | ⟨_, -, hr⟩ := Outcome.andThen_error_iff.mp hl
      · obtain hl | ⟨_, -, hr⟩ := Outcome.andThen_error_iff.mp hl
        · cases hl
        · cases hr
      · cases hr
    · split at hr
      · obtain ⟨acts, hacts, -⟩ := @joinSubnet_returns cr set assign cp.hash _ _ _
        rw [hacts] at hr
        cases hr
      · cases hr

theorem considerProposal_own {set : ValidatorSet} {beacon : Hash32} {p : MacroProposal}
    {b : MacroBook} {e : Error}
    (h : (considerProposal cr cfg ctx set beacon p b).result = .error e) : OwnError e := by
  unfold considerProposal at h
  dsimp only at h
  split at h
  · rename_i hsched
    cases h
    exact vrfSortition_own hsched
  split at h
  · rename_i hmode
    cases h
    exact activeMode_own hmode
  split at h
  · cases h
  split at h
  · cases h
  split at h
  · cases h
  split at h
  · cases h
  · exact castVote_own h

theorem onMacroProposal_fails {p : MacroProposal} {b : MacroBook} {e : Error}
    (h : (onMacroProposal cr cfg ctx p b).result = .error e) (hport : ¬ OwnError e) :
    onMacroProposal cr cfg ctx p b = .fail b e := by
  unfold onMacroProposal at h ⊢
  split at h
  · cases h
    rfl
  dsimp only at h ⊢
  split at h
  · cases h
    rfl
  split at h
  · cases h
  split at h
  · split at h
    · cases h
    · cases h
  · exact absurd (considerProposal_own h) hport

theorem onMacroQcReceived_fails {qc : MacroQc} {b : MacroBook} {e : Error}
    (h : (onMacroQcReceived cr cfg ctx qc b).result = .error e) :
    onMacroQcReceived cr cfg ctx qc b = .fail b e := by
  unfold onMacroQcReceived at h ⊢
  split at h
  · cases h
  rename_i hnew
  rw [if_neg hnew]
  split at h
  · cases h
    rfl
  split at h
  · cases h
  split at h
  · cases h
  obtain hl | ⟨_, -, hr⟩ := Outcome.andThen_error_iff.mp h
  · cases hl
  · obtain ⟨acts, hacts⟩ := (settleFinality_spares cfg _).2
    rw [hacts] at hr
    cases hr

theorem tryEmitModeAQc_fails {hash : Hash32} {height : Height} {b : MacroBook} {e : Error}
    (h : (tryEmitModeAQc cr cfg ctx hash height b).result = .error e) (hport : ¬ OwnError e) :
    tryEmitModeAQc cr cfg ctx hash height b = .fail b e ∧
      (activeSet ctx = .error e ∨ beaconForHeight b ctx height = .error e) := by
  unfold tryEmitModeAQc at h ⊢
  split at h
  · rename_i hset
    cases h
    exact ⟨rfl, Or.inl hset⟩
  split at h
  · cases h
  rename_i hmode
  dsimp only
  rw [if_neg hmode]
  split at h
  · rename_i hbeacon
    cases h
    exact ⟨rfl, Or.inr hbeacon⟩
  exfalso
  split at h
  · rename_i hsched
    cases h
    exact hport (vrfSortition_own hsched)
  split at h
  · cases h
  dsimp only at h
  split at h
  · cases h
  split at h
  · cases h
  split at h
  · cases h
    exact hport (.panic _)
  · obtain ⟨acts, hacts⟩ := finishMacroQcAdoption_returns _ _ _ _ _
    rw [hacts] at h
    cases h

theorem collectSubnet_own {set : ValidatorSet} {beacon : Hash32} {assign : SubnetAssign}
    {height : Height} {bp : BlsPartial} {b : MacroBook} {e : Error}
    (hset : activeSet ctx = .ok set) (hbeacon : beaconForHeight b ctx height = .ok beacon)
    (h : (collectSubnet cr cfg ctx set beacon assign height bp b).result = .error e) :
    OwnError e := by
  by_contra hport
  obtain ⟨acts, hacts, hkept⟩ := @joinSubnet_returns cr set assign bp.checkpointHash bp.subnet
    bp.validator (addSigner bp.checkpointHash bp.validator b)
  obtain hl | ⟨_, -, hr⟩ := Outcome.andThen_error_iff.mp h
  · rw [hacts] at hl
    cases hl
  split at hr
  · rename_i hsched
    cases hr
    exact hport (vrfSortition_own hsched)
  split at hr
  · -- the beacon of the height is read again, from the same place
    have hagain : beaconForHeight (joinSubnet cr set assign bp.checkpointHash bp.subnet
        bp.validator (addSigner bp.checkpointHash bp.validator b)).state ctx height =
          .ok beacon := by
      rw [beaconForHeight, hkept]
      exact hbeacon
    cases (tryEmitModeAQc_fails hr hport).2 with
    | inl hno =>
      rw [hset] at hno
      cases hno
    | inr hno =>
      rw [hagain] at hno
      cases hno
  · cases hr

theorem collectFlat_returns (set : ValidatorSet) (mode : AggregationMode) (height : Height)
    (cand : MacroCheckpoint) (bp : BlsPartial) (b : MacroBook) :
    ∃ acts, (collectFlat cr cfg set mode height cand bp b).result = .ok acts := by
  unfold collectFlat
  split
  · exact ⟨[], rfl⟩
  dsimp only
  split
  · exact ⟨[], rfl⟩
  split
  · exact ⟨[], rfl⟩
  · exact finishMacroQcAdoption_returns _ _ _ _ _

def keepPartial (bp : BlsPartial) (b : MacroBook) : MacroBook :=
  { b with partialSigs := b.partialSigs.insert (toLex (bp.checkpointHash, bp.validator)) bp.sig }

def keepAggregate (a : SubnetAggregate) (b : MacroBook) : MacroBook :=
  let aggs := b.subnetAggs[a.checkpointHash]?.getD ∅
  { b with subnetAggs := b.subnetAggs.insert a.checkpointHash (aggs.insert a.subnet a) }

theorem keepPartial_same {bp : BlsPartial} {b : MacroBook} : keepPartial bp b = b ↔
    b.partialSigs[toLex (bp.checkpointHash, bp.validator)]? = some bp.sig := by
  rw [← Maps.insert_same]
  constructor
  · intro heq
    exact congrArg MacroBook.partialSigs heq
  · intro heq
    rw [keepPartial, heq]

theorem keepAggregate_same {a : SubnetAggregate} {b : MacroBook} : keepAggregate a b = b ↔
    ∃ aggs, b.subnetAggs[a.checkpointHash]? = some aggs ∧ aggs[a.subnet]? = some a := by
  have hfield : keepAggregate a b = b ↔ b.subnetAggs.insert a.checkpointHash
      ((b.subnetAggs[a.checkpointHash]?.getD ∅).insert a.subnet a) = b.subnetAggs :=
    ⟨fun heq => congrArg MacroBook.subnetAggs heq, fun heq => by rw [keepAggregate, heq]⟩
  rw [hfield, Maps.insert_same]
  cases b.subnetAggs[a.checkpointHash]? with
  | none => simp
  | some aggs =>
    simp only [Option.getD_some, Option.some.injEq, exists_eq_left']
    rw [eq_comm, Maps.insert_same]

def collectPartial (cr : Crypto) (cfg : Config) (ctx : HostContext) (set : ValidatorSet)
    (height : Height) (cp : MacroCheckpoint) (bp : BlsPartial) (book : MacroBook) :
    Result MacroBook :=
  if bp.checkpointHash ∈ book.emittedMacroQc then .quiet book
  else
    match activeMode book cfg set height with
    | .error e => .fail book e
    | .ok mode =>
      match beaconForHeight book ctx height with
      | .error e => .fail book e
      | .ok beacon =>
        match subnetAssign cfg set beacon with
        | .error e => .fail book e
        | .ok assign =>
          if mode = .modeASubnet then
            collectSubnet cr cfg ctx set beacon assign height bp book
          else collectFlat cr cfg set mode height cp bp book

theorem collectPartial_fails {set : ValidatorSet} {height : Height} {cp : MacroCheckpoint}
    {bp : BlsPartial} {b : MacroBook} {e : Error} (hset : activeSet ctx = .ok set)
    (h : (collectPartial cr cfg ctx set height cp bp b).result = .error e) (hport : ¬ OwnError e) :
    collectPartial cr cfg ctx set height cp bp b = .fail b e := by
  unfold collectPartial at h ⊢
  by_cases hemitted : bp.checkpointHash ∈ b.emittedMacroQc
  · rw [if_pos hemitted] at h
    cases h
  rw [if_neg hemitted] at h ⊢
  cases hmode : activeMode b cfg set height with
  | error e' =>
    rw [hmode] at h
    cases h
    exact absurd (activeMode_own hmode) hport
  | ok mode =>
    rw [hmode] at h
    dsimp only at h ⊢
    cases hbeacon : beaconForHeight b ctx height with
    | error e' =>
      rw [hbeacon] at h
      cases h
      rfl
    | ok beacon =>
      rw [hbeacon] at h
      dsimp only at h
      exfalso
      split at h
      · rename_i hassign
        cases h
        exact hport (subnetAssign_own hassign)
      split at h
      · exact hport (collectSubnet_own hset hbeacon h)
      · obtain ⟨acts, hacts⟩ := collectFlat_returns _ _ _ _ _ _
        rw [hacts] at h
        cases h

theorem onBlsPartial_fails {bp : BlsPartial} {b : MacroBook} {e : Error}
    (h : (onBlsPartial cr cfg ctx bp b).result = .error e) (hport : ¬ OwnError e) :
    (activeSet ctx = .error e ∧ onBlsPartial cr cfg ctx bp b = .fail b e) ∨
      (∃ set, activeSet ctx = .ok set) ∧
        onBlsPartial cr cfg ctx bp b = .fail (keepPartial bp b) e := by
  unfold onBlsPartial at h ⊢
  cases hcand : b.findCandidate bp.checkpointHash with
  | none =>
    rw [hcand] at h
    cases h
  | some found =>
    obtain ⟨height, cp⟩ := found
    rw [hcand] at h
    dsimp only at h ⊢
    cases hset : activeSet ctx with
    | error e' =>
      rw [hset] at h
      cases h
      exact Or.inl ⟨rfl, rfl⟩
    | ok set =>
      rw [hset] at h
      refine Or.inr ⟨⟨set, rfl⟩, ?_⟩
      dsimp only at h ⊢
      by_cases hbad : (!verifyPartial cr set bp cp) = true
      · rw [if_pos hbad] at h
        cases h
      · rw [if_neg hbad] at h ⊢
        have hrest : (collectPartial cr cfg ctx set height cp bp (keepPartial bp b)).result =
          .error e := h
        exact collectPartial_fails hset hrest hport

theorem onSubnetAggregate_fails {a : SubnetAggregate} {b : MacroBook} {e : Error}
    (h : (onSubnetAggregate cr cfg ctx a b).result = .error e) (hport : ¬ OwnError e) :
    (activeSet ctx = .error e ∧ onSubnetAggregate cr cfg ctx a b = .fail b e) ∨
      (∃ set, activeSet ctx = .ok set) ∧
        onSubnetAggregate cr cfg ctx a b = .fail (keepAggregate a b) e := by
  unfold onSubnetAggregate at h ⊢
  cases hcand : b.findCandidate a.checkpointHash with
  | none =>
    rw [hcand] at h
    cases h
  | some found =>
    obtain ⟨height, cp⟩ := found
    rw [hcand] at h
    dsimp only at h ⊢
    cases hset : activeSet ctx with
    | error e' =>
      rw [hset] at h
      cases h
      exact Or.inl ⟨rfl, rfl⟩
    | ok set =>
      rw [hset] at h
      refine Or.inr ⟨⟨set, rfl⟩, ?_⟩
      dsimp only at h ⊢
      by_cases hbad : (!verifySubnetAgg cr set a cp b.partialSigs) = true
      · rw [if_pos hbad] at h
        cases h
      · rw [if_neg hbad] at h ⊢
        exact (tryEmitModeAQc_fails h hport).1

theorem propose_timers (beacon : Hash32) (height : Height) (cp : MacroCheckpoint)
    (b : MacroBook) : (propose ctx beacon height cp b).state.timers = b.timers := by
  unfold propose
  split
  · rfl
  · rfl

theorem onBackupTimer_timers (height : Height) (b : MacroBook) :
    (onBackupTimer cr ctx height b).state.timers = b.timers.clearBackup height := by
  unfold onBackupTimer
  dsimp only
  repeat' split
  all_goals first
    | rfl
    | (rw [propose_timers])

theorem castModeBVote_timers (height : Height) (cp : MacroCheckpoint) (b : MacroBook) :
    (castModeBVote cr cfg ctx height cp b).state.timers = b.timers := by
  unfold castModeBVote
  split
  · rfl
  split
  · rfl
  split
  · rfl
  split
  · rfl
  · rfl

theorem onModeBTimer_timers (height : Height) (b : MacroBook) :
    (onModeBTimer cr cfg ctx height b).state.timers = b.timers.clearModeB height := by
  unfold onModeBTimer
  dsimp only
  repeat' split
  all_goals first
    | rfl
    | (rw [castModeBVote_timers])

/-- A timer that was found is taken from its book, whatever happens next. -/
theorem onTimerFired_fails {id : TimerId} {b : MacroBook} {e : Error}
    (h : (MacroFin.onTimerFired cr cfg ctx id b).result = .error e) :
    (MacroFin.onTimerFired cr cfg ctx id b).state ≠ b := by
  have hfound : ∀ {m : Std.TreeMap Nat TimerId} {height : Height},
      (m.toList.find? (·.2 = id)).map (·.1) = some height → m[height]? ≠ none := by
    intro m height hm hnone
    obtain ⟨x, hx, rfl⟩ := Option.map_eq_some_iff.mp hm
    have hmem := List.mem_of_find?_eq_some hx
    rw [Std.TreeMap.mem_toList_iff_getElem?_eq_some.mp hmem] at hnone
    cases hnone
  unfold MacroFin.onTimerFired at h ⊢
  cases hbackup : b.timers.heightForBackupTimer id with
  | some height =>
    intro hsame
    have htimers := @onBackupTimer_timers cr ctx height b
    dsimp only at hsame
    rw [hsame] at htimers
    refine hfound hbackup ?_
    rw [htimers]
    simp [MacroTimerBook.clearBackup]
  | none =>
    cases hmodeB : b.timers.heightForModeBTimer id with
    | some height =>
      intro hsame
      have htimers := @onModeBTimer_timers cr cfg ctx height b
      dsimp only at hsame
      rw [hsame] at htimers
      refine hfound hmodeB ?_
      rw [htimers]
      simp [MacroTimerBook.clearModeB]
    | none =>
      rw [hbackup, hmodeB] at h
      cases h

end Own
end MacroFin

/- The step. -/
section Machine
variable {cr : Crypto} {sm : StateMachine} {ctx : HostContext}

theorem stepUndone_iff {ev : Event} : StepUndone cr sm ctx ev ↔
    (sm.step cr ctx ev).state = sm ∧ confirmedBlobs (sm.step cr ctx ev).signed = [] :=
  ⟨fun h => ⟨h.state, h.blobs⟩, fun h => ⟨h.1, h.2, fun _ => by rw [h.1]⟩⟩

theorem stepUndone_fail {ev : Event} {sm' : StateMachine} {e : Error}
    (h : sm.step cr ctx ev = .fail sm' e) : StepUndone cr sm ctx ev ↔ sm' = sm := by
  rw [stepUndone_iff, h]
  simp [confirmedBlobs]

theorem withVertices_same {b : VertexBook} : { sm with vertices := b } = sm ↔ b = sm.vertices :=
  ⟨fun h => congrArg StateMachine.vertices h, fun h => by rw [h]⟩

theorem withMacros_same {b : MacroBook} : { sm with macros := b } = sm ↔ b = sm.macros :=
  ⟨fun h => congrArg StateMachine.macros h, fun h => by rw [h]⟩

theorem stepUndone_vertices {ev : Event} {f : VertexBook → Result VertexBook} {b : VertexBook}
    {e : Error} (hev : sm.step cr ctx ev = sm.onVertices f) (h : f sm.vertices = .fail b e) :
    StepUndone cr sm ctx ev ↔ b = sm.vertices := by
  have hstep : sm.step cr ctx ev = .fail { sm with vertices := b } e := by
    rw [hev, StateMachine.onVertices, h]
    rfl
  rw [stepUndone_fail hstep, withVertices_same]

theorem stepUndone_macros {ev : Event} {f : MacroBook → Result MacroBook} {b : MacroBook}
    {e : Error} (hev : sm.step cr ctx ev = sm.onMacros f) (h : f sm.macros = .fail b e) :
    StepUndone cr sm ctx ev ↔ b = sm.macros := by
  have hstep : sm.step cr ctx ev = .fail { sm with macros := b } e := by
    rw [hev, StateMachine.onMacros, h]
    rfl
  rw [stepUndone_fail hstep, withMacros_same]

/-- The three layers of a timer event write to their own books only, and the one that fails
has taken the timer from its book. -/
theorem onTimerFired_undoes {id : TimerId} {e : Error}
    (h : (sm.onTimerFired cr ctx id).result = .error e) :
    (sm.onTimerFired cr ctx id).state ≠ sm := by
  intro hsame
  have htimer : sm.onTimerFired cr ctx id = (upperLayers cr sm ctx id).andThen fun sm =>
    sm.onVertices (VertexCert.onTimerFired sm.cfg ctx id) := rfl
  cases hupper : (upperLayers cr sm ctx id).result with
  | ok acts =>
    obtain hno | ⟨acts', -, hl1⟩ := Outcome.andThen_error_iff.mp (htimer ▸ h)
    · rw [hupper] at hno
      cases hno
    · change (VertexCert.onTimerFired (upperLayers cr sm ctx id).state.cfg ctx id
        (upperLayers cr sm ctx id).state.vertices).result = .error e at hl1
      rw [upperLayers_cfg, (fromVertices_upper cr sm ctx id).book] at hl1
      have hbook := (fromVertices_timer cr sm ctx id).book
      simp only [NodeCall.vertexOutcome, NodeCall.ctx, hupper, hsame] at hbook
      exact VertexCert.onTimerFired_fails hl1 hbook.symm
  | error e' =>
    rw [htimer, Outcome.andThen_of_error hupper] at hsame
    unfold upperLayers at hupper hsame
    obtain hl2 | ⟨acts, hl2, hl3⟩ := Outcome.andThen_error_iff.mp hupper
    · rw [Outcome.andThen_of_error hl2] at hsame
      exact Bullshark.onTimerFired_fails hl2 (congrArg StateMachine.waves hsame)
    · rw [Outcome.andThen_of_ok hl2] at hsame
      exact MacroFin.onTimerFired_fails hl3 (congrArg StateMachine.macros hsame)

end Machine

/- A certified vertex. -/
section Certified
variable {cr : Crypto} {call : NodeCall} {cv : CertifiedVertex}

/-- L1 reads the set of a started node before anything but the record is written. -/
theorem onCertifiedVertex_blocked {b : VertexBook} {e : Error} (hst : b.started = true)
    (hset : call.ctx.setFor 0 = .error e) :
    VertexCert.onCertifiedVertex cr call.pre.cfg call.ctx cv b = .fail (recordCert b cv) e := by
  have hst' : (recordCert b cv).started = true := hst
  have hactive : activeSet call.ctx = .error e := by simp [activeSet, hset]
  simp [VertexCert.onCertifiedVertex, maybeAdvance, maybeAdvanceWith, hst', hactive]

theorem nothingNew_returns {acts : List Action}
    (h : (VertexCert.onCertifiedVertex cr call.pre.cfg call.ctx cv call.pre.vertices).result =
      .ok acts) :
    NothingNew cr call.ctx call.pre (.certifiedVertexReceived cv) ↔
      VerticesStay call.ctx call.pre.vertices cv ∧ WavesStay cr call.pre.cfg call.ctx
        (List.range (waveOfRound cv.vertex.round + 1)) call.pre.waves := by
  unfold NothingNew
  constructor
  · rintro (⟨hst, ⟨e, hset⟩, -⟩ | hstay)
    · rw [onCertifiedVertex_blocked hst hset] at h
      cases h
    · exact hstay
  · exact Or.inr

theorem lowerLayers_undone {e : Error} (h : (lowerLayers cr call cv).result = .error e)
    (hport : ¬ OwnError e) :
    ((lowerLayers cr call cv).state = call.pre ∧
        confirmedBlobs (lowerLayers cr call cv).signed = []) ↔
      NothingNew cr call.ctx call.pre (.certifiedVertexReceived cv) := by
  have hsorted : (List.range (waveOfRound cv.vertex.round + 1)).Pairwise (· < ·) :=
    List.pairwise_lt_range
  unfold lowerLayers at h ⊢
  cases hv : (VertexCert.onCertifiedVertex cr call.pre.cfg call.ctx cv
      call.pre.vertices).result with
  | error e1 =>
    have hl1 : (call.pre.onVertices (VertexCert.onCertifiedVertex cr call.pre.cfg call.ctx
      cv)).result = .error e1 := hv
    rw [Outcome.andThen_of_error hl1] at h ⊢
    rw [hl1] at h
    cases h
    have hown : ∀ e', (VertexCert.onCertifiedVertex cr call.pre.cfg call.ctx cv
        call.pre.vertices).result = .error e' → ¬ OwnError e' := by
      intro e' he'
      rw [hv] at he'
      cases he'
      exact hport
    obtain ⟨hst, e', hset, hfail⟩ | ⟨⟨acts, hacts⟩, -⟩ := VertexCert.onCertifiedVertex_stays hown
    · have hlower : call.pre.onVertices (VertexCert.onCertifiedVertex cr call.pre.cfg call.ctx
          cv) = .fail { call.pre with vertices := recordCert call.pre.vertices cv } e' := by
        rw [StateMachine.onVertices, hfail]
        rfl
      rw [hlower, Outcome.fail_state, withVertices_same, VertexCert.recordCert_same]
      have hnot : ¬ VerticesStay call.ctx call.pre.vertices cv := by
        rintro (⟨hno, -⟩ | ⟨-, ⟨set, need, hactive, -⟩, -⟩)
        · rw [hst] at hno
          cases hno
        · simp [activeSet, hset] at hactive
      simp [NothingNew, hst, hset, hnot, confirmedBlobs]
    · rw [hv] at hacts
      cases hacts
  | ok acts1 =>
    have hl1 : (call.pre.onVertices (VertexCert.onCertifiedVertex cr call.pre.cfg call.ctx
      cv)).result = .ok acts1 := hv
    rw [nothingNew_returns hv]
    have hown : ∀ e', (VertexCert.onCertifiedVertex cr call.pre.cfg call.ctx cv
        call.pre.vertices).result = .error e' → ¬ OwnError e' := by
      intro e' he'
      rw [hv] at he'
      cases he'
    obtain ⟨-, e', -, hfail⟩ | ⟨-, hstate, hquiet⟩ := VertexCert.onCertifiedVertex_stays hown
    · rw [hfail] at hv
      cases hv
    obtain hno | ⟨acts, -, hl2⟩ := Outcome.andThen_error_iff.mp h
    · rw [hl1] at hno
      cases hno
    have hpass : (passOver cr call.pre.cfg call.ctx
      (List.range (waveOfRound cv.vertex.round + 1)) call.pre.waves).result = .error e := hl2
    rw [Outcome.andThen_of_ok hl1]
    constructor
    · rintro ⟨hsame, -⟩
      exact ⟨hstate.mp (congrArg StateMachine.vertices hsame),
        wavesStay_of_passOver hsorted hpass hport (congrArg StateMachine.waves hsame)⟩
    · rintro ⟨hstay, hwaves⟩
      obtain ⟨e', he'⟩ := passOver_stops hsorted hwaves
      have hl2' : Bullshark.onCertifiedVertex cr call.pre.cfg cv call.ctx call.pre.waves =
        .fail call.pre.waves e' := he'
      simp only [StateMachine.onVertices, StateMachine.onWaves, hquiet hstay, Outcome.lift,
        Outcome.quiet_state, hl2']
      exact ⟨rfl, rfl⟩

theorem lowerLayers_returns {acts : List Action} (h : (lowerLayers cr call cv).result = .ok acts) :
    ¬ NothingNew cr call.ctx call.pre (.certifiedVertexReceived cv) ∧
      ((lowerLayers cr call cv).state.vertices = call.pre.vertices →
        (lowerLayers cr call cv).state.waves = call.pre.waves → acts = []) := by
  have hsorted : (List.range (waveOfRound cv.vertex.round + 1)).Pairwise (· < ·) :=
    List.pairwise_lt_range
  unfold lowerLayers at h ⊢
  obtain ⟨⟨acts1, hl1⟩, acts2, hl2⟩ := Outcome.andThen_ok_iff.mp ⟨acts, h⟩
  have hv : (VertexCert.onCertifiedVertex cr call.pre.cfg call.ctx cv
    call.pre.vertices).result = .ok acts1 := hl1
  have hpass : (passOver cr call.pre.cfg call.ctx
    (List.range (waveOfRound cv.vertex.round + 1)) call.pre.waves).result = .ok acts2 := hl2
  rw [nothingNew_returns hv]
  constructor
  · rintro ⟨-, hwaves⟩
    obtain ⟨e, he⟩ := passOver_stops hsorted hwaves
    rw [he] at hpass
    cases hpass
  · intro hvertices hwaves
    rw [Outcome.andThen_of_ok hl1] at h hvertices hwaves
    have hown : ∀ e', (VertexCert.onCertifiedVertex cr call.pre.cfg call.ctx cv
        call.pre.vertices).result = .error e' → ¬ OwnError e' := by
      intro e' he'
      rw [hv] at he'
      cases he'
    obtain ⟨-, e', -, hfail⟩ | ⟨-, hstate, hquiet⟩ := VertexCert.onCertifiedVertex_stays hown
    · rw [hfail] at hv
      cases hv
    have hidle1 := hquiet (hstate.mp hvertices)
    have hidle2 : Bullshark.onCertifiedVertex cr call.pre.cfg cv call.ctx call.pre.waves =
      .quiet call.pre.waves := passOver_idle hpass hwaves
    rw [hidle1] at hv
    have hl2' : (Bullshark.onCertifiedVertex cr call.pre.cfg cv call.ctx call.pre.waves).result =
      .ok acts2 := hpass
    rw [hidle2] at hl2'
    cases hv
    cases hl2'
    rw [hl2] at h
    simpa [Except.map] using h.symm

/-- A certified vertex: L1 records it, L2 passes over the waves, L3 takes the micro QCs. -/
theorem onCertifiedVertex_undone {sm : StateMachine} {ctx : HostContext} {e : Error}
    (h : (sm.step cr ctx (.certifiedVertexReceived cv)).result = .error e)
    (hport : ¬ OwnError e) :
    StepUndone cr sm ctx (.certifiedVertexReceived cv) ↔
      NothingNew cr ctx sm (.certifiedVertexReceived cv) := by
  have hstep : sm.step cr ctx (.certifiedVertexReceived cv) =
    (lowerLayers cr ⟨sm, .genesis, ctx⟩ cv).bind fun actions sm =>
      sm.onMacros (onLocalMicroQcs cr sm.cfg ctx actions) := rfl
  rw [stepUndone_iff]
  rw [hstep] at h ⊢
  cases hlower : (lowerLayers cr ⟨sm, .genesis, ctx⟩ cv).result with
  | error e' =>
    rw [Outcome.bind_of_error hlower] at h ⊢
    rw [hlower] at h
    cases h
    exact lowerLayers_undone hlower hport
  | ok acts =>
    obtain ⟨hnew, hidle⟩ := lowerLayers_returns hlower
    rw [Outcome.bind_of_ok hlower] at h ⊢
    refine ⟨?_, fun hno => absurd hno hnew⟩
    rintro ⟨hsame, -⟩
    have hvertices := congrArg StateMachine.vertices hsame
    have hwaves := congrArg StateMachine.waves hsame
    rw [hidle hvertices hwaves] at h
    cases h

end Certified

/-- A step that fails in a port leaves the machine as it was, with no blob confirmed, iff what
it wrote before was there already. -/
theorem step_undone_iff {cr : Crypto} {sm : StateMachine} {ev : Event} {ctx : HostContext}
    {e : Error} (hport : ¬ OwnError e) (h : (sm.step cr ctx ev).result = .error e) :
    StepUndone cr sm ctx ev ↔ NothingNew cr ctx sm ev := by
  cases ev with
  | certifiedVertexReceived cv => exact onCertifiedVertex_undone h hport
  | microQcAssembled qc => cases h
  | validatorSetUpdated _ _ => cases h
  | slashEvidenceFound _ => cases h
  | timerFired id =>
    rw [stepUndone_iff]
    exact ⟨fun hsame => absurd hsame.1 (onTimerFired_undoes h), fun hno => hno.elim⟩
  | macroProposalReceived p =>
    rw [stepUndone_macros rfl (MacroFin.onMacroProposal_fails h hport)]
    simp [NothingNew]
  | macroQcReceived qc =>
    rw [stepUndone_macros rfl (MacroFin.onMacroQcReceived_fails h)]
    simp [NothingNew]
  | vertexProposalReceived p =>
    rw [stepUndone_vertices rfl (VertexCert.onVertexProposal_fails h hport)]
    simp [NothingNew]
  | vertexPartialReceived bp =>
    rw [stepUndone_vertices rfl (VertexCert.onVertexPartial_fails h hport),
      VertexCert.openSlot_same]
    rfl
  | blsPartialReceived bp =>
    obtain ⟨hset, hfail⟩ | ⟨⟨set, hset⟩, hfail⟩ := MacroFin.onBlsPartial_fails h hport
    · rw [stepUndone_macros rfl hfail]
      simp [NothingNew, VertexCert.activeSet_port hset hport]
    · rw [stepUndone_macros rfl hfail, MacroFin.keepPartial_same]
      simp [NothingNew, VertexCert.activeSet_reads hset]
  | subnetAggregateReceived a =>
    obtain ⟨hset, hfail⟩ | ⟨⟨set, hset⟩, hfail⟩ := MacroFin.onSubnetAggregate_fails h hport
    · rw [stepUndone_macros rfl hfail]
      simp [NothingNew, VertexCert.activeSet_port hset hport]
    · rw [stepUndone_macros rfl hfail, MacroFin.keepAggregate_same]
      simp [NothingNew, VertexCert.activeSet_reads hset]

section Devnet
open Devnet

def almostQuorate : StateMachine :=
  StateMachine.reached openCrypto config ⟨3⟩ ((.genesis, ports 3 0) ::
    script 3 ([vertexAt 0 0, vertexAt 0 1].map fun cv => (0, .certifiedVertexReceived cv)))

def loadedPorts : HostContext := { ports 3 0 with drain := fun _ => [⟨⟨7⟩, ⟨7⟩, 1⟩] }

def viewDown : HostContext := { loadedPorts with
  dag := { loadedPorts.dag with
    verticesAtRound := fun _ => .error (.persistence "vertices") } }

def setDown : HostContext := { loadedPorts with
  setFor := fun _ => .error (.persistence "validators") }

/-- The third certificate, with the blob handed out and then no answer from the view: the
proposal of round 1 is built and signed, but never sent, neither now nor when the certificate
comes again. -/
theorem failed_step_proposes :
    let ev : Event := .certifiedVertexReceived (vertexAt 0 2)
    let failed := almostQuorate.step openCrypto viewDown ev
    failed.result = .error (.persistence "vertices") ∧ ¬ OwnError (.persistence "vertices") ∧
      failed.state.vertices.currentRound ≠ almostQuorate.vertices.currentRound ∧
      confirmedBlobs failed.signed ≠ [] ∧
      (failed.state.step openCrypto loadedPorts ev).actions ≠
        (almostQuorate.step openCrypto loadedPorts ev).actions :=
  ⟨by decide +kernel, by rintro ⟨⟩, by decide +kernel, by decide +kernel, by decide +kernel⟩

/-- A certificate that is known changes nothing when the set cannot be read. -/
theorem failed_step_undone :
    StepUndone openCrypto almostQuorate setDown (.certifiedVertexReceived (vertexAt 0 1)) := by
  have hrecorded : Recorded almostQuorate.vertices (vertexAt 0 1) := by
    have hget : ((almostQuorate.vertices.certifiedByRound[0]?.getD ∅)[(⟨1⟩ : ValidatorId)]?) =
        some (vertexHash 0 1) := by
      decide +kernel
    cases hc : almostQuorate.vertices.certifiedByRound[0]? with
    | none => simp [hc] at hget
    | some certs =>
      rw [hc] at hget
      exact ⟨certs, hc, hget⟩
  exact (@step_undone_iff openCrypto almostQuorate _ setDown (.persistence "validators")
    (by rintro ⟨⟩) (by decide +kernel)).mpr (Or.inl ⟨by decide +kernel, ⟨_, rfl⟩, hrecorded⟩)

end Devnet
end LuaDag
