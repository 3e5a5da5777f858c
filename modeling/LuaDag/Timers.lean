import LuaDag.MacroWindow

/-! The timers of each layer as an abstract protocol: ids are issued in order, and an id is
named only while the layer waits for it. What the handlers of the source do with their timers
is a path of such moves. -/
namespace LuaDag
open Simulation (Moves.single Moves.step Moves.refl Steady.quiet Steady.fail Steady.andThen
  Steady.prepend Steady.path)

/-- The timers of one layer: the next id, the ids it still waits for, and whether the layer
has been bootstrapped. -/
structure TimerCore where
  next : Nat
  live : Set TimerId
  on : Bool

def TimerCore.Silent (c : TimerCore) : Prop := c.next = 0 ∧ c.live = ∅ ∧ c.on = false

/-- What a layer does with its timers; starting one takes `may`. -/
inductive TimerMove (may : Prop) :
    TimerCore → List SignReq → List Action → TimerCore → Prop
  | boot (c : TimerCore) (hmay : may) : TimerMove may c [] [] { c with on := true }
  | start (c : TimerCore) (delay : Nat) (hmay : may) :
      TimerMove may c [] [.scheduleTimer c.next delay]
        { c with next := c.next + 1, live := insert c.next c.live }
  | cancel (c : TimerCore) (id : TimerId) (hid : id ∈ c.live) :
      TimerMove may c [] [.cancelTimer id] c
  /-- Everything else; timers may be dropped. -/
  | rest (c : TimerCore) (live : Set TimerId) (sg : List SignReq) (acts : List Action)
      (hlive : live ⊆ c.live) (hacts : ∀ a ∈ acts, a.isTimer = false) :
      TimerMove may c sg acts { c with live := live }

def Action.timerId : Action → Option TimerId
  | .scheduleTimer id _ | .cancelTimer id => some id
  | _ => none

def Action.scheduledId : Action → Option TimerId
  | .scheduleTimer id _ => some id
  | _ => none

theorem isTimer_of_timerId {a : Action} {id : TimerId} (h : a.timerId = some id) :
    a.isTimer = true := by
  cases a <;> simp_all [Action.isTimer, Action.timerId]

theorem timerId_of_noTimer {a : Action} (h : a.isTimer = false) :
    a.timerId = none ∧ a.scheduledId = none := by
  cases a <;> simp_all [Action.isTimer, Action.timerId, Action.scheduledId]

def TimerCore.Issued (c : TimerCore) : Prop := ∀ id ∈ c.live, id < c.next

/-- A layer's own ids: scheduled in order, and never named before they are issued. -/
structure OwnTimers (c : TimerCore) (acts : List Action) (d : TimerCore) : Prop where
  issued : d.Issued
  next : c.next ≤ d.next
  scheduled : acts.filterMap Action.scheduledId = List.range' c.next (d.next - c.next)
  named : ∀ a ∈ acts, ∀ id, a.timerId = some id → id < d.next

theorem OwnTimers.trans {c d e : TimerCore} {acts acts' : List Action} (h : OwnTimers c acts d)
    (h' : OwnTimers d acts' e) : OwnTimers c (acts ++ acts') e := by
  refine ⟨h'.issued, h.next.trans h'.next, ?_, ?_⟩
  · rw [List.filterMap_append, h.scheduled, h'.scheduled]
    have hjoin := @List.range'_append_1 c.next (d.next - c.next) (e.next - d.next)
    rw [Nat.add_sub_cancel' h.next] at hjoin
    rw [hjoin]
    congr 1
    have hle := h.next
    have hle' := h'.next
    omega
  · intro a ha id hid
    cases List.mem_append.mp ha with
    | inl hl => exact (h.named a hl id hid).trans_le h'.next
    | inr hr => exact h'.named a hr id hid

theorem OwnTimers.none {c d : TimerCore} {acts : List Action} (hnext : d.next = c.next)
    (hissued : d.Issued) (hacts : ∀ a ∈ acts, a.isTimer = false) : OwnTimers c acts d := by
  refine ⟨hissued, hnext.ge, ?_, ?_⟩
  · rw [hnext, Nat.sub_self, List.range'_zero, List.filterMap_eq_nil_iff]
    exact fun a ha => (timerId_of_noTimer (hacts a ha)).2
  · intro a ha id hid
    rw [(timerId_of_noTimer (hacts a ha)).1] at hid
    cases hid

theorem TimerMove.own {may : Prop} {c d : TimerCore} {sg : List SignReq} {acts : List Action}
    (h : TimerMove may c sg acts d) (hc : c.Issued) : OwnTimers c acts d := by
  cases h with
  | boot hmay => exact OwnTimers.none rfl hc (by simp)
  | start delay hmay =>
    refine ⟨?_, Nat.le_succ _, ?_, ?_⟩
    · rintro id (rfl | hid)
      · exact Nat.lt_succ_self _
      · exact (hc id hid).trans (Nat.lt_succ_self _)
    · simp [Action.scheduledId]
    · simp [Action.timerId]
  | cancel id hid =>
    refine ⟨hc, Nat.le_refl _, ?_, ?_⟩
    · simp [Action.scheduledId]
    · simpa [Action.timerId] using hc id hid
  | rest live sg acts hlive hacts =>
    exact OwnTimers.none rfl (fun id hid => hc id (hlive hid)) hacts

/-- A silent layer that may not start a timer stays silent. -/
theorem TimerMove.silent {may : Prop} {c d : TimerCore} {sg : List SignReq} {acts : List Action}
    (h : TimerMove may c sg acts d) (hmay : ¬ may) (hc : c.Silent) :
    d.Silent ∧ ∀ a ∈ acts, a.isTimer = false := by
  cases h with
  | boot hm => exact absurd hm hmay
  | start delay hm => exact absurd hm hmay
  | cancel id hid =>
    rw [hc.2.1] at hid
    cases hid
  | rest live sg acts hlive hacts =>
    refine ⟨⟨hc.1, ?_, hc.2.2⟩, hacts⟩
    rw [hc.2.1] at hlive
    exact Set.subset_empty_iff.mp hlive

def VertexBook.timerCore (b : VertexBook) : TimerCore :=
  ⟨b.timers.next, {id | b.roundTimer = some id}, b.started⟩

def Bullshark.WaveBook.timerCore (b : Bullshark.WaveBook) : TimerCore :=
  ⟨b.timers.next, {id | (∃ w : Nat, b.slowTimerByWave[w]? = some id) ∨
    ∃ w : WaveId, b.timerToWave[id]? = some w}, false⟩

def MacroTimerBook.core (t : MacroTimerBook) : TimerCore :=
  ⟨t.seq.next, {id | (∃ h : Height, t.backupByHeight[h]? = some id) ∨
    ∃ h : Height, t.modeBByHeight[h]? = some id}, false⟩

def MacroBook.timerCore (b : MacroBook) : TimerCore := b.timers.core

/- L1. -/
namespace VertexCert
section Timers
variable {cr : Crypto} {cfg : Config} {ctx : HostContext} {may : Prop}

abbrev TimerSteady (may : Prop) (c : TimerCore) (o : Result VertexBook) : Prop :=
  Simulation.Steady (TimerMove may) VertexBook.timerCore c o

theorem rest_steady {c : TimerCore} {s : VertexBook} {sg : List SignReq} {acts : List Action}
    (hc : s.timerCore = c) (hacts : ∀ a ∈ acts, a.isTimer = false) :
    TimerSteady may c ⟨s, sg, .ok acts⟩ := by
  apply Simulation.Steady.move
  rw [hc]
  exact TimerMove.rest c c.live sg acts (Set.Subset.refl _) hacts

theorem vote_timers (book : VertexBook) (p : VertexProposal) :
    TimerSteady may book.timerCore (vote book p ctx) := by
  unfold vote
  dsimp only
  split
  · exact Steady.quiet book
  · exact rest_steady rfl (by simp [Action.isTimer])

theorem checkParentsAndVote_timers (set : ValidatorSet) (p : VertexProposal)
    (book : VertexBook) : TimerSteady may book.timerCore (checkParentsAndVote set p ctx book) := by
  unfold checkParentsAndVote
  split
  · split
    · exact Steady.fail book _
    split
    · exact vote_timers book p
    · exact Steady.quiet book
  split
  · exact vote_timers book p
  · exact rest_steady rfl (by simp)

theorem onVertexProposal_timers (p : VertexProposal) (book : VertexBook) :
    TimerSteady may book.timerCore (onVertexProposal cr p ctx book) := by
  unfold onVertexProposal
  split
  · exact Steady.fail book _
  dsimp only
  split
  · exact rest_steady rfl (by simp)
  split
  · exact rest_steady rfl (by simp)
  split
  · exact Steady.quiet book
  split
  · exact Steady.quiet book
  split
  · split
    · exact rest_steady rfl (by simp [Action.isTimer])
    · exact checkParentsAndVote_timers _ p book
  · exact checkParentsAndVote_timers _ p book
  · exact checkParentsAndVote_timers _ p { book with
      proposalsSeen := book.proposalsSeen.insert (toLex (p.vertex.round, p.vertex.author)) [p] }

theorem tryFinalizeWith_timers {advance : VertexBook → Result VertexBook}
    (hadv : ∀ book, (book.started = true → may) → TimerSteady may book.timerCore (advance book))
    (hash : Hash32) (book : VertexBook) (hst : book.started = true → may) :
    TimerSteady may book.timerCore (tryFinalizeWith cr ctx advance hash book) := by
  unfold tryFinalizeWith
  split
  · exact Steady.quiet book
  split
  · exact Steady.quiet book
  split
  · exact Steady.fail book _
  split
  · exact Steady.fail book _
  split
  · exact Steady.quiet book
  split
  · exact Steady.quiet book
  split
  · exact Steady.fail book _
  rename_i cv _
  split
  · exact Steady.fail book _
  exact Steady.andThen (rest_steady rfl (by simp [Action.isTimer])) fun _ _ => hadv _ hst

theorem seedProposal_timers (book : VertexBook) (round : Round) (p : VertexProposal)
    (sig : BlsSig) (sg : List SignReq) (hmay : may) :
    Simulation.Moves (TimerMove may) book.timerCore sg
      ((book.roundTimer.map Action.cancelTimer).toList ++
        [.scheduleTimer book.timers.allocate.1 (roundDelayNanos cfg 0),
          .broadcastVertexProposal p])
      (seedProposal book round p sig).timerCore := by
  have hold : Simulation.Moves (TimerMove may) book.timerCore ([] : List SignReq)
      ((book.roundTimer.map Action.cancelTimer).toList) book.timerCore := by
    cases hround : book.roundTimer with
    | none => exact Moves.refl _
    | some id => exact Moves.single (TimerMove.cancel _ id hround)
  have hnew := Moves.step hold (TimerMove.start _ (roundDelayNanos cfg 0) hmay)
  have hlive : {id : TimerId | some book.timers.allocate.1 = some id} ⊆
      insert book.timerCore.next book.timerCore.live := by
    intro id hid
    cases hid
    exact Set.mem_insert _ _
  have hrest := Moves.step hnew
    (TimerMove.rest _ _ sg [.broadcastVertexProposal p] hlive (by simp [Action.isTimer]))
  rw [List.append_assoc, List.append_assoc] at hrest
  exact hrest

theorem proposeRoundWith_timers {advance : VertexBook → Result VertexBook}
    (hadv : ∀ book, (book.started = true → may) → TimerSteady may book.timerCore (advance book))
    (round : Round) (parents : List Hash32) (book : VertexBook) (hmay : may) :
    TimerSteady may book.timerCore (proposeRoundWith cr cfg ctx advance round parents book) := by
  unfold proposeRoundWith
  dsimp only
  refine Steady.andThen ?_ fun _ _ => tryFinalizeWith_timers hadv _ _ fun _ => hmay
  exact Steady.path (seedProposal_timers book round _ _ _ hmay)

theorem maybeAdvanceWith_timers {loop : Nat → VertexBook → Result VertexBook}
    (hloop : may → ∀ need book, TimerSteady may book.timerCore (loop need book))
    (book : VertexBook) (hst : book.started = true → may) :
    TimerSteady may book.timerCore (maybeAdvanceWith ctx loop book) := by
  unfold maybeAdvanceWith
  split
  · exact Steady.quiet book
  rename_i hstarted
  simp only [Bool.not_eq_true, Bool.not_eq_false'] at hstarted
  split
  · exact Steady.fail book _
  split
  · exact Steady.fail book _
  · exact Steady.andThen (hloop (hst hstarted) _ book) fun _ _ => rest_steady rfl (by simp)

theorem advanceLoop_timers (fuel : Nat) (hmay : may) :
    ∀ need book, TimerSteady may book.timerCore (advanceLoop cr cfg ctx fuel need book) := by
  induction fuel with
  | zero =>
    intro need book
    exact Steady.fail book _
  | succ fuel ih =>
    intro need book
    unfold advanceLoop
    split
    · exact Steady.quiet book
    split
    · exact Steady.quiet book
    · exact Steady.andThen (proposeRoundWith_timers
        (fun book hst => maybeAdvanceWith_timers (fun _ => ih) book hst) _ _ book hmay)
        fun _ _ => ih need _

theorem maybeAdvance_timers (book : VertexBook) (hst : book.started = true → may) :
    TimerSteady may book.timerCore (maybeAdvance cr cfg ctx book) :=
  maybeAdvanceWith_timers (fun hmay => advanceLoop_timers ctx.fuel hmay) book hst

theorem onVertexPartial_timers (bp : VertexPartial) (book : VertexBook)
    (hst : book.started = true → may) :
    TimerSteady may book.timerCore (onVertexPartial cr cfg ctx bp book) := by
  unfold onVertexPartial
  split
  · exact Steady.quiet book
  split
  · exact Steady.quiet book
  dsimp only
  split
  · split
    · exact rest_steady rfl (by simp)
    · exact rest_steady rfl (by simp)
  let slot := book.collecting[bp.vertexHash]?.getD ∅
  let opened : VertexBook :=
    { book with collecting := book.collecting.insert bp.vertexHash slot }
  split
  · exact Steady.fail opened _
  split
  · exact rest_steady rfl (by simp)
  exact tryFinalizeWith_timers maybeAdvance_timers bp.vertexHash { opened with
    collecting := opened.collecting.insert bp.vertexHash (slot.insert bp.voter bp.sig) } hst

theorem genesisPropose_timers (book : VertexBook) (hmay : book.started = false → may) :
    TimerSteady may book.timerCore (genesisPropose cr cfg ctx book) := by
  unfold genesisPropose
  split
  · exact Steady.quiet book
  · rename_i hst
    have hm := hmay (by simpa using hst)
    exact Steady.prepend (Moves.single (TimerMove.boot _ hm))
      (proposeRoundWith_timers maybeAdvance_timers 0 [] { book with started := true } hm)

theorem onTimerFired_timers (id : TimerId) (book : VertexBook)
    (hmay : book.roundTimer = some id → may) :
    TimerSteady may book.timerCore (onTimerFired cfg ctx id book) := by
  unfold onTimerFired
  split
  · exact Steady.quiet book
  rename_i hid
  have hm := hmay (by simpa using hid)
  have hclear : Simulation.Moves (TimerMove may) book.timerCore ([] : List SignReq) []
      { book with roundTimer := none }.timerCore :=
    Moves.single (TimerMove.rest _ _ [] [] (by intro x hx; cases hx) (by simp))
  refine Steady.prepend hclear ?_
  dsimp only
  split
  · exact Steady.fail { book with roundTimer := none } _
  split
  · exact Steady.fail { book with roundTimer := none } _
  split
  · exact Steady.quiet { book with roundTimer := none }
  let again := (book.myProposals.toList.find? (·.2.vertex.round = book.currentRound)).map
    fun e => Action.broadcastVertexProposal e.2
  have hagain : ∀ a ∈ again.toList, a.isTimer = false := by
    intro a ha
    obtain ⟨e, -, rfl⟩ := Option.map_eq_some_iff.mp (Option.mem_toList.mp ha)
    rfl
  have hrest : Simulation.Moves (TimerMove may) { book with roundTimer := none }.timerCore []
      again.toList ⟨book.timers.next, ∅, book.started⟩ :=
    Moves.single (TimerMove.rest _ ∅ [] _ (Set.empty_subset _) hagain)
  have hnew := Moves.step hrest
    (TimerMove.start _ (roundDelayNanos cfg (min (book.timerRetries + 1) 8)) hm)
  have hlive : insert book.timers.next (∅ : Set TimerId) =
      {id | some book.timers.allocate.1 = some id} := by
    ext x
    simp [TimerScheduler.allocate, eq_comm]
  rw [hlive] at hnew
  exact Steady.path hnew

end Timers
end VertexCert

/- L2. -/
namespace Bullshark
section Timers
variable {cr : Crypto} {cfg : Config} {ctx : HostContext} {may : Prop}

abbrev TimerSteady (may : Prop) (c : TimerCore) (o : Result WaveBook) : Prop :=
  Simulation.Steady (TimerMove may) WaveBook.timerCore c o

/-- The wave is not committed yet, has no quorum, and its anchor is there. -/
def Waits (cr : Crypto) (cfg : Config) (ctx : HostContext) (wave : WaveId) : Prop :=
  ∃ set, ctx.setFor 0 = .ok (some set) ∧ tryCommitWave cr wave cfg set ctx false = .ok none ∧
    anchorPresent cr wave set ctx = .ok true

theorem armSlowTimer_timers (wave : WaveId) (set : ValidatorSet) (timedOut : Bool)
    (book : WaveBook) (hmay : timedOut = false → anchorPresent cr wave set ctx = .ok true → may) :
    TimerSteady may book.timerCore (armSlowTimer cr wave cfg set ctx timedOut book) := by
  unfold armSlowTimer
  split
  · rename_i hfresh
    simp only [Bool.and_eq_true, Bool.not_eq_true'] at hfresh
    split
    · exact Steady.fail book _
    · exact Steady.quiet book
    · rename_i hanchor
      have hnew := Moves.single
        (TimerMove.start book.timerCore (slowPathDelayNanos cfg) (hmay hfresh.1 hanchor))
      apply Steady.path
      have hlive : { book with
          timers := book.timers.allocate.2
          slowTimerByWave := book.slowTimerByWave.insert wave book.timers.allocate.1
          timerToWave := book.timerToWave.insert book.timers.allocate.1 wave }.timerCore.live ⊆
          insert book.timerCore.next book.timerCore.live := by
        rintro id (⟨w, hw⟩ | ⟨w, hw⟩)
        · cases Maps.get_of_insert hw with
          | inl heq => exact Or.inl heq.2
          | inr hold => exact Or.inr (Or.inl ⟨w, hold⟩)
        · cases Maps.get_of_insert hw with
          | inl heq => exact Or.inl heq.1
          | inr hold => exact Or.inr (Or.inr ⟨w, hold⟩)
      have hrest := Moves.step hnew (TimerMove.rest _ _ [] [] hlive (by simp))
      exact hrest
  · exact Steady.quiet book

theorem emitCommitted_timers (a : Hash32) (book : WaveBook) :
    TimerSteady may book.timerCore (emitCommitted cr a ctx book) := by
  rw [emitCommitted_eq]
  split
  · exact Steady.fail book _
  · exact Steady.quiet book
  · exact Steady.path (Moves.single
      (TimerMove.rest _ _ _ _ (Set.Subset.refl _) (by simp [Action.isTimer])))

theorem tryEmitForWave_timers (wave : WaveId) (timedOut : Bool) (book : WaveBook)
    (hmay : timedOut = false → wave ∉ book.committedWaves → Waits cr cfg ctx wave → may) :
    TimerSteady may book.timerCore (tryEmitForWave cr wave cfg ctx timedOut book) := by
  unfold tryEmitForWave
  split
  · exact Steady.quiet book
  rename_i hnew
  split
  · exact Steady.fail book _
  · exact Steady.quiet book
  rename_i set hset
  split
  · exact Steady.fail book _
  · rename_i hd
    refine armSlowTimer_timers wave set timedOut book ?_
    rintro rfl hanchor
    exact hmay rfl hnew ⟨set, hset, hd, hanchor⟩
  rename_i d hd
  dsimp only
  refine Steady.andThen ?_ fun _ _ => emitCommitted_timers _ _
  split
  · exact Steady.quiet { book with committedWaves := insert wave book.committedWaves }
  · rename_i id hid
    have hcancel : Simulation.Moves (TimerMove may) book.timerCore [] [.cancelTimer id]
        book.timerCore := Moves.single (TimerMove.cancel _ id (Or.inl ⟨wave, hid⟩))
    have hlive : { book with
        committedWaves := insert wave book.committedWaves
        slowTimerByWave := book.slowTimerByWave.erase wave
        timerToWave := book.timerToWave.erase id }.timerCore.live ⊆ book.timerCore.live := by
      rintro x (⟨w, hw⟩ | ⟨w, hw⟩)
      · exact Or.inl ⟨w, Maps.get_of_erase hw⟩
      · exact Or.inr ⟨w, Maps.get_of_erase hw⟩
    exact Steady.path (Moves.step hcancel (TimerMove.rest _ _ [] [] hlive (by simp)))

theorem tryEmitForWave_committed (wave : WaveId) (timedOut : Bool) (book : WaveBook) :
    book.committedWaves ⊆ (tryEmitForWave cr wave cfg ctx timedOut book).state.committedWaves := by
  have hstep : Simulation.Steady (WaveStep cr cfg ctx fun _ _ => True) WaveBook.core book.core
      (tryEmitForWave cr wave cfg ctx timedOut book) := tryEmitForWave_step trivial book
  obtain ⟨acts, hpath, -⟩ := hstep
  refine hpath.keeps (P := fun c => book.committedWaves ⊆ c.committed) ?_ (Finset.Subset.refl _)
  intro c sg as d hm hc
  cases hm with
  | idle => exact hc
  | commit => exact hc.trans (Finset.subset_insert _ _)
  | stuck => exact hc.trans (Finset.subset_insert _ _)

theorem onCertifiedVertex_timers (cv : CertifiedVertex) (book : WaveBook)
    (hmay : ∀ w ≤ waveOfRound cv.vertex.round, w ∉ book.committedWaves →
      Waits cr cfg ctx w → may) :
    TimerSteady may book.timerCore (onCertifiedVertex cr cfg cv ctx book) := by
  unfold onCertifiedVertex
  -- the wave is judged by the committed waves before the call, which only grow
  have hfold : ∀ (ws : List Nat) (o : Result WaveBook),
      (∀ w ∈ ws, w ≤ waveOfRound cv.vertex.round) →
      book.committedWaves ⊆ o.state.committedWaves →
      TimerSteady may book.timerCore o →
      TimerSteady may book.timerCore
        (ws.foldl (fun o w => o.andThen fun book =>
          if w ∈ book.committedWaves then .quiet book
          else tryEmitForWave cr w cfg ctx false book) o) := by
    intro ws
    induction ws with
    | nil => exact fun o _ _ ho => ho
    | cons w ws ih =>
      intro o hws hgrow ho
      refine ih _ (fun w' hw' => hws w' (List.mem_cons_of_mem _ hw')) ?_ (Steady.andThen ho ?_)
      · dsimp only
        cases hr : o.result with
        | error e => rwa [Outcome.andThen_of_error hr]
        | ok acts =>
          rw [Outcome.andThen_of_ok hr]
          dsimp only
          split
          · exact hgrow
          · exact hgrow.trans (tryEmitForWave_committed w false o.state)
      · intro _ _
        split
        · exact Steady.quiet _
        · exact tryEmitForWave_timers w false _
            fun _ hnew => hmay w (hws w (by simp)) fun hold => hnew (hgrow hold)
  refine hfold _ _ ?_ (Finset.Subset.refl _) (Steady.quiet book)
  intro w hw
  exact Nat.le_of_lt_succ (List.mem_range.mp hw)

theorem onTimerFired_timers (id : TimerId) (book : WaveBook) :
    TimerSteady may book.timerCore (onTimerFired cr cfg id ctx book) := by
  unfold onTimerFired
  split
  · exact Steady.quiet book
  · rename_i wave hwave
    have hlive : { book with
        timerToWave := book.timerToWave.erase id
        slowTimerByWave := book.slowTimerByWave.erase wave }.timerCore.live ⊆
        book.timerCore.live := by
      rintro x (⟨w, hw⟩ | ⟨w, hw⟩)
      · exact Or.inl ⟨w, Maps.get_of_erase hw⟩
      · exact Or.inr ⟨w, Maps.get_of_erase hw⟩
    exact Steady.prepend (Moves.single (TimerMove.rest _ _ [] [] hlive (by simp)))
      (tryEmitForWave_timers wave true { book with
        timerToWave := book.timerToWave.erase id
        slowTimerByWave := book.slowTimerByWave.erase wave } (fun h => by cases h))

end Timers
end Bullshark

/- L3. -/
namespace MacroFin
section Timers
variable {cr : Crypto} {cfg : Config} {ctx : HostContext} {set : ValidatorSet} {may : Prop}

abbrev TimerSteady (may : Prop) (c : TimerCore) (o : Result MacroBook) : Prop :=
  Simulation.Steady (TimerMove may) MacroBook.timerCore c o

theorem rests_timers {book : MacroBook} {o : Result MacroBook} (h : Rests book o) :
    TimerSteady may book.timerCore o := by
  apply Simulation.Steady.single
  have hlive : o.state.timerCore.live ⊆ book.timerCore.live := by
    rintro id (⟨x, hx⟩ | ⟨x, hx⟩)
    · exact Or.inl ⟨x, h.state.timers.backup x id hx⟩
    · exact Or.inr ⟨x, h.state.timers.modeB x id hx⟩
  have hcore : o.state.timerCore = { book.timerCore with live := o.state.timerCore.live } := by
    simp [MacroBook.timerCore, MacroTimerBook.core, h.state.timers.seq]
  rw [hcore]
  exact TimerMove.rest book.timerCore _ o.signed o.actions hlive h.actions

def BacksUp (cr : Crypto) (ctx : HostContext) (set : ValidatorSet) (book : MacroBook) : Prop :=
  ∃ beacon schedule, ctx.beacon = .ok beacon ∧
    vrfSortition cr beacon set book.nextHeight book.reputation = .ok schedule ∧
    schedule.backup = book.selfId

def Arms (cr : Crypto) (cfg : Config) (ctx : HostContext) (set : ValidatorSet) (book : MacroBook) :
    Prop :=
  cfg.aggregation.simForceKe = none ∨ BacksUp cr ctx set book

theorem armModeB_timers (height : Height) (book : MacroBook)
    (hmay : cfg.aggregation.simForceKe = none → may) :
    TimerSteady may book.timerCore (armModeB cfg height book) := by
  unfold armModeB
  split
  · exact Steady.quiet book
  · rename_i hnone
    have hnew := Moves.single (TimerMove.start book.timerCore
      (cfg.timing.tMacroproposeMs * 2000000) (hmay hnone))
    have hlive : (book.timers.modeBDeadlineAction cfg height).2.core.live ⊆
        insert book.timerCore.next book.timerCore.live := by
      rintro id (⟨x, hx⟩ | ⟨x, hx⟩)
      · exact Or.inr (Or.inl ⟨x, hx⟩)
      · cases Maps.get_of_insert hx with
        | inl heq => exact Or.inl heq.2
        | inr hold => exact Or.inr (Or.inr ⟨x, hold⟩)
    exact Steady.path (Moves.step hnew (TimerMove.rest _ _ [] [] hlive (by simp)))

theorem takeRole_timers (beacon : Hash32) (height : Height) (cand : MacroCheckpoint)
    (book : MacroBook)
    (hmay : ∀ schedule, vrfSortition cr beacon set height book.reputation = .ok schedule →
      schedule.backup = book.selfId → may) :
    TimerSteady may book.timerCore (takeRole cr cfg ctx set beacon height cand book) := by
  unfold takeRole
  split
  · exact Steady.fail book _
  rename_i schedule hsched
  split
  · exact rests_timers (propose_rests ctx _ _ _ _)
  split
  · rename_i hbackup
    have hnew := Moves.single (TimerMove.start book.timerCore
      (cfg.timing.tMacroproposeMs * 1000000) (hmay schedule hsched hbackup))
    have hlive : (book.timers.backupProposeAction cfg height).2.core.live ⊆
        insert book.timerCore.next book.timerCore.live := by
      rintro id (⟨x, hx⟩ | ⟨x, hx⟩)
      · cases Maps.get_of_insert hx with
        | inl heq => exact Or.inl heq.2
        | inr hold => exact Or.inr (Or.inl ⟨x, hold⟩)
      · exact Or.inr (Or.inr ⟨x, hx⟩)
    exact Steady.path (Moves.step hnew (TimerMove.rest _ _ [] [] hlive (by simp)))
  · exact Steady.quiet book

theorem closeWindow_timers (book : MacroBook) (hmay : Arms cr cfg ctx set book → may) :
    TimerSteady may book.timerCore (closeWindow cr cfg ctx set book) := by
  unfold closeWindow
  dsimp only
  split
  · exact Steady.fail (installCandidate cr book) _
  · rename_i beacon hbeacon
    refine Steady.andThen (takeRole_timers beacon book.nextHeight _
      (freezeBeacon book.nextHeight beacon (installCandidate cr book)) ?_)
      fun _ _ => armModeB_timers _ _ fun hnone => hmay (Or.inl hnone)
    intro schedule hsched hbackup
    exact hmay (Or.inr ⟨beacon, schedule, hbeacon, hsched, hbackup⟩)

theorem Arms.lead {book book' : MacroBook} (h : Arms cr cfg ctx set book')
    (hlead : SameLead book' book) : Arms cr cfg ctx set book := by
  unfold Arms BacksUp at h
  rw [hlead.nextHeight, hlead.reputation, hlead.selfId] at h
  exact h

/-- Timers are started for the windows that close. -/
theorem pushAll_timers (hs : List Hash32) {c : TimerCore} {o : Result MacroBook}
    (ho : TimerSteady may c o)
    (hmay : 1 ≤ closings cfg.macroFin.macroWindowW o.state.microRing.length hs.length →
      Arms cr cfg ctx set o.state → may) :
    TimerSteady may c (pushAll cr cfg ctx set hs o) := by
  induction hs generalizing o with
  | nil => exact ho
  | cons h hs ih =>
    rw [pushAll, List.foldl_cons, ← pushAll]
    cases hr : o.result with
    | error e =>
      rw [Outcome.andThen_of_error hr]
      rwa [pushAll_error hr]
    | ok acts =>
    rw [List.length_cons, closings] at hmay
    have hring := @pushMicroQc_ring cr cfg ctx set h o.state
    have hlead := @pushMicroQc_lead cr cfg ctx set h o.state
    refine ih (Steady.andThen ho ?_) ?_
    · intro _ _
      unfold pushMicroQc
      dsimp only
      split
      · exact Steady.quiet { o.state with microRing := o.state.microRing ++ [h] }
      · rename_i hfull
        rw [if_neg (by simpa using hfull)] at hmay
        exact closeWindow_timers { o.state with microRing := o.state.microRing ++ [h] }
          fun harms => hmay (Nat.le_add_left 1 _) (harms.lead ⟨rfl, rfl, rfl⟩)
    · rw [Outcome.andThen_of_ok hr]
      dsimp only
      rw [hring]
      intro hclose harms
      refine hmay ?_ (harms.lead hlead)
      split at hclose
      · rename_i hlt
        rw [if_pos (by simpa using hlt)]
        simpa using hclose
      · rename_i hfull
        rw [if_neg (by simpa using hfull)]
        exact Nat.le_add_left 1 _

end Timers
end MacroFin

end LuaDag
