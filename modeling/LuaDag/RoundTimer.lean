import LuaDag.OwnVertices

/-! The round timer. As long as its calls return, a bootstrapped node is never left in a round
that holds a quorum, and never without the timer that sends its proposal again. -/
namespace LuaDag
open VertexCert

def Drained (need : Nat) (b : VertexBook) : Prop := b.certifiedCountAt b.currentRound < need

/-- The last timer L1 has armed is the round timer, and it has not been cancelled since. -/
def Armed (acts : List Action) (b : VertexBook) : Prop :=
  ∃ before id delay after, acts = before ++ Action.scheduleTimer id delay :: after ∧
    b.roundTimer = some id ∧ (∀ id' delay', Action.scheduleTimer id' delay' ∉ after) ∧
    Action.cancelTimer id ∉ after

/- Draining. -/
namespace VertexCert
section Drain
variable {cr : Crypto} {cfg : Config} {ctx : HostContext} {need : Nat}

/-- The recursive call of `try_finalize` and `propose_round` leaves no quorum behind. -/
def Drains (need : Nat) (adv : VertexBook → Result VertexBook) : Prop :=
  ∀ book acts, book.started = true → (adv book).result = .ok acts → Drained need (adv book).state

theorem andThen_drained {o : Result VertexBook} {k : VertexBook → Result VertexBook}
    {acts : List Action} (h : (o.andThen k).result = .ok acts)
    (hk : ∀ acts, (k o.state).result = .ok acts → Drained need (k o.state).state) :
    Drained need (o.andThen k).state := by
  cases hr : o.result with
  | error e =>
    rw [Outcome.andThen_of_error hr] at h
    exact absurd (hr.symm.trans h) (by simp)
  | ok as =>
    rw [Outcome.andThen_of_ok hr] at h ⊢
    cases hkr : (k o.state).result with
    | error e => simp [hkr, Except.map] at h
    | ok bs => exact hk bs hkr

theorem tryFinalizeWith_drained {adv : VertexBook → Result VertexBook} (hadv : Drains need adv)
    {hash : Hash32} {book : VertexBook} {acts : List Action} (hst : book.started = true)
    (hdrained : Drained need book)
    (h : (tryFinalizeWith cr ctx adv hash book).result = .ok acts) :
    Drained need (tryFinalizeWith cr ctx adv hash book).state := by
  revert h
  unfold tryFinalizeWith
  split
  · exact fun _ => hdrained
  split
  · exact fun _ => hdrained
  split
  · exact fun h => absurd h (by simp)
  split
  · exact fun h => absurd h (by simp)
  split
  · exact fun _ => hdrained
  split
  · exact fun _ => hdrained
  split
  · exact fun h => absurd h (by simp)
  split
  · exact fun h => absurd h (by simp)
  intro h
  exact andThen_drained h fun as has => hadv _ as hst has

theorem advanceLoop_drained (hpos : 0 < need) (fuel : Nat) {book : VertexBook}
    {acts : List Action} (h : (advanceLoop cr cfg ctx fuel need book).result = .ok acts) :
    Drained need (advanceLoop cr cfg ctx fuel need book).state := by
  induction fuel generalizing book acts with
  | zero => exact absurd h (by simp [advanceLoop])
  | succ fuel ih =>
    revert h
    unfold advanceLoop
    split
    · rename_i hnone
      intro _
      simp only [Drained, VertexBook.certifiedCountAt, Outcome.quiet_state, hnone]
      exact hpos
    rename_i certs hcerts
    split
    · rename_i hlow
      intro _
      simp only [Drained, VertexBook.certifiedCountAt, Outcome.quiet_state, hcerts]
      exact hlow
    intro h
    exact andThen_drained h fun _ has => ih has

theorem prune_drained {book : VertexBook} (h : Drained need book) : Drained need (prune book) := by
  have hkeep : (prune book).certifiedByRound[book.currentRound]? =
      book.certifiedByRound[book.currentRound]? := by
    simp only [prune, Std.TreeMap.getElem?_filter', Nat.sub_le, decide_true]
    cases book.certifiedByRound[book.currentRound]? <;> simp
  unfold Drained VertexBook.certifiedCountAt at h ⊢
  rw [show (prune book).currentRound = book.currentRound from rfl, hkeep]
  exact h

section Fixed
variable {set : ValidatorSet} (hset : activeSet ctx = .ok set) (hneed : quorumNeed set = .ok need)
  (hpos : 0 < need)
include hset hneed hpos

theorem maybeAdvance_drains : Drains need (maybeAdvance cr cfg ctx) := by
  intro book acts hst h
  have heq : maybeAdvance cr cfg ctx book =
      (advanceLoop cr cfg ctx ctx.fuel need book).andThen fun b => .quiet (prune b) := by
    simp [maybeAdvance, maybeAdvanceWith, hst, hset, hneed]
  rw [heq] at h ⊢
  cases hr : (advanceLoop cr cfg ctx ctx.fuel need book).result with
  | error e =>
    rw [Outcome.andThen_of_error hr] at h
    exact absurd (hr.symm.trans h) (by simp)
  | ok as =>
    rw [Outcome.andThen_of_ok hr]
    exact prune_drained (advanceLoop_drained hpos _ hr)

end Fixed

section Calls
variable {set : ValidatorSet} (hset : activeSet ctx = .ok set) (hneed : quorumNeed set = .ok need)
  (hpos : 0 < need)
include hset hneed hpos

theorem onVertexPartial_drained {bp : VertexPartial} {book : VertexBook} {acts : List Action}
    (hst : book.started = true) (hdrained : Drained need book)
    (h : (onVertexPartial cr cfg ctx bp book).result = .ok acts) :
    Drained need (onVertexPartial cr cfg ctx bp book).state := by
  revert h
  unfold onVertexPartial
  split
  · exact fun _ => hdrained
  split
  · exact fun _ => hdrained
  dsimp only
  split
  · split
    · exact fun _ => hdrained
    · exact fun _ => hdrained
  rw [hset]
  dsimp only
  split
  · exact fun _ => hdrained
  intro h
  exact tryFinalizeWith_drained (maybeAdvance_drains hset hneed hpos) hst hdrained h

omit hpos in
theorem onTimerFired_armed {id : TimerId} {book : VertexBook} (hdrained : Drained need book)
    (hid : book.roundTimer = some id) :
    ∃ stalled retries delay, onTimerFired cfg ctx id book =
      .ok { book with
          roundsStalled := stalled
          timerRetries := retries
          timers := book.timers.allocate.2
          roundTimer := some book.timers.allocate.1 }
        (((book.myProposals.toList.find? (·.2.vertex.round = book.currentRound)).map
          fun e => Action.broadcastVertexProposal e.2).toList ++
            [.scheduleTimer book.timers.allocate.1 delay]) := by
  have hlow : ¬ need ≤ ({ book with roundTimer := none } : VertexBook).certifiedCountAt
      book.currentRound := Nat.not_le_of_lt hdrained
  refine ⟨book.roundsStalled + 1, min (book.timerRetries + 1) 8,
    roundDelayNanos cfg (min (book.timerRetries + 1) 8), ?_⟩
  unfold onTimerFired
  rw [if_neg (not_not.mpr hid), hset]
  dsimp only
  rw [hneed]
  dsimp only
  rw [if_neg hlow]

theorem vertexOutcome_drained {call : NodeCall} (hctx : call.ctx = ctx) {acts : List Action}
    (hst : call.pre.vertices.started = true) (hdrained : Drained need call.pre.vertices)
    (h : (call.vertexOutcome cr).result = .ok acts) :
    Drained need (call.vertexOutcome cr).state := by
  subst hctx
  obtain ⟨sm, req, ctx⟩ := call
  cases req with
  | genesis =>
    have hst' : sm.vertices.started = true := hst
    simp only [NodeCall.vertexOutcome, genesisPropose, hst', if_true]
    exact hdrained
  | event e =>
    cases e with
    | certifiedVertexReceived cv =>
      exact maybeAdvance_drains hset hneed hpos (recordCert sm.vertices cv) acts hst h
    | vertexProposalReceived p =>
      obtain ⟨seen, voted, rejected, heq⟩ :=
        (@onVertexProposal_aside cr p ctx sm.vertices).state
      simp only [NodeCall.vertexOutcome]
      rw [show (onVertexProposal cr p (NodeCall.ctx ⟨sm, .event (.vertexProposalReceived p), ctx⟩)
        sm.vertices).state = _ from heq]
      exact hdrained
    | vertexPartialReceived bp => exact onVertexPartial_drained hset hneed hpos hst hdrained h
    | timerFired id =>
      by_cases hid : sm.vertices.roundTimer = some id
      · obtain ⟨stalled, retries, delay, heq⟩ :=
          @onTimerFired_armed sm.cfg ctx need set hset hneed id sm.vertices hdrained hid
        revert h
        simp only [NodeCall.vertexOutcome]
        split
        · exact fun _ => hdrained
        · intro _
          rw [show onTimerFired sm.cfg (NodeCall.ctx ⟨sm, .event (.timerFired id), ctx⟩) id
            sm.vertices = _ from heq]
          exact hdrained
      · simp only [NodeCall.vertexOutcome]
        split
        · exact hdrained
        · rw [onTimerFired, if_pos hid]
          exact hdrained
    | _ => exact hdrained

end Calls
end Drain
end VertexCert

/- Arming. -/

/-- Actions without timers keep the round timer. -/
theorem Armed.append {acts new : List Action} {b d : VertexBook} (h : Armed acts b)
    (htimer : d.roundTimer = b.roundTimer)
    (hnew : ∀ a ∈ new, ∀ id delay, a ≠ .scheduleTimer id delay ∧ a ≠ .cancelTimer id) :
    Armed (acts ++ new) d := by
  obtain ⟨before, id, delay, after, rfl, hid, hsched, hcancel⟩ := h
  refine ⟨before, id, delay, after ++ new, by simp, htimer.trans hid, ?_, ?_⟩
  · intro id' delay' hmem
    cases List.mem_append.mp hmem with
    | inl hl => exact hsched id' delay' hl
    | inr hr => exact (hnew _ hr id' delay').1 rfl
  · intro hmem
    cases List.mem_append.mp hmem with
    | inl hl => exact hcancel hl
    | inr hr => exact (hnew _ hr id 0).2 rfl

theorem armed_last (before : List Action) {b : VertexBook} {id : TimerId} (delay : Nat)
    {after : List Action} (hid : b.roundTimer = some id)
    (hafter : ∀ a ∈ after, ∀ id delay, a ≠ .scheduleTimer id delay ∧ a ≠ .cancelTimer id) :
    Armed (before ++ .scheduleTimer id delay :: after) b :=
  ⟨before, id, delay, after, rfl, hid, fun id' delay' hmem => (hafter _ hmem id' delay').1 rfl,
    fun hmem => (hafter _ hmem id 0).2 rfl⟩

theorem armed_own {cr : Crypto} {cfg : Config} {ctx : HostContext} (acts : List Action)
    (b : VertexBook) (round : Round) (parents : List Hash32) :
    Armed (acts ++ ownActions cr cfg ctx b round parents) (seeded cr ctx b round parents) := by
  unfold ownActions
  rw [← List.append_assoc]
  exact armed_last _ _ rfl (by simp)

/-- A write of a call that is no timer call keeps the round timer armed, and the bootstrap
arms it. -/
theorem armed_move {cr : Crypto} {call : NodeCall} (hev : ∀ id, call.event ≠ some (.timerFired id))
    {acts new : List Action} {b d : VertexBook} {sg : List SignReq}
    (hm : BookMove cr call b sg new d) (h : b.started = true → Armed acts b) :
    d.started = true → Armed (acts ++ new) d := by
  cases hm with
  | genesis hst => exact fun _ => armed_own acts _ 0 []
  | propose set need certs hst hset hready => exact fun _ => armed_own acts _ _ _
  | disarm id hid _ => exact absurd hid (hev id)
  | rearm id hid => exact absurd hid (hev id)
  | _ => exact fun hst => (h hst).append rfl (by simp)

theorem armed_call {cr : Crypto} {call : NodeCall}
    (hev : ∀ id, call.event ≠ some (.timerFired id)) {acts as : List Action}
    (h : call.pre.vertices.started = true → Armed acts call.pre.vertices)
    (hok : (call.vertexOutcome cr).result = .ok as) :
    (call.vertexOutcome cr).state.started = true →
      Armed (acts ++ as) (call.vertexOutcome cr).state := by
  obtain ⟨new, hpath, hres⟩ := vertexOutcome_moves cr call
  rw [hres as hok]
  exact hpath.invariant (R := fun _ => True)
    (P := fun _ acts b => b.started = true → Armed acts b)
    (fun _ _ _ _ _ _ _ hm hb => armed_move hev hm hb) (fun _ _ => trivial) [] acts h

section Run
variable {cr : Crypto} {cfg : Config} {self : ValidatorId} {set : ValidatorSet}
  {boot : HostContext} {is : List StateMachine.Input}

structure Paced (cr : Crypto) (need : Nat) (hist : List NodeCall) (b : VertexBook) : Prop where
  started : b.started = true
  drained : Drained need b
  armed : Armed (vertexActions cr hist) b

/-- A timer call leaves L1 alone, or the round timer has fired. -/
theorem timer_call (cr : Crypto) {call : NodeCall} {id : TimerId}
    (hev : call.event = some (.timerFired id)) {acts : List Action}
    (hok : (call.vertexOutcome cr).result = .ok acts) :
    (call.vertexOutcome cr).state = call.pre.vertices ∧ acts = [] ∨
      call.pre.vertices.roundTimer = some id ∧
        call.vertexOutcome cr = onTimerFired call.pre.cfg call.ctx id call.pre.vertices := by
  obtain ⟨sm, req, ctx⟩ := call
  cases req with
  | genesis => cases hev
  | event e =>
    cases hev
    revert hok
    simp only [NodeCall.vertexOutcome]
    split
    · exact fun hok => Or.inl ⟨rfl, by cases hok; rfl⟩
    · by_cases hid : sm.vertices.roundTimer = some id
      · exact fun _ => Or.inr ⟨hid, rfl⟩
      · rw [onTimerFired, if_pos hid]
        exact fun hok => Or.inl ⟨rfl, by cases hok; rfl⟩

theorem paced_step {need : Nat} {hist : List NodeCall} {call : NodeCall}
    (hset : activeSet call.ctx = .ok set) (hneed : quorumNeed set = .ok need) (hpos : 0 < need)
    (h : Paced cr need hist call.pre.vertices) {acts : List Action}
    (hok : (call.vertexOutcome cr).result = .ok acts) :
    Paced cr need (hist ++ [call]) (call.vertexOutcome cr).state := by
  have hst := bookSteady_started (vertexOutcome_moves cr call) h.started
  refine ⟨hst, vertexOutcome_drained hset hneed hpos rfl h.started h.drained hok, ?_⟩
  rw [vertexActions_append, vertexActions_singleton, Outcome.actions, hok]
  by_cases hev : ∃ id, call.event = some (.timerFired id)
  · obtain ⟨id, hid⟩ := hev
    obtain ⟨heq, hempty⟩ | ⟨hround, heq⟩ := timer_call cr hid hok
    · rw [heq, hempty]
      exact h.armed.append rfl (by simp)
    · obtain ⟨stalled, retries, delay, hfired⟩ :=
        @onTimerFired_armed call.pre.cfg call.ctx need set hset hneed id _ h.drained hround
      rw [heq, hfired] at hok ⊢
      cases hok
      rw [← List.append_assoc]
      exact armed_last _ delay rfl (by simp)
  · exact armed_call (fun id hid => hev ⟨id, hid⟩) (fun _ => h.armed) hok hst

/-- The bootstrap starts the pace, unless the set is too large to have a threshold. -/
theorem paced_boot (hset : activeSet boot = .ok set) {acts : List Action}
    (hok : ((bootCall cfg self boot).vertexOutcome cr).result = .ok acts) :
    ∃ need, quorumNeed set = .ok need ∧ 0 < need ∧
      Paced cr need [bootCall cfg self boot] ((bootCall cfg self boot).vertexOutcome cr).state := by
  let book : VertexBook := { VertexBook.new self with started := true }
  have hdef : (bootCall cfg self boot).vertexOutcome cr =
      (announce cr cfg boot 0 [] book).andThen
        (tryFinalize cr cfg boot (ownVertex cr boot book 0 []).hash) := rfl
  cases hneed : quorumNeed set with
  | error e =>
    have heq : (bootCall cfg self boot).vertexOutcome cr = _ :=
      @proposeRoundWith_error cr cfg boot set hset (maybeAdvance cr cfg boot) book 0 [] e hneed
        (by simp [book, VertexBook.new])
    rw [heq] at hok
    exact absurd hok (by simp [announce, Outcome.andThen_of_ok, Except.map])
  | ok need =>
    have hpos : 0 < need := by
      rw [quorumNeed_eq hneed]
      exact Nat.succ_pos _
    have hst : ((bootCall cfg self boot).vertexOutcome cr).state.started = true := by
      rw [hdef, Outcome.andThen_of_ok rfl]
      have htry := @tryFinalizeWith_moves cr (bootCall cfg self boot) _ maybeAdvance_moves
        (ownVertex cr boot book 0 []).hash (announce cr cfg boot 0 [] book).state
      have hseeded : (announce cr cfg boot 0 [] book).state.started = true := rfl
      have htried := bookSteady_started htry hseeded
      exact htried
    refine ⟨need, rfl, hpos, hst, ?_, ?_⟩
    · rw [hdef] at hok ⊢
      refine andThen_drained hok fun as has => ?_
      refine tryFinalizeWith_drained (maybeAdvance_drains hset hneed hpos) rfl ?_ has
      simp only [Drained, VertexBook.certifiedCountAt, announce, seeded, seedProposal, book,
        VertexBook.new]
      simpa using hpos
    · rw [vertexActions_singleton, Outcome.actions, hok]
      exact @armed_call _ _ (fun id hid => by cases hid) [] _ (fun h => by cases h) hok hst

theorem vertices_ok {call : NodeCall} {acts : List Action}
    (h : (StateMachine.exec cr call.input call.pre).result = .ok acts) :
    ∃ vacts, (call.vertexOutcome cr).result = .ok vacts := by
  obtain ⟨vacts, hv, -⟩ := (exec_fromVertices cr call).news acts h
  exact ⟨vacts, hv⟩

theorem boot_need (hset : FixedSet set ((.genesis, boot) :: is))
    (hok : ∀ call ∈ StateMachine.run cr cfg self ((.genesis, boot) :: is),
      ∃ acts, (StateMachine.exec cr call.input call.pre).result = .ok acts) :
    ∃ need, quorumNeed set = .ok need := by
  obtain ⟨acts, hacts⟩ := hok (bootCall cfg self boot) List.mem_cons_self
  obtain ⟨vacts, hv⟩ := vertices_ok hacts
  obtain ⟨need, hneed, -⟩ := paced_boot (hset _ List.mem_cons_self) hv
  exact ⟨need, hneed⟩

theorem paced_run (hset : FixedSet set ((.genesis, boot) :: is))
    (hok : ∀ call ∈ StateMachine.run cr cfg self ((.genesis, boot) :: is),
      ∃ acts, (StateMachine.exec cr call.input call.pre).result = .ok acts) :
    Paced cr (quorumThreshold set.entries.length)
      (StateMachine.run cr cfg self ((.genesis, boot) :: is))
      (StateMachine.reached cr cfg self ((.genesis, boot) :: is)).vertices := by
  obtain ⟨acts, hacts⟩ := hok (bootCall cfg self boot) List.mem_cons_self
  obtain ⟨vacts, hv⟩ := vertices_ok hacts
  obtain ⟨need, hneed, hpos, hboot⟩ := paced_boot (hset _ List.mem_cons_self) hv
  rw [← quorumNeed_eq hneed]
  refine booted_run cr (fun call => activeSet call.ctx = .ok set ∧
    ∃ acts, (call.vertexOutcome cr).result = .ok acts) (Paced cr need) cfg self boot hboot ?_ is ?_
  · rintro hist call hinv ⟨hg, acts, hres⟩
    exact paced_step hg hneed hpos hinv hres
  · intro call hcall
    obtain ⟨acts, hres⟩ := hok call hcall
    exact ⟨fixedSet_call hset hcall, vertices_ok hres⟩

/-- As long as every call returns, the current round of a bootstrapped node lacks a quorum, its
own proposal is on record, and the round timer is the last timer L1 has armed; a round timer
that fires is armed again. -/
theorem no_stalled_round (cr : Crypto) (cfg : Config) (self : ValidatorId) (set : ValidatorSet)
    (boot : HostContext) (is : List StateMachine.Input)
    (hset : FixedSet set ((.genesis, boot) :: is))
    (hok : ∀ call ∈ StateMachine.run cr cfg self ((.genesis, boot) :: is),
      ∃ acts, (StateMachine.exec cr call.input call.pre).result = .ok acts) :
    let calls : List NodeCall := StateMachine.run cr cfg self ((.genesis, boot) :: is)
    let book := (StateMachine.reached cr cfg self ((.genesis, boot) :: is)).vertices
    book.certifiedCountAt book.currentRound < quorumThreshold set.entries.length ∧
      (∃! h : Hash32, ∃ p, book.myProposals[h]? = some p ∧ p.vertex.round = book.currentRound) ∧
      Armed (vertexActions cr calls) book ∧
      ∀ call ∈ calls, ∀ id, call.event = some (.timerFired id) →
        call.pre.vertices.roundTimer = some id →
        ∃ delay, Action.scheduleTimer call.pre.vertices.timers.allocate.1 delay ∈
          (onTimerFired call.pre.cfg call.ctx id call.pre.vertices).actions := by
  intro calls book
  have hall := paced_run hset hok
  refine ⟨hall.drained, ?_, hall.armed, ?_⟩
  · have hown := ownBook_run cr cfg self ((.genesis, boot) :: is)
    obtain ⟨x, p, hx, hr⟩ := hown.current hall.started
    refine ⟨x, ⟨p, hx, hr⟩, ?_⟩
    rintro y ⟨q, hy, hq⟩
    exact hown.single y x q p hy hx (hq.trans hr.symm)
  · intro call hcall id hev hid
    cases call_cases hcall with
    | inl hboot =>
      rw [hboot] at hev
      cases hev
    | inr hlater =>
      obtain ⟨js, ks, his, hpre, hsub⟩ := hlater
      have hjs : FixedSet set ((.genesis, boot) :: js) := hset.of_append his
      have hpaced := paced_run hjs fun c hc => hok c (hsub c hc)
      rw [← hpre] at hpaced
      obtain ⟨need, hneed⟩ := boot_need hset hok
      have hdrained : Drained need call.pre.vertices := by
        rw [quorumNeed_eq hneed]
        exact hpaced.drained
      obtain ⟨stalled, retries, delay, heq⟩ := @onTimerFired_armed call.pre.cfg call.ctx need set
        (fixedSet_call hset hcall) hneed id _ hdrained hid
      exact ⟨delay, by simp [heq]⟩

end Run

section Devnet
open Devnet

def timedRun : List StateMachine.Input :=
  script 3 (([vertexAt 0 0, vertexAt 0 1, vertexAt 0 2, vertexAt 1 0, vertexAt 1 1,
    vertexAt 1 2].map fun cv => (1, .certifiedVertexReceived cv)) ++ [(1, .timerFired 2)])

theorem fixedSet_script {boot : HostContext} (hboot : activeSet boot = .ok validators) (i : Nat)
    (es : List (Round × Event)) : FixedSet validators ((.genesis, boot) :: script i es) := by
  intro j hj
  cases List.mem_cons.mp hj with
  | inl h =>
    rw [h]
    exact hboot
  | inr h =>
    obtain ⟨e, -, rfl⟩ := List.mem_map.mp h
    rfl

theorem no_stalled_round_devnet :
    let book := (StateMachine.reached openCrypto config ⟨3⟩
      ((.genesis, ports 3 0) :: timedRun)).vertices
    book.currentRound = 2 ∧ book.roundTimer = some 3 ∧ book.certifiedCountAt 2 < 3 := by
  have hall : (StateMachine.run openCrypto config ⟨3⟩ ((.genesis, ports 3 0) :: timedRun)).all
      (fun call => (StateMachine.exec openCrypto call.input call.pre).result.isOk) = true := by
    decide +kernel
  have hok : ∀ call ∈ StateMachine.run openCrypto config ⟨3⟩ ((.genesis, ports 3 0) :: timedRun),
      ∃ acts, (StateMachine.exec openCrypto call.input call.pre).result = .ok acts := by
    intro call hcall
    exact Outcome.exists_of_isOk (List.all_eq_true.mp hall call hcall)
  have hrun := (no_stalled_round openCrypto config ⟨3⟩ validators (ports 3 0) timedRun
    (fixedSet_script rfl 3 _) hok).1
  have hbook : (StateMachine.reached openCrypto config ⟨3⟩
      ((.genesis, ports 3 0) :: timedRun)).vertices.currentRound = 2 ∧
      (StateMachine.reached openCrypto config ⟨3⟩
        ((.genesis, ports 3 0) :: timedRun)).vertices.roundTimer = some 3 := by
    decide +kernel
  refine ⟨hbook.1, hbook.2, ?_⟩
  rw [hbook.1] at hrun
  exact hrun

end Devnet
end LuaDag
