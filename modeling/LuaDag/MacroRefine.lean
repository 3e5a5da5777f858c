import LuaDag.MacroCore
import LuaDag.Simulation

/-! The L3 handlers refine the abstract protocol: whatever a handler does to the
book is a path of moves, possibly ended by one adoption. -/
namespace LuaDag
open MacroFin
open Simulation (Moves.single Moves.step Moves.refl Steady.move Steady.quiet Steady.fail
  Steady.prepend Steady.andThen)

/- The simulation library at the L3 moves. -/
abbrev Moves (cr : Crypto) (call : NodeCall) := Simulation.Moves (Move cr call)

abbrev Steady (cr : Crypto) (call : NodeCall) (c : MacroCore) (o : Result MacroBook) : Prop :=
  Simulation.Steady (Move cr call) MacroBook.core c o

def Handled (cr : Crypto) (call : NodeCall) (c : MacroCore) (o : Result MacroBook) : Prop :=
  Steady cr call c o ∨
    ∃ acts d acts', Moves cr call c o.signed acts d ∧ Adopt cr call d acts' o.state.core ∧
      o.result = .ok (acts ++ acts')

section Refine
variable {cr : Crypto} {call : NodeCall}

theorem steady_ok (book : MacroBook) {acts : List Action}
    (h : ∀ a ∈ acts, a.isMacroTraffic = true) : Steady cr call book.core (.ok book acts) :=
  Steady.move (Move.plain book.core acts h)

theorem Handled.prepend {c d : MacroCore} {o : Result MacroBook}
    (h : Moves cr call c [] [] d) (ho : Handled cr call d o) : Handled cr call c o := by
  cases ho with
  | inl hs => exact Or.inl (hs.prepend h)
  | inr ha =>
    obtain ⟨acts, e, acts', hpath, hadopt, hres⟩ := ha
    exact Or.inr ⟨acts, e, acts', by simpa using h.trans hpath, hadopt, hres⟩

theorem steady_andThen_handled {c : MacroCore} {o : Result MacroBook}
    {k : MacroBook → Result MacroBook} (h : Steady cr call c o)
    (hk : ∀ acts, o.result = .ok acts → Handled cr call o.state.core (k o.state)) :
    Handled cr call c (o.andThen k) := by
  cases hr : o.result with
  | error e =>
    rw [Outcome.andThen_of_error hr]
    exact Or.inl h
  | ok acts =>
    cases hk acts hr with
    | inl hs => exact Or.inl (h.andThen fun _ _ => hs)
    | inr ha =>
      obtain ⟨bs, d, ds, hpath', hadopt, hres'⟩ := ha
      obtain ⟨as, hpath, hres⟩ := h
      rw [Outcome.andThen_of_ok hr]
      refine Or.inr ⟨as ++ bs, d, ds, hpath.trans hpath', hadopt, ?_⟩
      simp [hres', Except.map, hres acts hr]

/- Proposals and windows. -/

theorem propose_steady (beacon : Hash32) {height : Height} {cp : MacroCheckpoint}
    (book : MacroBook) (hc : book.candidate[height]? = some cp)
    (hfirst : call.wellPaced cr = true → height ∉ book.proposalSeen) :
    Steady cr call book.core (propose call.ctx beacon height cp book) := by
  unfold propose
  split
  · exact Steady.fail book _
  · exact Steady.move (Move.propose book.core height cp _ hc hfirst)

theorem armModeB_steady (cfg : Config) {height : Height} (book : MacroBook)
    (hh : height = book.nextHeight) : Steady cr call book.core (armModeB cfg height book) := by
  subst hh
  unfold armModeB
  split
  · exact Steady.quiet book
  · exact Steady.move (Move.arm book.core book.timers.seq.allocate.1 _
      (by simp [MacroTimerBook.modeBDeadlineAction, Action.isMacroTraffic]))

theorem takeRole_steady (cfg : Config) (set : ValidatorSet) (beacon : Hash32)
    {height : Height} {cp : MacroCheckpoint} (book : MacroBook)
    (hc : book.candidate[height]? = some cp)
    (hfirst : ∀ schedule, vrfSortition cr beacon set height book.reputation = .ok schedule →
      schedule.primary = book.selfId → call.wellPaced cr = true → height ∉ book.proposalSeen) :
    Steady cr call book.core (takeRole cr cfg call.ctx set beacon height cp book) := by
  unfold takeRole
  split
  · exact Steady.fail book _
  · rename_i schedule hsched
    split
    · rename_i hprimary
      exact propose_steady beacon book hc (hfirst schedule hsched hprimary)
    · split
      · exact steady_ok _ (by simp [MacroTimerBook.backupProposeAction, Action.isMacroTraffic])
      · exact Steady.quiet book

/-- What the proposer schedule of the next height depends on. -/
structure SameLead (b b' : MacroBook) : Prop where
  selfId : b.selfId = b'.selfId
  nextHeight : b.nextHeight = b'.nextHeight
  reputation : b.reputation = b'.reputation

theorem SameLead.trans {a b c : MacroBook} (h : SameLead a b) (h' : SameLead b c) :
    SameLead a c :=
  ⟨h.selfId.trans h'.selfId, h.nextHeight.trans h'.nextHeight, h.reputation.trans h'.reputation⟩

/- Closing a window empties the ring and leaves the schedule alone. -/
theorem propose_rest (ctx : HostContext) (beacon : Hash32) (height : Height)
    (cp : MacroCheckpoint) (book : MacroBook) :
    (propose ctx beacon height cp book).state.microRing = book.microRing ∧
      SameLead (propose ctx beacon height cp book).state book := by
  unfold propose
  split <;> exact ⟨rfl, rfl, rfl, rfl⟩

theorem takeRole_rest (cr : Crypto) (cfg : Config) (ctx : HostContext) (set : ValidatorSet)
    (beacon : Hash32) (height : Height) (cp : MacroCheckpoint) (book : MacroBook) :
    (takeRole cr cfg ctx set beacon height cp book).state.microRing = book.microRing ∧
      SameLead (takeRole cr cfg ctx set beacon height cp book).state book := by
  unfold takeRole
  split
  · exact ⟨rfl, rfl, rfl, rfl⟩
  · split
    · exact propose_rest ctx beacon height cp book
    · split <;> exact ⟨rfl, rfl, rfl, rfl⟩

theorem armModeB_rest (cfg : Config) (height : Height) (book : MacroBook) :
    (armModeB cfg height book).state.microRing = book.microRing ∧
      SameLead (armModeB cfg height book).state book := by
  unfold armModeB
  split <;> exact ⟨rfl, rfl, rfl, rfl⟩

theorem closeWindow_rest (cr : Crypto) (cfg : Config) (ctx : HostContext) (set : ValidatorSet)
    (book : MacroBook) :
    (closeWindow cr cfg ctx set book).state.microRing = [] ∧
      SameLead (closeWindow cr cfg ctx set book).state book := by
  unfold closeWindow
  split
  · exact ⟨rfl, rfl, rfl, rfl⟩
  · rename_i beacon _
    let frozen := freezeBeacon book.nextHeight beacon (installCandidate cr book)
    obtain ⟨hring, hlead⟩ := takeRole_rest cr cfg ctx set beacon book.nextHeight
      (windowCandidate cr book) frozen
    have hfrozen : SameLead frozen book := ⟨rfl, rfl, rfl⟩
    cases hr : (takeRole cr cfg ctx set beacon book.nextHeight
        (windowCandidate cr book) frozen).result with
    | error e =>
      rw [Outcome.andThen_of_error hr]
      exact ⟨hring, hlead.trans hfrozen⟩
    | ok acts =>
      rw [Outcome.andThen_of_ok hr]
      obtain ⟨hring', hlead'⟩ := armModeB_rest cfg book.nextHeight
        (takeRole cr cfg ctx set beacon book.nextHeight (windowCandidate cr book) frozen).state
      exact ⟨hring'.trans hring, (hlead'.trans hlead).trans hfrozen⟩

/-- The schedule of a call is that of its start, and if the node leads it a well-paced
call has room for the windows that `k` more micro QCs close. -/
structure Room (cr : Crypto) (call : NodeCall) (w k : Nat) (book : MacroBook) : Prop where
  lead : SameLead book call.pre.macros
  left : call.wellPaced cr = true → leadsNext cr call = true →
    closings w book.microRing.length k +
      (if book.nextHeight ∈ book.proposalSeen then 1 else 0) ≤ 1

theorem closeWindow_steady (cfg : Config) {set : ValidatorSet} {book : MacroBook}
    (hset : activeSet call.ctx = .ok set) (hlead : SameLead book call.pre.macros)
    (hfirst : call.wellPaced cr = true → leadsNext cr call = true →
      book.nextHeight ∉ book.proposalSeen) :
    Steady cr call book.core (closeWindow cr cfg call.ctx set book) := by
  have hwin : Moves cr call book.core [] [] (installCandidate cr book).core :=
    Moves.single (Move.window book.core (microRootOfRing cr book.microRing))
  refine Steady.prepend hwin ?_
  unfold closeWindow
  split
  · exact Steady.fail _ _
  · rename_i beacon hbeacon
    refine Steady.andThen (takeRole_steady cfg set beacon
      (freezeBeacon book.nextHeight beacon (installCandidate cr book)) ?_ ?_) ?_
    · simp [freezeBeacon, installCandidate]
    · intro schedule hsched hprimary hpaced
      refine hfirst hpaced ?_
      have hsched' : vrfSortition cr beacon set book.nextHeight book.reputation = .ok schedule :=
        hsched
      have hprimary' : schedule.primary = book.selfId := hprimary
      rw [hlead.nextHeight, hlead.reputation] at hsched'
      rw [hlead.selfId] at hprimary'
      simp [leadsNext, hset, hbeacon, hsched', hprimary']
    · intro _ _
      have hrest := takeRole_rest cr cfg call.ctx set beacon book.nextHeight
        (windowCandidate cr book) (freezeBeacon book.nextHeight beacon (installCandidate cr book))
      exact armModeB_steady cfg _ hrest.2.nextHeight.symm

theorem pushMicroQc_steady (cfg : Config) {set : ValidatorSet} (h : Hash32) (k : Nat)
    {book : MacroBook} (hset : activeSet call.ctx = .ok set)
    (hroom : Room cr call cfg.macroFin.macroWindowW (k + 1) book) :
    Steady cr call book.core (pushMicroQc cr cfg call.ctx set h book) ∧
      Room cr call cfg.macroFin.macroWindowW k (pushMicroQc cr cfg call.ctx set h book).state := by
  let pushed : MacroBook := { book with microRing := book.microRing ++ [h] }
  have hpushed : SameLead pushed call.pre.macros :=
    ⟨hroom.lead.selfId, hroom.lead.nextHeight, hroom.lead.reputation⟩
  unfold pushMicroQc
  by_cases hlen : (book.microRing ++ [h]).length < cfg.macroFin.macroWindowW
  · have hlt : book.microRing.length + 1 < cfg.macroFin.macroWindowW := by simpa using hlen
    rw [if_pos hlen]
    refine ⟨Steady.quiet pushed, hpushed, ?_⟩
    intro hp hl
    have hr := hroom.left hp hl
    rw [closings, if_pos hlt, show book.microRing.length + 1 = (book.microRing ++ [h]).length
      by simp] at hr
    exact hr
  · have hge : ¬ book.microRing.length + 1 < cfg.macroFin.macroWindowW := by simpa using hlen
    rw [if_neg hlen]
    obtain ⟨hring, hlead⟩ := closeWindow_rest cr cfg call.ctx set pushed
    refine ⟨closeWindow_steady cfg hset hpushed ?_, hlead.trans hpushed, ?_⟩
    · intro hp hl hseen
      have hr := hroom.left hp hl
      rw [closings, if_neg hge, if_pos hseen] at hr
      omega
    · intro hp hl
      have hr := hroom.left hp hl
      rw [closings, if_neg hge] at hr
      rw [hring, List.length_nil]
      split <;> omega

theorem pushAll_steady (cfg : Config) {set : ValidatorSet} (hset : activeSet call.ctx = .ok set)
    (hashes : List Hash32) {c : MacroCore} (o : Result MacroBook) (ho : Steady cr call c o)
    (hroom : ∀ acts, o.result = .ok acts →
      Room cr call cfg.macroFin.macroWindowW hashes.length o.state) :
    Steady cr call c
      (hashes.foldl (fun o h => o.andThen (pushMicroQc cr cfg call.ctx set h)) o) := by
  induction hashes generalizing o with
  | nil => exact ho
  | cons h hs ih =>
    have hpush := fun acts hok => pushMicroQc_steady cfg h hs.length hset (hroom acts hok)
    refine ih (o.andThen (pushMicroQc cr cfg call.ctx set h))
      (ho.andThen fun acts hok => (hpush acts hok).1) ?_
    intro acts' hok'
    cases hr : o.result with
    | ok acts =>
      rw [Outcome.andThen_of_ok hr]
      exact (hpush acts hr).2
    | error e =>
      rw [Outcome.andThen_of_error hr, hr] at hok'
      cases hok'

theorem onLocalMicroQcs_steady (cfg : Config) {book : MacroBook} (acts : List Action)
    (hroom : Room cr call cfg.macroFin.macroWindowW (acts.filterMap microQcHash).length book) :
    Steady cr call book.core (onLocalMicroQcs cr cfg call.ctx acts book) := by
  unfold onLocalMicroQcs
  split
  · exact Steady.quiet book
  · split
    · exact Steady.fail book _
    · rename_i set hset
      exact pushAll_steady cfg hset _ _ (Steady.quiet book) fun _ _ => hroom

/- Votes. -/

theorem joinSubnet_steady (set : ValidatorSet) (assign : SubnetAssign) (hash : Hash32)
    (subnet : SubnetId) (v : ValidatorId) (book : MacroBook) :
    Steady cr call book.core (joinSubnet cr set assign hash subnet v book) := by
  let joined : MacroBook := { book with
    subnetPartials := book.subnetPartials.insert (toLex (hash, subnet))
      (insert v (book.subnetPartials[toLex (hash, subnet)]?.getD ∅)) }
  unfold joinSubnet
  dsimp only
  split
  · exact Steady.quiet joined
  · split
    · exact steady_ok joined (by simp [Action.isMacroTraffic])
    · exact Steady.quiet joined

theorem joinSubnet_rest (cr : Crypto) (set : ValidatorSet) (assign : SubnetAssign)
    (hash : Hash32) (subnet : SubnetId) (v : ValidatorId) (book : MacroBook) :
    (joinSubnet cr set assign hash subnet v book).state.candidate = book.candidate ∧
      (joinSubnet cr set assign hash subnet v book).state.core.spine = book.core.spine := by
  unfold joinSubnet
  dsimp only
  split
  · exact ⟨rfl, rfl⟩
  · split <;> exact ⟨rfl, rfl⟩

theorem tryLock_locks {l l' : LockMacro} {v : ValidatorId} {height : Height} {h : Hash32}
    (hlock : l.tryLock v height h = .ok l') : l'.locks[v]? = some (height, h) := by
  unfold LockMacro.tryLock at hlock
  split at hlock
  · split at hlock
    · cases hlock
    · cases hlock
      simp
  · cases hlock
    simp

theorem announcePartial_steady (mode : AggregationMode) (subnet : SubnetId)
    {height : Height} {cp : MacroCheckpoint} (book : MacroBook)
    (hc : book.candidate[height]? = some cp)
    (hlock : book.locks.locks[book.selfId]? = some (height, cp.hash)) :
    Steady cr call book.core (announcePartial call.ctx mode subnet cp book) :=
  Steady.move (Move.announce book.core height cp _ hc hlock)

theorem recordVote_path (p : MacroProposal) (old : MacroCheckpoint) (locks : LockMacro)
    (book : MacroBook) (hev : call.event = some (.macroProposalReceived p))
    (hacc : accepts cr call.pre.cfg call.ctx p call.pre.macros = true)
    (hpre : book.core.spine = call.pre.macros.core.spine)
    (hparent : p.checkpoint.parent = book.lastMacroHash)
    (hold : book.candidate[p.checkpoint.height]? = some old)
    (hroot : old.microRoot = p.checkpoint.microRoot) (hhash : old.hash = p.checkpoint.hash)
    (hlock : book.locks.tryLock book.selfId p.checkpoint.height p.checkpoint.hash = .ok locks) :
    Moves cr call book.core
      [(.macroVote, voteMessage
        ⟨p.checkpoint.height - 1, p.checkpoint.height, p.checkpoint.hash, ⟨0⟩⟩)]
      (selfEvidence (recordVote call.ctx locks p.checkpoint book).votes book.selfId)
      (recordVote call.ctx locks p.checkpoint book).core := by
  have hrec := Move.recordVote book.core p old locks hev hacc hpre hparent hold hroot hhash hlock
  have hadd := Moves.step (Moves.single hrec)
    (Move.addSigner _ p.checkpoint.hash book.selfId (Or.inl rfl))
  rw [List.append_nil, List.append_nil] at hadd
  exact hadd

theorem castVote_steady (cfg : Config) (set : ValidatorSet) (beacon : Hash32)
    (mode : AggregationMode) (p : MacroProposal) (locks : LockMacro) (book : MacroBook)
    {old : MacroCheckpoint} (hev : call.event = some (.macroProposalReceived p))
    (hacc : accepts cr call.pre.cfg call.ctx p call.pre.macros = true)
    (hpre : book.core.spine = call.pre.macros.core.spine)
    (hparent : p.checkpoint.parent = book.lastMacroHash)
    (hold : book.candidate[p.checkpoint.height]? = some old)
    (hroot : old.microRoot = p.checkpoint.microRoot) (hhash : old.hash = p.checkpoint.hash)
    (hlock : book.locks.tryLock book.selfId p.checkpoint.height p.checkpoint.hash = .ok locks) :
    Steady cr call book.core
      (castVote cr cfg call.ctx set beacon mode locks p.checkpoint book) := by
  have hpath := recordVote_path p old locks book hev hacc hpre hparent hold hroot hhash hlock
  have hvoted : (recordVote call.ctx locks p.checkpoint book).candidate[p.checkpoint.height]? =
      some p.checkpoint := by
    simp [recordVote, addSigner]
  have hlocked := tryLock_locks hlock
  unfold castVote
  split
  · refine ⟨_, hpath, ?_⟩
    intro as has
    cases has
  · refine Steady.andThen (Steady.andThen (Steady.andThen ?_ ?_) ?_) ?_
    · refine ⟨_, hpath, ?_⟩
      intro as has
      cases has
      rfl
    · intro _ _
      exact announcePartial_steady mode _ _ hvoted hlocked
    · intro _ _
      exact steady_ok _ (by simp [Action.isMacroTraffic])
    · intro _ _
      split
      · exact joinSubnet_steady set _ _ _ _ _
      · exact Steady.quiet _

theorem considerProposal_steady (cfg : Config) (set : ValidatorSet) (beacon : Hash32)
    (p : MacroProposal) (book : MacroBook)
    (hev : call.event = some (.macroProposalReceived p))
    (hpre : book.core.spine = call.pre.macros.core.spine)
    (hacc : ∀ schedule mode locks,
      vrfSortition cr beacon set p.checkpoint.height book.reputation = .ok schedule →
      activeMode book cfg set p.checkpoint.height = .ok mode →
      maySpeak mode schedule p.proposer = true →
      p.checkpoint.parent = book.lastMacroHash → matchesCandidate book p.checkpoint = true →
      book.locks.tryLock book.selfId p.checkpoint.height p.checkpoint.hash = .ok locks →
      accepts cr call.pre.cfg call.ctx p call.pre.macros = true) :
    Steady cr call book.core (considerProposal cr cfg call.ctx set beacon p book) := by
  unfold considerProposal
  dsimp only
  split
  · exact Steady.fail book _
  rename_i schedule hsched
  split
  · exact Steady.fail book _
  rename_i mode hmode
  split
  · exact Steady.quiet book
  rename_i hspeak
  split
  · exact Steady.quiet book
  rename_i hparent
  split
  · exact Steady.quiet book
  rename_i hmatch
  split
  · exact Steady.quiet { book with suppressedConflicts := book.suppressedConflicts + 1 }
  rename_i locks hlock
  simp only [Bool.not_eq_true, Bool.not_eq_false', Decidable.not_not] at hspeak hparent hmatch
  have hok := hacc schedule mode locks hsched hmode hspeak hparent hmatch hlock
  unfold matchesCandidate at hmatch
  cases hold : book.candidate[p.checkpoint.height]? with
  | none => simp [hold] at hmatch
  | some old =>
    simp only [hold, Option.any_some, decide_eq_true_eq] at hmatch
    exact castVote_steady cfg set beacon mode p locks book hev hok hpre hparent hold
      hmatch.1 hmatch.2 hlock

/-- A proposal that passes every check of the handler. -/
theorem accepts_of_checks {cfg : Config} {ctx : HostContext} {set : ValidatorSet} {beacon : Hash32}
    {p : MacroProposal} {book : MacroBook} {schedule : ProposerSchedule} {mode : AggregationMode}
    {locks : LockMacro} (hset : activeSet ctx = .ok set)
    (hbeacon : beaconForHeight book ctx p.checkpoint.height = .ok beacon)
    (hverify : verifyProposal cr set p (vrfAlpha beacon p.checkpoint.height p.proposer) = true)
    (hseen : book.proposalsSeen[toLex (p.checkpoint.height, p.proposer)]?.getD [] = [])
    (hsched : vrfSortition cr beacon set p.checkpoint.height book.reputation = .ok schedule)
    (hmode : activeMode book cfg set p.checkpoint.height = .ok mode)
    (hspeak : maySpeak mode schedule p.proposer = true)
    (hparent : p.checkpoint.parent = book.lastMacroHash)
    (hmatch : matchesCandidate book p.checkpoint = true)
    (hlock : book.locks.tryLock book.selfId p.checkpoint.height p.checkpoint.hash = .ok locks) :
    accepts cr cfg ctx p book = true := by
  unfold accepts
  rw [hset, hbeacon]
  dsimp only
  rw [hsched, hmode]
  simp [hverify, hseen, hspeak, hparent, hmatch, hlock, Except.isOk, Except.toBool]

theorem onMacroProposal_steady (p : MacroProposal)
    (hev : call.event = some (.macroProposalReceived p)) :
    Steady cr call call.pre.macros.core
      (onMacroProposal cr call.pre.cfg call.ctx p call.pre.macros) := by
  unfold onMacroProposal
  dsimp only
  split
  · exact Steady.fail _ _
  rename_i set hset
  split
  · exact Steady.fail _ _
  rename_i beacon hbeacon
  split
  · exact Steady.quiet { freezeBeacon p.checkpoint.height beacon call.pre.macros with
      rejectedCrypto := call.pre.macros.rejectedCrypto + 1 }
  rename_i hverify
  simp only [Bool.not_eq_true, Bool.not_eq_false'] at hverify
  let book := freezeBeacon p.checkpoint.height beacon call.pre.macros
  split
  · rename_i first rest hseen
    split
    · rename_i hany
      obtain ⟨q, hq, hne⟩ := List.any_eq_true.mp hany
      refine Steady.move (Move.accuse book.core p q _ hev ?_ (by simpa using hne))
      exact hseen ▸ hq
    · exact Steady.quiet book
  · rename_i hseen
    have hsee : Moves cr call call.pre.macros.core [] []
        { call.pre.macros.core with
          proposalsSeen := call.pre.macros.proposalsSeen.insert
            (toLex (p.checkpoint.height, p.proposer)) [p] } :=
      Moves.single (Move.see call.pre.macros.core p hev)
    refine Steady.prepend hsee (considerProposal_steady _ set beacon p
      { book with
        proposalsSeen := book.proposalsSeen.insert
          (toLex (p.checkpoint.height, p.proposer)) [p] } hev rfl ?_)
    intro schedule mode locks hsched hmode hspeak hparent hmatch hlock
    exact accepts_of_checks hset hbeacon hverify hseen hsched hmode hspeak hparent hmatch hlock

/- Adoption. -/

theorem noteInactivityLeak_spec (cfg : Config) (fin : Bool) (book : MacroBook) :
    ∃ b leak, noteInactivityLeakOnAdoption cfg fin book = .ok b leak ∧ b.core = book.core ∧
      ∀ a ∈ leak, a.isMacroTraffic = true := by
  unfold noteInactivityLeakOnAdoption
  split
  · exact ⟨_, [], rfl, rfl, by simp⟩
  · dsimp only
    split
    · exact ⟨_, _, rfl, rfl, by simp [Action.isMacroTraffic]⟩
    · exact ⟨_, [], rfl, rfl, by simp⟩

theorem settleFinality_spec (cfg : Config) (book : MacroBook) :
    ∃ b leak, (∀ a ∈ leak, a.isMacroTraffic = true) ∧
      b.core = { book.core with twoChain := book.twoChain.settle } ∧
      settleFinality cfg book = .ok b (leak ++ book.core.finalizedActions book.twoChain) := by
  obtain ⟨b, leak, heq, hcore, hleak⟩ :=
    noteInactivityLeak_spec cfg book.twoChain.newlyFinalizedHeight.isSome book
  have htwo : b.twoChain = book.twoChain := congrArg MacroCore.twoChain hcore
  have hcand : book.candidate = b.candidate := (congrArg MacroCore.candidate hcore).symm
  unfold settleFinality MacroCore.finalizedActions TwoChainRule.settle
  rw [heq, Outcome.andThen_of_ok (Outcome.ok_result b leak)]
  simp only [Outcome.ok_state, Outcome.ok_signed, htwo]
  cases hfin : book.twoChain.newlyFinalizedHeight with
  | none =>
    refine ⟨b, leak, hleak, hcore, ?_⟩
    simp [Outcome.quiet, Outcome.ok, Except.map]
  | some prev =>
    refine ⟨{ b with twoChain := book.twoChain.markFinalized prev }, leak, hleak, ?_, ?_⟩
    · rw [← hcore]
      rfl
    · simp [Outcome.ok, Except.map, MacroBook.core, hcand]

theorem adoption_handled (cfg : Config) {set : ValidatorSet} {height : Height}
    {cand : MacroCheckpoint} {qc : MacroQc} (own : Bool) (signers : Finset ValidatorId)
    (book : MacroBook) (hset : activeSet call.ctx = .ok set)
    (hpre : book.core.spine = call.pre.macros.core.spine)
    (hnew : cand.hash ∉ book.emittedMacroQc) (hc : book.candidate[height]? = some cand)
    (hnames : call.names = some cand.hash) (hqc : qc.checkpointHash = cand.hash)
    (hback : Backing cr call set book.core cand qc own) :
    Handled cr call book.core
      ((Outcome.ok (adoptCheckpoint height cand qc signers book)
        ((if own then [.broadcastMacroQc qc] else []) ++ adoptionActions cand qc)).andThen
          (settleFinality cfg)) := by
  obtain ⟨b, leak, hleak, hcore, heq⟩ :=
    settleFinality_spec cfg (adoptCheckpoint height cand qc signers book)
  have hadopt := Adopt.mk book.core set height cand qc own leak hset hpre hnew hc hnames hback hleak
  have hb : b.core = book.core.adopted height cand := by
    rw [hcore]
    simp only [adoptCheckpoint, bumpReputation, MacroBook.core, MacroCore.adopted, hqc]
    rfl
  rw [← hb] at hadopt
  rw [Outcome.andThen_of_ok (Outcome.ok_result _ _), Outcome.ok_state, heq]
  refine Or.inr ⟨[], book.core, _, Moves.refl _, hadopt, ?_⟩
  simp only [Outcome.ok_result, Except.map, List.nil_append, List.append_assoc]
  rfl

theorem findCandidate_spec {book : MacroBook} {h : Hash32} {height : Height}
    {cp : MacroCheckpoint} (hf : book.findCandidate h = some (height, cp)) :
    book.candidate[height]? = some cp ∧ cp.hash = h := by
  have hs := Maps.find_spec book.candidate _ height cp hf
  exact ⟨hs.1, by simpa using hs.2⟩

theorem tryFinalizeMode0_hash {set : ValidatorSet} {sigs : PartialSigs} {h : Hash32}
    {signers : Finset ValidatorId} {qc : MacroQc}
    (hqc : tryFinalizeMode0 cr set sigs h signers = some qc) : qc.checkpointHash = h := by
  unfold tryFinalizeMode0 at hqc
  dsimp only at hqc
  split at hqc
  · cases hqc
  · split at hqc
    · cases hqc
    · obtain ⟨agg, -, rfl⟩ := Option.map_eq_some_iff.mp hqc
      rfl

theorem tryFinalizeModeA_hash {set : ValidatorSet} {sigs : PartialSigs} {h : Hash32}
    {aggs : List SubnetAggregate} {qc : MacroQc}
    (hqc : tryFinalizeModeA cr set sigs h aggs = some qc) : qc.checkpointHash = h := by
  unfold tryFinalizeModeA at hqc
  dsimp only at hqc
  split at hqc
  · cases hqc
  · split at hqc
    · cases hqc
    · split at hqc
      · cases hqc
      · obtain ⟨agg, -, rfl⟩ := Option.map_eq_some_iff.mp hqc
        rfl

theorem verifyMacroQc_hash {set : ValidatorSet} {qc : MacroQc} {cp : MacroCheckpoint}
    (h : verifyMacroQc cr set qc cp = true) : qc.checkpointHash = cp.hash := by
  unfold verifyMacroQc at h
  split at h
  · cases h
  · rename_i hne
    exact Decidable.not_not.mp hne

theorem tryEmitModeAQc_handled (cfg : Config) {height : Height} {cand : MacroCheckpoint}
    (book : MacroBook) (hc : book.candidate[height]? = some cand)
    (hpre : book.core.spine = call.pre.macros.core.spine)
    (hnames : call.names = some cand.hash) :
    Handled cr call book.core (tryEmitModeAQc cr cfg call.ctx cand.hash height book) := by
  unfold tryEmitModeAQc
  split
  · exact Or.inl (Steady.fail book _)
  rename_i set hset
  split
  · exact Or.inl (Steady.quiet book)
  split
  · exact Or.inl (Steady.fail book _)
  split
  · exact Or.inl (Steady.fail book _)
  split
  · exact Or.inl (Steady.quiet book)
  dsimp only
  split
  · exact Or.inl (Steady.quiet book)
  rename_i qc hqc
  split
  · exact Or.inl (Steady.quiet book)
  rename_i hnew
  rw [hc]
  exact adoption_handled cfg true _ book hset hpre hnew hc hnames (tryFinalizeModeA_hash hqc)
    (Backing.subnet qc hqc)

theorem collectSubnet_handled (cfg : Config) (set : ValidatorSet) (beacon : Hash32)
    (assign : SubnetAssign) {height : Height} {cand : MacroCheckpoint} (bp : BlsPartial)
    (book : MacroBook) (hc : book.candidate[height]? = some cand)
    (hpre : book.core.spine = call.pre.macros.core.spine)
    (hbp : bp.checkpointHash = cand.hash) (hnames : call.names = some cand.hash)
    (hstored : (book.partialSigs[toLex (cand.hash, bp.validator)]?).isSome = true) :
    Handled cr call book.core (collectSubnet cr cfg call.ctx set beacon assign height bp book) := by
  have hadd : Moves cr call book.core [] [] (addSigner bp.checkpointHash bp.validator book).core :=
    Moves.single (Move.addSigner book.core bp.checkpointHash bp.validator
      (Or.inr (hbp ▸ hstored)))
  refine Handled.prepend hadd ?_
  unfold collectSubnet
  refine steady_andThen_handled (joinSubnet_steady set assign _ _ _ _) ?_
  intro _ _
  have hjoin := joinSubnet_rest cr set assign bp.checkpointHash bp.subnet bp.validator
    (addSigner bp.checkpointHash bp.validator book)
  split
  · exact Or.inl (Steady.fail _ _)
  split
  · rw [hbp]
    rw [hbp] at hjoin
    exact tryEmitModeAQc_handled cfg _ (by rw [hjoin.1]; exact hc) (hjoin.2.trans hpre) hnames
  · exact Or.inl (Steady.quiet _)

theorem collectFlat_handled (cfg : Config) {set : ValidatorSet} (mode : AggregationMode)
    {height : Height} {cand : MacroCheckpoint} (bp : BlsPartial) (book : MacroBook)
    (hset : activeSet call.ctx = .ok set) (hc : book.candidate[height]? = some cand)
    (hpre : book.core.spine = call.pre.macros.core.spine)
    (hnew : cand.hash ∉ book.emittedMacroQc)
    (hbp : bp.checkpointHash = cand.hash) (hnames : call.names = some cand.hash)
    (hstored : (book.partialSigs[toLex (cand.hash, bp.validator)]?).isSome = true) :
    Handled cr call book.core (collectFlat cr cfg set mode height cand bp book) := by
  have hadd : Moves cr call book.core [] [] (addSigner cand.hash bp.validator book).core :=
    Moves.single (Move.addSigner book.core cand.hash bp.validator (Or.inr hstored))
  unfold collectFlat
  rw [hbp]
  split
  · exact Or.inl (Steady.quiet book)
  refine Handled.prepend hadd ?_
  dsimp only
  split
  · exact Or.inl (Steady.quiet _)
  split
  · exact Or.inl (Steady.quiet _)
  rename_i qc hqc
  have hback : qc.checkpointHash = cand.hash ∧
      Backing cr call set (addSigner cand.hash bp.validator book).core cand qc true := by
    split at hqc
    · unfold tryFinalizeModeB at hqc
      obtain ⟨qc0, hqc0, rfl⟩ := Option.map_eq_some_iff.mp hqc
      have hh := tryFinalizeMode0_hash hqc0
      exact ⟨hh, Backing.flat qc0 .modeBLeaderless hqc0⟩
    · exact ⟨tryFinalizeMode0_hash hqc, Backing.flat qc qc.mode hqc⟩
  exact adoption_handled cfg true _ (addSigner cand.hash bp.validator book) hset hpre hnew hc hnames
    hback.1 hback.2

theorem onBlsPartial_handled (cfg : Config) (bp : BlsPartial) (book : MacroBook)
    (hev : call.event = some (.blsPartialReceived bp))
    (hpre : book.core.spine = call.pre.macros.core.spine) :
    Handled cr call book.core (onBlsPartial cr cfg call.ctx bp book) := by
  have hnames : call.names = some bp.checkpointHash := by simp [NodeCall.names, hev]
  unfold onBlsPartial
  split
  · exact Or.inl (Steady.quiet book)
  rename_i height cand hfind
  obtain ⟨hc, hhash⟩ := findCandidate_spec hfind
  split
  · exact Or.inl (Steady.fail book _)
  rename_i set hset
  split
  · exact Or.inl (Steady.quiet { book with rejectedCrypto := book.rejectedCrypto + 1 })
  rename_i hverify
  simp only [Bool.not_eq_true, Bool.not_eq_false'] at hverify
  rw [← hhash]
  rw [← hhash] at hnames
  let stored : MacroBook := { book with
    partialSigs := book.partialSigs.insert (toLex (cand.hash, bp.validator)) bp.sig }
  have hstore : Moves cr call book.core [] [] stored.core :=
    Moves.single (Move.storePartial book.core set height cand bp hset hc hverify)
  have hget : (stored.partialSigs[toLex (cand.hash, bp.validator)]?).isSome = true := by
    simp [stored]
  refine Handled.prepend hstore ?_
  dsimp only
  split
  · exact Or.inl (Steady.quiet stored)
  rename_i hnew
  split
  · exact Or.inl (Steady.fail stored _)
  rename_i mode _
  split
  · exact Or.inl (Steady.fail stored _)
  split
  · exact Or.inl (Steady.fail stored _)
  split
  · exact collectSubnet_handled cfg set _ _ bp stored hc hpre hhash.symm hnames hget
  · exact collectFlat_handled cfg mode bp stored hset hc hpre hnew hhash.symm hnames hget

theorem onMacroQcReceived_handled (cfg : Config) (qc : MacroQc) (book : MacroBook)
    (hev : call.event = some (.macroQcReceived qc))
    (hpre : book.core.spine = call.pre.macros.core.spine) :
    Handled cr call book.core (onMacroQcReceived cr cfg call.ctx qc book) := by
  have hnames : call.names = some qc.checkpointHash := by simp [NodeCall.names, hev]
  unfold onMacroQcReceived
  split
  · exact Or.inl (Steady.quiet book)
  rename_i hnew
  split
  · exact Or.inl (Steady.fail book _)
  rename_i set hset
  split
  · exact Or.inl (Steady.quiet book)
  rename_i height cand hfind
  obtain ⟨hc, hhash⟩ := findCandidate_spec hfind
  split
  · exact Or.inl (Steady.quiet { book with rejectedCrypto := book.rejectedCrypto + 1 })
  rename_i hverify
  simp only [Bool.not_eq_true, Bool.not_eq_false'] at hverify
  exact adoption_handled cfg false _ book hset hpre (hhash ▸ hnew) hc (hhash ▸ hnames) hhash.symm
    (Backing.received qc hev hverify)

theorem onSubnetAggregate_handled (cfg : Config) (agg : SubnetAggregate) (book : MacroBook)
    (hev : call.event = some (.subnetAggregateReceived agg))
    (hpre : book.core.spine = call.pre.macros.core.spine) :
    Handled cr call book.core (onSubnetAggregate cr cfg call.ctx agg book) := by
  have hnames : call.names = some agg.checkpointHash := by simp [NodeCall.names, hev]
  unfold onSubnetAggregate
  split
  · exact Or.inl (Steady.quiet book)
  rename_i height cand hfind
  obtain ⟨hc, hhash⟩ := findCandidate_spec hfind
  split
  · exact Or.inl (Steady.fail book _)
  rename_i set hset
  split
  · exact Or.inl (Steady.quiet { book with rejectedCrypto := book.rejectedCrypto + 1 })
  rename_i hverify
  simp only [Bool.not_eq_true, Bool.not_eq_false'] at hverify
  rw [← hhash]
  rw [← hhash] at hnames
  let stored : MacroBook := { book with
    subnetAggs := book.subnetAggs.insert cand.hash
      ((book.subnetAggs[cand.hash]?.getD ∅).insert agg.subnet agg) }
  have hstore : Moves cr call book.core [] [] stored.core :=
    Moves.single (Move.storeAggregate book.core set height cand agg hset hc hhash.symm hverify)
  exact Handled.prepend hstore (tryEmitModeAQc_handled cfg stored hc hpre hnames)

/- Timers. -/

theorem onBackupTimer_steady (height : Height) (book : MacroBook) :
    Steady cr call book.core (onBackupTimer cr call.ctx height book) := by
  let cleared : MacroBook := { book with timers := book.timers.clearBackup height }
  unfold onBackupTimer
  dsimp only
  split
  · exact Steady.quiet cleared
  rename_i hunseen
  split
  · exact Steady.quiet cleared
  rename_i cand hc
  split
  · exact Steady.fail cleared _
  split
  · exact Steady.fail cleared _
  split
  · exact Steady.fail cleared _
  split
  · exact propose_steady _ cleared hc fun _ => hunseen
  · exact Steady.quiet cleared

theorem castModeBVote_steady (cfg : Config) {height : Height} {cp : MacroCheckpoint}
    (book : MacroBook) (hc : book.candidate[height]? = some cp)
    (hlock : book.locks.locks[book.selfId]? = some (height, cp.hash)) :
    Steady cr call book.core (castModeBVote cr cfg call.ctx height cp book) := by
  have hadd : Moves cr call book.core [] [] (addSigner cp.hash book.selfId book).core :=
    Moves.single (Move.addSigner book.core cp.hash book.selfId (Or.inl rfl))
  unfold castModeBVote
  split
  · exact Steady.fail book _
  split
  · exact Steady.fail book _
  split
  · exact Steady.fail book _
  split
  · exact Steady.fail book _
  exact Steady.prepend hadd (announcePartial_steady _ _ (addSigner cp.hash book.selfId book)
    hc hlock)

theorem onModeBTimer_steady (cfg : Config) {height : Height} {id : TimerId} (book : MacroBook)
    (hdue : book.timers.modeBByHeight[height]? = some id) :
    Steady cr call book.core (onModeBTimer cr cfg call.ctx height book) := by
  let cleared : MacroBook := { book with timers := book.timers.clearModeB height }
  unfold onModeBTimer
  dsimp only
  generalize hb : (if book.candidate[height]?.any
      (fun c => decide (c.hash ∈ book.emittedMacroQc)) = true then cleared
    else { cleared with modeBActive := insert height book.modeBActive }) = armed
  have hcore : armed.core = cleared.core := by
    rw [← hb]
    split <;> rfl
  have hquiet : Steady cr call book.core (.quiet armed) := by
    refine Steady.prepend (Moves.single (Move.disarm book.core height)) ?_
    have hq : Steady cr call armed.core (.quiet armed) := Steady.quiet armed
    rw [hcore] at hq
    exact hq
  split
  · exact hquiet
  split
  · exact hquiet
  rename_i cp hc
  split
  · exact hquiet
  rename_i locks hlock
  rw [show armed.candidate = book.candidate from congrArg MacroCore.candidate hcore] at hc
  rw [show armed.locks = book.locks from congrArg MacroCore.locks hcore,
    show armed.selfId = book.selfId from congrArg MacroCore.selfId hcore] at hlock
  have htake : Moves cr call book.core [] [] ({ armed with locks := locks } : MacroBook).core := by
    have hmove := Moves.single (@Move.lock cr call book.core height cp locks id hdue hc hlock)
    have hsame : ({ armed with locks := locks } : MacroBook).core =
        { cleared.core with locks := locks } := by
      rw [← hcore]
      rfl
    rw [hsame]
    exact hmove
  refine Steady.prepend htake (castModeBVote_steady cfg { armed with locks := locks } ?_ ?_)
  · rw [← hc]
    exact congrArg (·[height]?) (congrArg MacroCore.candidate hcore)
  · have hself : armed.selfId = book.selfId := congrArg MacroCore.selfId hcore
    rw [hself]
    exact tryLock_locks hlock

theorem onTimerFired_steady (cfg : Config) (id : TimerId) (book : MacroBook) :
    Steady cr call book.core (MacroFin.onTimerFired cr cfg call.ctx id book) := by
  unfold MacroFin.onTimerFired
  split
  · exact onBackupTimer_steady _ book
  split
  · rename_i height hheight
    unfold MacroTimerBook.heightForModeBTimer at hheight
    obtain ⟨e, he, rfl⟩ := Option.map_eq_some_iff.mp hheight
    exact onModeBTimer_steady cfg book (Maps.find_spec _ _ e.1 e.2 he).1
  · exact Steady.quiet book

end Refine
end LuaDag
