import LuaDag.MacroWindow
import LuaDag.MacroLock

/-! What the handlers of L3 do to the candidates and to the reputation: windows and votes
replace a candidate, adoptions credit the signers on record, and nothing else touches either. -/
namespace LuaDag

def NoVote (o : Result MacroBook) : Prop := ∀ r ∈ o.signed, r.1 ≠ .macroCheckpoint

def VotesBacked (o : Result MacroBook) : Prop :=
  ∀ cp, VotedFor o.signed cp → ∃ h : Height, o.state.candidate[h]? = some cp

/-- The handler leaves candidates, reputation and record alone and adopts nothing. -/
structure Spares (b : MacroBook) (o : Result MacroBook) : Prop where
  candidate : o.state.candidate = b.candidate
  reputation : o.state.reputation = b.reputation
  partials : o.state.partials = b.partials
  quiet : persistedQcs o.actions = []
  backed : VotesBacked o

/-- The handler adopts one QC and credits `signers`. -/
structure Credits (signers : Finset ValidatorId) (b : MacroBook) (o : Result MacroBook) :
    Prop where
  candidate : o.state.candidate = b.candidate
  reputation : o.state.reputation = (MacroFin.bumpReputation signers b).reputation
  partials : o.state.partials = b.partials
  adopts : ∃ acts qc, o.result = .ok acts ∧ persistedQcs acts = [qc]
  backed : VotesBacked o

theorem NoVote.backed {o : Result MacroBook} (h : NoVote o) : VotesBacked o :=
  fun _ hcp => absurd rfl (h _ hcp)

theorem NoVote.andThen {o : Result MacroBook} {k : MacroBook → Result MacroBook} (h : NoVote o)
    (hk : ∀ acts, o.result = .ok acts → NoVote (k o.state)) : NoVote (o.andThen k) := by
  cases hr : o.result with
  | error e => rwa [Outcome.andThen_of_error hr]
  | ok acts =>
    rw [Outcome.andThen_of_ok hr]
    intro r hmem
    cases List.mem_append.mp hmem with
    | inl hl => exact h r hl
    | inr hr' => exact hk acts hr r hr'

theorem VotesBacked.andThen {o : Result MacroBook} {k : MacroBook → Result MacroBook}
    (h : VotesBacked o) (hk : ∀ acts, o.result = .ok acts →
      VotesBacked (k o.state) ∧ (k o.state).state.candidate = o.state.candidate) :
    VotesBacked (o.andThen k) := by
  cases hr : o.result with
  | error e => rwa [Outcome.andThen_of_error hr]
  | ok acts =>
    obtain ⟨hnext, hcand⟩ := hk acts hr
    rw [Outcome.andThen_of_ok hr]
    intro cp hcp
    cases List.mem_append.mp hcp with
    | inl hl =>
      obtain ⟨height, hheight⟩ := h cp hl
      exact ⟨height, hcand ▸ hheight⟩
    | inr hr => exact hnext cp hr

theorem Spares.plain {b : MacroBook} {o : Result MacroBook}
    (hcand : o.state.candidate = b.candidate) (hrep : o.state.reputation = b.reputation)
    (hpart : o.state.partials = b.partials) (hquiet : persistedQcs o.actions = [])
    (hsigned : o.signed = []) : Spares b o :=
  ⟨hcand, hrep, hpart, hquiet, NoVote.backed (by simp [NoVote, hsigned])⟩

theorem Spares.quiet' (b : MacroBook) : Spares b (.quiet b) := .plain rfl rfl rfl rfl rfl

theorem Spares.fail (b : MacroBook) (e : Error) : Spares b (.fail b e) := .plain rfl rfl rfl rfl rfl

theorem Spares.from {b b' : MacroBook} {o : Result MacroBook} (h : Spares b o)
    (hcand : b.candidate = b'.candidate) (hrep : b.reputation = b'.reputation)
    (hpart : b.partials = b'.partials) : Spares b' o :=
  ⟨h.candidate.trans hcand, h.reputation.trans hrep, h.partials.trans hpart, h.quiet, h.backed⟩

theorem Credits.from {signers : Finset ValidatorId} {b b' : MacroBook} {o : Result MacroBook}
    (h : Credits signers b o) (hcand : b.candidate = b'.candidate)
    (hrep : b.reputation = b'.reputation) (hpart : b.partials = b'.partials) :
    Credits signers b' o := by
  refine ⟨h.candidate.trans hcand, ?_, h.partials.trans hpart, h.adopts, h.backed⟩
  rw [h.reputation]
  simp only [MacroFin.bumpReputation, hrep]

theorem Spares.andThen {b : MacroBook} {o : Result MacroBook} {k : MacroBook → Result MacroBook}
    (h : Spares b o) (hk : ∀ acts, o.result = .ok acts → Spares o.state (k o.state)) :
    Spares b (o.andThen k) := by
  have hbacked := h.backed.andThen fun acts hr => ⟨(hk acts hr).backed, (hk acts hr).candidate⟩
  cases hr : o.result with
  | error e => rwa [Outcome.andThen_of_error hr]
  | ok acts =>
    have hnext := hk acts hr
    rw [Outcome.andThen_of_ok hr] at hbacked ⊢
    refine ⟨hnext.candidate.trans h.candidate, hnext.reputation.trans h.reputation,
      hnext.partials.trans h.partials, ?_, hbacked⟩
    have hfirst : persistedQcs acts = [] := by
      have hq := h.quiet
      simpa [Outcome.actions, hr] using hq
    cases hr' : (k o.state).result with
    | error e => rfl
    | ok acts' =>
      have hq := hnext.quiet
      simp only [Outcome.actions, hr'] at hq
      simp only [Outcome.actions, Except.map]
      rw [persistedQcs_append, hfirst, hq]
      rfl

theorem Spares.andThen_or {signers : Finset ValidatorId} {b : MacroBook} {o : Result MacroBook}
    {k : MacroBook → Result MacroBook} (h : Spares b o)
    (hk : ∀ acts, o.result = .ok acts →
      Spares o.state (k o.state) ∨ Credits signers o.state (k o.state)) :
    Spares b (o.andThen k) ∨ Credits signers b (o.andThen k) := by
  cases hr : o.result with
  | error e =>
    rw [Outcome.andThen_of_error hr]
    exact Or.inl h
  | ok acts =>
    cases hk acts hr with
    | inl hspares => exact Or.inl (h.andThen fun _ _ => hspares)
    | inr hcredits =>
      refine Or.inr ?_
      have hbacked := h.backed.andThen fun _ _ => ⟨hcredits.backed, hcredits.candidate⟩
      rw [Outcome.andThen_of_ok hr] at hbacked ⊢
      obtain ⟨acts', qc, hacts, hqc⟩ := hcredits.adopts
      have hnext := hcredits.from h.candidate h.reputation h.partials
      have hq := h.quiet
      simp only [Outcome.actions, hr] at hq
      refine ⟨hnext.candidate, hnext.reputation, hnext.partials, ⟨acts ++ acts', qc, ?_, ?_⟩,
        hbacked⟩
      · simp only [hacts, Except.map]
      · rw [persistedQcs_append, hq, hqc]
        rfl

theorem effect_keeps {signers : Finset ValidatorId} {b : MacroBook} {o : Result MacroBook}
    (h : Spares b o ∨ Credits signers b o) :
    o.state.candidate = b.candidate ∧ o.state.partials = b.partials ∧ VotesBacked o := by
  cases h with
  | inl hspares => exact ⟨hspares.candidate, hspares.partials, hspares.backed⟩
  | inr hcredits => exact ⟨hcredits.candidate, hcredits.partials, hcredits.backed⟩

def MacroBook.noting (book : MacroBook) : Option (Hash32 × ValidatorId) → MacroBook
  | none => book
  | some (h, v) => MacroFin.addSigner h v book

def MacroBook.seeing (book : MacroBook) (p : MacroProposal) (beacon : Hash32) : MacroBook :=
  { MacroFin.freezeBeacon p.checkpoint.height beacon book with
    proposalsSeen := book.proposalsSeen.insert (toLex (p.checkpoint.height, p.proposer)) [p] }

theorem MacroBook.noting_candidate (book : MacroBook) (new : Option (Hash32 × ValidatorId)) :
    (book.noting new).candidate = book.candidate := by
  cases new <;> rfl

theorem MacroBook.noting_reputation (book : MacroBook) (new : Option (Hash32 × ValidatorId)) :
    (book.noting new).reputation = book.reputation := by
  cases new <;> rfl

theorem MacroBook.signersOf_noting (book : MacroBook) (new : Option (Hash32 × ValidatorId))
    (h : Hash32) (v : ValidatorId) :
    v ∈ (book.noting new).signersOf h ↔ v ∈ book.signersOf h ∨ new = some (h, v) := by
  cases new with
  | none => simp [noting]
  | some hv =>
    obtain ⟨h', v'⟩ := hv
    simp only [noting, MacroFin.addSigner, signersOf, Maps.get_insert, Option.some.injEq,
      Prod.mk.injEq]
    by_cases heq : h' = h
    · subst heq
      simp [eq_comm, or_comm]
    · simp [heq]

namespace MacroFin

def countsPartial (cr : Crypto) (cfg : Config) (ctx : HostContext) (bp : BlsPartial)
    (book : MacroBook) : Bool :=
  match book.findCandidate bp.checkpointHash, activeSet ctx with
  | some (height, cp), .ok set =>
    match activeMode book cfg set height, beaconForHeight book ctx height with
    | .ok mode, .ok beacon =>
      verifyPartial cr set bp cp && decide (bp.checkpointHash ∉ book.emittedMacroQc) &&
        (subnetAssign cfg set beacon).isOk && !decide (mode = .mode0Flat ∧ bp.subnet ≠ 0)
    | _, _ => false
  | _, _ => false

def notedPartial (cr : Crypto) (cfg : Config) (ctx : HostContext) (bp : BlsPartial)
    (book : MacroBook) : Option (Hash32 × ValidatorId) :=
  if countsPartial cr cfg ctx bp book then some (bp.checkpointHash, bp.validator) else none

def canAnnounce (cfg : Config) (ctx : HostContext) (height : Height) (book : MacroBook) : Bool :=
  match activeSet ctx, beaconForHeight book ctx height with
  | .ok set, .ok beacon => (subnetAssign cfg set beacon).isOk
  | _, _ => false

def notedModeB (cfg : Config) (ctx : HostContext) (height : Height) (book : MacroBook) :
    Option (Hash32 × ValidatorId) :=
  match book.candidate[height]? with
  | none => none
  | some cp =>
    if (cp.hash ∉ book.emittedMacroQc ∨ height ∈ book.modeBActive) ∧
        (book.locks.tryLock book.selfId height cp.hash).isOk ∧
        canAnnounce cfg ctx height book then
      some (cp.hash, book.selfId)
    else none

def notedTimer (cfg : Config) (ctx : HostContext) (id : TimerId) (book : MacroBook) :
    Option (Hash32 × ValidatorId) :=
  match book.timers.heightForBackupTimer id with
  | some _ => none
  | none => (book.timers.heightForModeBTimer id).bind fun height => notedModeB cfg ctx height book

section Handlers
variable (cr : Crypto) (cfg : Config) (ctx : HostContext)

theorem propose_spares (beacon : Hash32) (height : Height) (cand : MacroCheckpoint)
    (book : MacroBook) : Spares book (propose ctx beacon height cand book) := by
  unfold propose
  split
  · exact Spares.fail book _
  · exact ⟨rfl, rfl, rfl, rfl, NoVote.backed (by simp [NoVote])⟩

theorem takeRole_spares (set : ValidatorSet) (beacon : Hash32) (height : Height)
    (cand : MacroCheckpoint) (book : MacroBook) :
    Spares book (takeRole cr cfg ctx set beacon height cand book) := by
  unfold takeRole
  split
  · exact Spares.fail book _
  split
  · exact propose_spares ctx beacon height cand book
  split
  · exact .plain rfl rfl rfl rfl rfl
  · exact Spares.quiet' book

theorem armModeB_spares (height : Height) (book : MacroBook) :
    Spares book (armModeB cfg height book) := by
  unfold armModeB
  split
  · exact Spares.quiet' book
  · exact .plain rfl rfl rfl rfl rfl

/-- Closing a window replaces the candidate of the next height, and nothing else. -/
theorem closeWindow_spares (set : ValidatorSet) (book : MacroBook) :
    Spares (installCandidate cr book) (closeWindow cr cfg ctx set book) := by
  unfold closeWindow
  dsimp only
  split
  · exact Spares.fail _ _
  · refine Spares.andThen ((takeRole_spares cr cfg ctx set _ _ _ _).from rfl rfl rfl) ?_
    exact fun _ _ => armModeB_spares cfg _ _

theorem joinSubnet_spares (set : ValidatorSet) (assign : SubnetAssign) (hash : Hash32)
    (subnet : SubnetId) (v : ValidatorId) (book : MacroBook) :
    Spares book (joinSubnet cr set assign hash subnet v book) := by
  unfold joinSubnet
  dsimp only
  split
  · exact .plain rfl rfl rfl rfl rfl
  split
  · exact .plain rfl rfl rfl rfl rfl
  · exact .plain rfl rfl rfl rfl rfl

theorem announcePartial_spares (mode : AggregationMode) (subnet : SubnetId)
    (cp : MacroCheckpoint) {book : MacroBook} {height : Height}
    (hcp : book.candidate[height]? = some cp) :
    Spares book (announcePartial ctx mode subnet cp book) := by
  refine ⟨rfl, rfl, rfl, rfl, ?_⟩
  intro q hq
  cases @votedFor_append_announce [] q cp hq with
  | inl hold => simp [VotedFor] at hold
  | inr heq => exact ⟨height, heq ▸ hcp⟩

theorem selfEvidence_persists (votes : VoteBook) (self : ValidatorId) :
    persistedQcs (selfEvidence votes self) = [] := by
  unfold selfEvidence
  cases Slashing.scanForSurround votes self <;> cases Slashing.scanForDoubleVote votes self <;> rfl

theorem castVote_spares (set : ValidatorSet) (beacon : Hash32) (mode : AggregationMode)
    (locks : LockMacro) (cp : MacroCheckpoint) (book : MacroBook) :
    Spares (recordVote ctx locks cp book) (castVote cr cfg ctx set beacon mode locks cp book) := by
  have hvoted : (recordVote ctx locks cp book).candidate[cp.height]? = some cp := by
    simp [recordVote, addSigner]
  unfold castVote
  dsimp only
  split
  · exact ⟨rfl, rfl, rfl, rfl, NoVote.backed (by simp [NoVote])⟩
  refine Spares.andThen (Spares.andThen (Spares.andThen
    ⟨rfl, rfl, rfl, selfEvidence_persists _ _, NoVote.backed (by simp [NoVote])⟩
    fun _ _ => announcePartial_spares ctx _ _ _ hvoted) fun _ _ => .plain rfl rfl rfl rfl rfl)
    fun _ _ => ?_
  split
  · exact joinSubnet_spares cr _ _ _ _ _ _
  · exact Spares.quiet' _

structure Revises (cp : MacroCheckpoint) (b : MacroBook) (o : Result MacroBook) : Prop where
  candidate : o.state.candidate = b.candidate.insert cp.height cp
  reputation : o.state.reputation = b.reputation
  partials : o.state.partials = (addSigner cp.hash b.selfId b).partials
  quiet : persistedQcs o.actions = []
  backed : VotesBacked o

theorem considerProposal_effect (set : ValidatorSet) (beacon : Hash32) (p : MacroProposal)
    (book : MacroBook) : Spares book (considerProposal cr cfg ctx set beacon p book) ∨
      Revises p.checkpoint book (considerProposal cr cfg ctx set beacon p book) ∧
      ∃ schedule mode locks,
        vrfSortition cr beacon set p.checkpoint.height book.reputation = .ok schedule ∧
        activeMode book cfg set p.checkpoint.height = .ok mode ∧
        maySpeak mode schedule p.proposer = true ∧
        p.checkpoint.parent = book.lastMacroHash ∧ matchesCandidate book p.checkpoint = true ∧
        book.locks.tryLock book.selfId p.checkpoint.height p.checkpoint.hash = .ok locks := by
  unfold considerProposal
  dsimp only
  split
  · exact Or.inl (Spares.fail book _)
  rename_i schedule hsched
  split
  · exact Or.inl (Spares.fail book _)
  rename_i mode hmode
  split
  · exact Or.inl (Spares.quiet' book)
  rename_i hspeak
  split
  · exact Or.inl (Spares.quiet' book)
  rename_i hparent
  split
  · exact Or.inl (Spares.quiet' book)
  rename_i hmatch
  split
  · exact Or.inl (.plain rfl rfl rfl rfl rfl)
  · rename_i locks hlock
    have hcast := castVote_spares cr cfg ctx set beacon mode locks p.checkpoint book
    refine Or.inr ⟨⟨hcast.candidate, hcast.reputation, hcast.partials, hcast.quiet, hcast.backed⟩,
      schedule, mode, locks, hsched, hmode, ?_, ?_, ?_, hlock⟩
    · simpa using hspeak
    · simpa using hparent
    · simpa using hmatch

theorem accepts_checks {p : MacroProposal} {book : MacroBook}
    (h : accepts cr cfg ctx p book = true) :
    ∃ set beacon schedule mode locks, activeSet ctx = .ok set ∧
      beaconForHeight book ctx p.checkpoint.height = .ok beacon ∧
      vrfSortition cr beacon set p.checkpoint.height book.reputation = .ok schedule ∧
      activeMode book cfg set p.checkpoint.height = .ok mode ∧
      verifyProposal cr set p (vrfAlpha beacon p.checkpoint.height p.proposer) = true ∧
      book.proposalsSeen[toLex (p.checkpoint.height, p.proposer)]?.getD [] = [] ∧
      maySpeak mode schedule p.proposer = true ∧ p.checkpoint.parent = book.lastMacroHash ∧
      matchesCandidate book p.checkpoint = true ∧
      book.locks.tryLock book.selfId p.checkpoint.height p.checkpoint.hash = .ok locks := by
  unfold accepts at h
  split at h
  · rename_i set beacon hset hbeacon
    split at h
    · rename_i schedule mode hsched hmode
      simp only [Bool.and_eq_true, decide_eq_true_eq, List.isEmpty_iff] at h
      obtain ⟨⟨⟨⟨⟨hverify, hseen⟩, hspeak⟩, hparent⟩, hmatch⟩, hlock⟩ := h
      obtain ⟨locks, hlocks⟩ := Outcome.exists_of_isOk hlock
      exact ⟨set, beacon, schedule, mode, locks, hset, hbeacon, hsched, hmode, hverify, hseen,
        hspeak, hparent, hmatch, hlocks⟩
    · cases h
  · cases h

/-- A proposal that passes every check gets the vote. -/
theorem onMacroProposal_casts {p : MacroProposal} {book : MacroBook}
    (h : accepts cr cfg ctx p book = true) :
    ∃ set beacon mode locks, activeSet ctx = .ok set ∧
      beaconForHeight book ctx p.checkpoint.height = .ok beacon ∧
      activeMode book cfg set p.checkpoint.height = .ok mode ∧
      onMacroProposal cr cfg ctx p book =
        castVote cr cfg ctx set beacon mode locks p.checkpoint (book.seeing p beacon) := by
  obtain ⟨set, beacon, schedule, mode, locks, hset, hbeacon, hsched, hmode, hverify, hseen, hspeak,
    hparent, hmatch, hlock⟩ := accepts_checks cr cfg ctx h
  refine ⟨set, beacon, mode, locks, hset, hbeacon, hmode, ?_⟩
  let seen := book.seeing p beacon
  have hsched' : vrfSortition cr beacon set p.checkpoint.height seen.reputation = .ok schedule :=
    hsched
  have hmode' : activeMode seen cfg set p.checkpoint.height = .ok mode := hmode
  have hparent' : p.checkpoint.parent = seen.lastMacroHash := hparent
  have hmatch' : matchesCandidate seen p.checkpoint = true := hmatch
  have hlock' : seen.locks.tryLock seen.selfId p.checkpoint.height p.checkpoint.hash =
    .ok locks := hlock
  have hseen' : (freezeBeacon p.checkpoint.height beacon book).proposalsSeen[
    toLex (p.checkpoint.height, p.proposer)]?.getD [] = [] := hseen
  unfold onMacroProposal
  rw [hset]
  dsimp only
  rw [hbeacon]
  dsimp only
  rw [hverify, if_neg (by decide), hseen']
  change considerProposal cr cfg ctx set beacon p seen = _
  unfold considerProposal
  dsimp only
  rw [hsched', hmode']
  dsimp only
  rw [hspeak, if_neg (by decide), if_neg (not_not.mpr hparent'), hmatch', if_neg (by decide),
    hlock']

/-- Any other proposal touches counters, beacons and what has been seen only, and its proposer
at most is accused. -/
theorem onMacroProposal_declines {p : MacroProposal} {book : MacroBook}
    (h : accepts cr cfg ctx p book = false) :
    ∃ beacons rejected seen suppressed, (onMacroProposal cr cfg ctx p book).state =
        { book with
          candidateBeacon := beacons
          rejectedCrypto := rejected
          proposalsSeen := seen
          suppressedConflicts := suppressed } ∧
      (∀ b, book.candidateBeacon[p.checkpoint.height]? = some b →
        beacons[p.checkpoint.height]? = some b) ∧
      ∀ a ∈ (onMacroProposal cr cfg ctx p book).actions,
        ∃ ev, a = .emitSlashEvidence p.proposer (.macroEquivocation ev) := by
  unfold onMacroProposal
  split
  · exact ⟨_, _, _, _, rfl, fun _ hb => hb, by simp⟩
  rename_i set hset
  dsimp only
  split
  · exact ⟨_, _, _, _, rfl, fun _ hb => hb, by simp⟩
  rename_i beacon hbeacon
  have hfrozen : ∀ b, book.candidateBeacon[p.checkpoint.height]? = some b →
      (book.candidateBeacon.insert p.checkpoint.height beacon)[p.checkpoint.height]? =
        some b := by
    intro b hb
    rw [beaconForHeight, hb] at hbeacon
    cases hbeacon
    simp
  split
  · exact ⟨_, _, _, _, rfl, hfrozen, by simp⟩
  rename_i hverify
  split
  · split
    · exact ⟨_, _, _, _, rfl, hfrozen, by simp⟩
    · exact ⟨_, _, _, _, rfl, hfrozen, by simp⟩
  rename_i hseen
  unfold considerProposal
  dsimp only
  split
  · exact ⟨_, _, _, _, rfl, hfrozen, by simp⟩
  rename_i schedule hsched
  split
  · exact ⟨_, _, _, _, rfl, hfrozen, by simp⟩
  rename_i mode hmode
  split
  · exact ⟨_, _, _, _, rfl, hfrozen, by simp⟩
  rename_i hspeak
  split
  · exact ⟨_, _, _, _, rfl, hfrozen, by simp⟩
  rename_i hparent
  split
  · exact ⟨_, _, _, _, rfl, hfrozen, by simp⟩
  rename_i hmatch
  split
  · exact ⟨_, _, _, _, rfl, hfrozen, by simp⟩
  -- the vote is cast on accepted proposals only
  rename_i locks hlock
  rw [Bool.not_eq_true, Bool.not_eq_false'] at hmatch
  have hacc := accepts_of_checks hset hbeacon (by simpa using hverify) hseen hsched hmode
    (by simpa using hspeak) (not_not.mp hparent) hmatch hlock
  rw [hacc] at h
  cases h

theorem onMacroProposal_effect (p : MacroProposal) (book : MacroBook) :
    Spares book (onMacroProposal cr cfg ctx p book) ∨
      Revises p.checkpoint book (onMacroProposal cr cfg ctx p book) ∧
      accepts cr cfg ctx p book = true := by
  unfold onMacroProposal
  dsimp only
  split
  · exact Or.inl (Spares.fail book _)
  rename_i set hset
  split
  · exact Or.inl (Spares.fail book _)
  rename_i beacon hbeacon
  split
  · exact Or.inl (.plain rfl rfl rfl rfl rfl)
  rename_i hverify
  split
  · split
    · exact Or.inl (.plain rfl rfl rfl rfl rfl)
    · exact Or.inl (.plain rfl rfl rfl rfl rfl)
  · rename_i hseen
    cases considerProposal_effect cr cfg ctx set beacon p
        { freezeBeacon p.checkpoint.height beacon book with
          proposalsSeen := book.proposalsSeen.insert
            (toLex (p.checkpoint.height, p.proposer)) [p] } with
    | inl hspares => exact Or.inl (hspares.from rfl rfl rfl)
    | inr h =>
      obtain ⟨hrevises, schedule, mode, locks, hsched, hmode, hspeak, hparent, hmatch, hlock⟩ := h
      refine Or.inr ⟨⟨hrevises.candidate, hrevises.reputation, hrevises.partials, hrevises.quiet,
        hrevises.backed⟩, ?_⟩
      exact accepts_of_checks hset hbeacon (by simpa using hverify) hseen hsched hmode hspeak
        hparent hmatch hlock

/- Adoption. -/

theorem noteInactivityLeak_spares (final : Bool) (book : MacroBook) :
    Spares book (noteInactivityLeakOnAdoption cfg final book) := by
  unfold noteInactivityLeakOnAdoption
  split
  · exact .plain rfl rfl rfl rfl rfl
  dsimp only
  split
  · exact .plain rfl rfl rfl rfl rfl
  · exact .plain rfl rfl rfl rfl rfl

theorem settleFinality_spares (book : MacroBook) :
    Spares book (settleFinality cfg book) ∧
      ∃ acts, (settleFinality cfg book).result = .ok acts := by
  have hleak : ∃ acts, (noteInactivityLeakOnAdoption cfg
      book.twoChain.newlyFinalizedHeight.isSome book).result = .ok acts := by
    unfold noteInactivityLeakOnAdoption
    split
    · exact ⟨_, rfl⟩
    dsimp only
    split
    · exact ⟨_, rfl⟩
    · exact ⟨_, rfl⟩
  refine ⟨Spares.andThen (noteInactivityLeak_spares cfg _ book) ?_, ?_⟩
  · intro _ _
    split
    · exact Spares.quiet' _
    · rename_i prev _
      refine .plain rfl rfl rfl ?_ rfl
      simp only [Outcome.ok_actions]
      cases (noteInactivityLeakOnAdoption cfg book.twoChain.newlyFinalizedHeight.isSome
        book).state.candidate[prev]? <;> rfl
  · obtain ⟨acts, hacts⟩ := hleak
    unfold settleFinality
    rw [Outcome.andThen_of_ok hacts]
    split
    · exact ⟨_, rfl⟩
    · exact ⟨_, rfl⟩

/-- Adoption, from either side: what is persisted, then the finality it brings. -/
theorem adopt_credits (height : Height) (cand : MacroCheckpoint) (qc : MacroQc)
    (signers : Finset ValidatorId) (book : MacroBook) (own : List Action)
    (hown : persistedQcs own = []) :
    Credits signers book ((Outcome.ok (adoptCheckpoint height cand qc signers book)
      (own ++ adoptionActions cand qc)).andThen (settleFinality cfg)) := by
  obtain ⟨hspares, acts, hacts⟩ := settleFinality_spares cfg
    (adoptCheckpoint height cand qc signers book)
  rw [Outcome.andThen_of_ok rfl]
  refine ⟨hspares.candidate, hspares.reputation, hspares.partials,
    ⟨own ++ adoptionActions cand qc ++ acts, qc, ?_, ?_⟩, ?_⟩
  · simp only [Outcome.ok_state, hacts, Except.map]
  · have hq := hspares.quiet
    simp only [Outcome.actions, hacts] at hq
    rw [persistedQcs_append, persistedQcs_append, hown, hq]
    rfl
  · exact hspares.backed

theorem tryEmitModeAQc_effect (hash : Hash32) (height : Height) (book : MacroBook) :
    Spares book (tryEmitModeAQc cr cfg ctx hash height book) ∨
      Credits (book.signersOf hash) book (tryEmitModeAQc cr cfg ctx hash height book) := by
  unfold tryEmitModeAQc
  dsimp only
  split
  · exact Or.inl (Spares.fail book _)
  split
  · exact Or.inl (Spares.quiet' book)
  split
  · exact Or.inl (Spares.fail book _)
  split
  · exact Or.inl (Spares.fail book _)
  split
  · exact Or.inl (Spares.quiet' book)
  split
  · exact Or.inl (Spares.quiet' book)
  rename_i qc _
  split
  · exact Or.inl (Spares.quiet' book)
  split
  · exact Or.inl (Spares.fail book _)
  · rename_i cand _
    exact Or.inr (adopt_credits cfg height cand qc _ book [.broadcastMacroQc qc] rfl)

theorem signersOf_addSigner (hash : Hash32) (v : ValidatorId) (book : MacroBook) :
    (addSigner hash v book).signersOf hash = insert v (book.signersOf hash) := by
  simp [addSigner, MacroBook.signersOf]

theorem collectSubnet_effect (set : ValidatorSet) (beacon : Hash32) (assign : SubnetAssign)
    (height : Height) (bp : BlsPartial) (book : MacroBook) :
    let noted := addSigner bp.checkpointHash bp.validator book
    let o := collectSubnet cr cfg ctx set beacon assign height bp book
    Spares noted o ∨ Credits (noted.signersOf bp.checkpointHash) noted o := by
  intro noted o
  have hjoin := joinSubnet_spares cr set assign bp.checkpointHash bp.subnet bp.validator noted
  have hsigners : (joinSubnet cr set assign bp.checkpointHash bp.subnet bp.validator
      noted).state.signersOf bp.checkpointHash = noted.signersOf bp.checkpointHash := by
    simp only [MacroBook.signersOf, hjoin.partials]
  refine hjoin.andThen_or ?_
  intro _ _
  split
  · exact Or.inl (Spares.fail _ _)
  split
  · rw [← hsigners]
    exact tryEmitModeAQc_effect cr cfg ctx _ _ _
  · exact Or.inl (Spares.quiet' _)

theorem collectFlat_effect (set : ValidatorSet) (mode : AggregationMode) (height : Height)
    (cand : MacroCheckpoint) (bp : BlsPartial) (book : MacroBook)
    (hflat : ¬ (mode = .mode0Flat ∧ bp.subnet ≠ 0)) :
    let noted := addSigner bp.checkpointHash bp.validator book
    let o := collectFlat cr cfg set mode height cand bp book
    Spares noted o ∨ Credits (noted.signersOf bp.checkpointHash) noted o := by
  intro noted o
  have ho : o = collectFlat cr cfg set mode height cand bp book := rfl
  unfold collectFlat at ho
  rw [if_neg hflat] at ho
  rw [ho]
  dsimp only
  split
  · exact Or.inl (.plain rfl rfl rfl rfl rfl)
  split
  · exact Or.inl (.plain rfl rfl rfl rfl rfl)
  · rename_i qc _
    exact Or.inr (adopt_credits cfg height cand qc _ _ [.broadcastMacroQc qc] rfl)

theorem onBlsPartial_effect (bp : BlsPartial) (book : MacroBook) :
    let noted := book.noting (notedPartial cr cfg ctx bp book)
    let o := onBlsPartial cr cfg ctx bp book
    Spares noted o ∨ Credits (noted.signersOf bp.checkpointHash) noted o := by
  -- a branch that drops the partial, or fails, fails one of the checks
  have hdrop : ∀ {o : Result MacroBook}, countsPartial cr cfg ctx bp book = false →
      Spares book o → Spares (book.noting (notedPartial cr cfg ctx bp book)) o := by
    intro o hno h
    rwa [notedPartial, if_neg (by simp [hno])]
  dsimp only
  unfold onBlsPartial
  dsimp only
  split
  · rename_i hfound
    exact Or.inl (hdrop (by simp [countsPartial, hfound]) (Spares.quiet' book))
  rename_i height cp hfound
  split
  · rename_i hset
    exact Or.inl (hdrop (by simp [countsPartial, hset]) (Spares.fail book _))
  rename_i set hset
  split
  · rename_i hverify
    refine Or.inl (hdrop ?_ (.plain rfl rfl rfl rfl rfl))
    simp only [Bool.not_eq_true'] at hverify
    simp only [countsPartial, hfound, hset, hverify, Bool.false_and]
    split <;> rfl
  rename_i hverify
  split
  · rename_i hdone
    refine Or.inl (hdrop ?_ (.plain rfl rfl rfl rfl rfl))
    have hdone' : bp.checkpointHash ∈ book.emittedMacroQc := hdone
    simp only [countsPartial, hfound, hset, hdone', not_true_eq_false, decide_false,
      Bool.and_false, Bool.false_and]
    split <;> rfl
  rename_i hopen
  split
  · rename_i hmode
    have hmode' : activeMode book cfg set height = .error _ := hmode
    exact Or.inl (hdrop (by simp [countsPartial, hfound, hset, hmode'])
      (.plain rfl rfl rfl rfl rfl))
  rename_i mode hmode
  have hmode' : activeMode book cfg set height = .ok mode := hmode
  split
  · rename_i hbeacon
    have hbeacon' : beaconForHeight book ctx height = .error _ := hbeacon
    exact Or.inl (hdrop (by simp [countsPartial, hfound, hset, hmode', hbeacon'])
      (.plain rfl rfl rfl rfl rfl))
  rename_i beacon hbeacon
  have hbeacon' : beaconForHeight book ctx height = .ok beacon := hbeacon
  split
  · rename_i hassign
    exact Or.inl (hdrop (by simp [countsPartial, hfound, hset, hmode', hbeacon', hassign,
      Except.isOk, Except.toBool]) (.plain rfl rfl rfl rfl rfl))
  rename_i assign hassign
  by_cases hflat : mode = .mode0Flat ∧ bp.subnet ≠ 0
  · refine Or.inl (hdrop (by simp [countsPartial, hfound, hset, hmode', hbeacon', hflat]) ?_)
    rw [if_neg (by simp [hflat.1]), collectFlat, if_pos hflat]
    exact .plain rfl rfl rfl rfl rfl
  have hcount : notedPartial cr cfg ctx bp book = some (bp.checkpointHash, bp.validator) := by
    have hyes : countsPartial cr cfg ctx bp book = true := by
      simp only [Bool.not_eq_true, Bool.not_eq_false'] at hverify
      have hopen' : bp.checkpointHash ∉ book.emittedMacroQc := hopen
      simp [countsPartial, hfound, hset, hmode', hbeacon', hassign, hflat, hverify, hopen',
        Except.isOk, Except.toBool]
    rw [notedPartial, if_pos hyes]
  rw [hcount]
  split
  · exact (collectSubnet_effect cr cfg ctx _ _ _ _ bp _).imp (fun h => h.from rfl rfl rfl)
      fun h => h.from rfl rfl rfl
  · exact (collectFlat_effect cr cfg _ _ _ _ bp _ hflat).imp (fun h => h.from rfl rfl rfl)
      fun h => h.from rfl rfl rfl

theorem onMacroQcReceived_effect (qc : MacroQc) (book : MacroBook) :
    Spares book (onMacroQcReceived cr cfg ctx qc book) ∨
      Credits (book.signersOf qc.checkpointHash) book (onMacroQcReceived cr cfg ctx qc book) := by
  unfold onMacroQcReceived
  split
  · exact Or.inl (Spares.quiet' book)
  split
  · exact Or.inl (Spares.fail book _)
  split
  · exact Or.inl (Spares.quiet' book)
  split
  · exact Or.inl (.plain rfl rfl rfl rfl rfl)
  · rename_i height cand _ _
    exact Or.inr (adopt_credits cfg height cand qc _ book [] rfl)

theorem onSubnetAggregate_effect (agg : SubnetAggregate) (book : MacroBook) :
    Spares book (onSubnetAggregate cr cfg ctx agg book) ∨
      Credits (book.signersOf agg.checkpointHash) book
        (onSubnetAggregate cr cfg ctx agg book) := by
  unfold onSubnetAggregate
  dsimp only
  split
  · exact Or.inl (Spares.quiet' book)
  split
  · exact Or.inl (Spares.fail book _)
  split
  · exact Or.inl (.plain rfl rfl rfl rfl rfl)
  · exact (tryEmitModeAQc_effect cr cfg ctx _ _ _).imp (fun h => h.from rfl rfl rfl)
      fun h => h.from rfl rfl rfl

/- Timers. -/

theorem onBackupTimer_spares (height : Height) (book : MacroBook) :
    Spares book (onBackupTimer cr ctx height book) := by
  unfold onBackupTimer
  dsimp only
  split
  · exact .plain rfl rfl rfl rfl rfl
  split
  · exact .plain rfl rfl rfl rfl rfl
  split
  · exact .plain rfl rfl rfl rfl rfl
  split
  · exact .plain rfl rfl rfl rfl rfl
  split
  · exact .plain rfl rfl rfl rfl rfl
  split
  · exact (propose_spares ctx _ _ _ _).from rfl rfl rfl
  · exact .plain rfl rfl rfl rfl rfl

theorem castModeBVote_spares {height : Height} {cp : MacroCheckpoint} {book : MacroBook}
    (hcp : book.candidate[height]? = some cp) (hmode : height ∈ book.modeBActive) :
    Spares (bif canAnnounce cfg ctx height book then addSigner cp.hash book.selfId book else book)
      (castModeBVote cr cfg ctx height cp book) := by
  unfold castModeBVote canAnnounce
  cases hset : activeSet ctx with
  | error e => exact Spares.fail book e
  | ok set =>
    cases hbeacon : beaconForHeight book ctx height with
    | error e => exact Spares.fail book e
    | ok beacon =>
      dsimp only
      rw [activeMode, if_pos hmode]
      generalize subnetAssign cfg set beacon = assigned
      cases assigned with
      | error e => exact Spares.fail book e
      | ok assign =>
        exact @announcePartial_spares ctx _ _ cp (addSigner cp.hash book.selfId book) height hcp

theorem onModeBTimer_spares (height : Height) (book : MacroBook) :
    Spares (book.noting (notedModeB cfg ctx height book))
      (onModeBTimer cr cfg ctx height book) := by
  unfold onModeBTimer notedModeB
  extract_lets cleared done active
  have hactive : ∃ modes, active = { cleared with modeBActive := modes } := by
    simp only [active]
    split
    · exact ⟨_, rfl⟩
    · exact ⟨_, rfl⟩
  have hmodes : height ∈ active.modeBActive ↔ done = false ∨ height ∈ book.modeBActive := by
    simp only [active]
    split
    · rename_i hdone
      simp [hdone, cleared]
    · rename_i hdone
      simp [hdone]
  clear_value active
  obtain ⟨modes, rfl⟩ := hactive
  cases hcand : book.candidate[height]? with
  | none =>
    dsimp only
    split
    · exact .plain rfl rfl rfl rfl rfl
    · exact .plain rfl rfl rfl rfl rfl
  | some cp =>
    have hdone : done = false ↔ cp.hash ∉ book.emittedMacroQc := by
      simp [done, hcand, cleared]
    rw [hdone] at hmodes
    dsimp only
    by_cases hin : height ∈ modes
    · rw [if_neg (not_not.mpr hin)]
      cases hlock : book.locks.tryLock book.selfId height cp.hash with
      | error e =>
        rw [if_neg (by simp [Except.isOk, Except.toBool])]
        exact .plain rfl rfl rfl rfl rfl
      | ok locks =>
        have hcast := @castModeBVote_spares cr cfg ctx height cp
          { cleared with modeBActive := modes, locks := locks } hcand hin
        have hport : canAnnounce cfg ctx height
          { cleared with modeBActive := modes, locks := locks } =
            canAnnounce cfg ctx height book := rfl
        rw [hport] at hcast
        cases hcan : canAnnounce cfg ctx height book with
        | true =>
          rw [if_pos ⟨hmodes.mp hin, rfl, rfl⟩]
          rw [hcan] at hcast
          exact hcast.from rfl rfl rfl
        | false =>
          rw [if_neg (by simp)]
          rw [hcan] at hcast
          exact hcast.from rfl rfl rfl
    · rw [if_pos hin, if_neg fun h => hin (hmodes.mpr h.1)]
      exact .plain rfl rfl rfl rfl rfl

theorem onTimerFired_spares (id : TimerId) (book : MacroBook) :
    Spares (book.noting (notedTimer cfg ctx id book)) (onTimerFired cr cfg ctx id book) := by
  unfold onTimerFired notedTimer
  cases hbackup : book.timers.heightForBackupTimer id with
  | some height => exact onBackupTimer_spares cr ctx height book
  | none =>
    cases hmode : book.timers.heightForModeBTimer id with
    | some height => exact onModeBTimer_spares cr cfg ctx height book
    | none => exact Spares.quiet' book

/- Windows. -/

theorem propose_noVote (beacon : Hash32) (height : Height) (cand : MacroCheckpoint)
    (book : MacroBook) : NoVote (propose ctx beacon height cand book) := by
  unfold propose
  split <;> simp [NoVote]

theorem closeWindow_noVote (set : ValidatorSet) (book : MacroBook) :
    NoVote (closeWindow cr cfg ctx set book) := by
  unfold closeWindow
  dsimp only
  split
  · simp [NoVote]
  refine NoVote.andThen ?_ ?_
  · unfold takeRole
    split
    · simp [NoVote]
    split
    · exact propose_noVote ctx _ _ _ _
    split
    · simp [NoVote]
    · simp [NoVote]
  · intro _ _
    unfold armModeB
    split <;> simp [NoVote]

end Handlers
end MacroFin

open MacroFin

structure Feeds (b : MacroBook) (o : Result MacroBook) : Prop where
  others : ∀ h : Height, h ≠ b.nextHeight → o.state.candidate[h]? = b.candidate[h]?
  reputation : o.state.reputation = b.reputation
  partials : o.state.partials = b.partials
  next : o.state.nextHeight = b.nextHeight
  noVote : NoVote o

theorem Feeds.same {b : MacroBook} {o : Result MacroBook} (hstate : o.state = b)
    (hsigned : o.signed = []) : Feeds b o :=
  ⟨fun _ _ => by rw [hstate], by rw [hstate], by rw [hstate], by rw [hstate],
    by simp [NoVote, hsigned]⟩

theorem Feeds.andThen {b : MacroBook} {o : Result MacroBook} {k : MacroBook → Result MacroBook}
    (h : Feeds b o) (hk : ∀ book, Feeds book (k book)) : Feeds b (o.andThen k) := by
  have hvote := h.noVote.andThen fun _ _ => (hk o.state).noVote
  have hnext := hk o.state
  cases hr : o.result with
  | error e => rwa [Outcome.andThen_of_error hr]
  | ok acts =>
    rw [Outcome.andThen_of_ok hr] at hvote ⊢
    refine ⟨?_, hnext.reputation.trans h.reputation, hnext.partials.trans h.partials,
      hnext.next.trans h.next, hvote⟩
    intro height hne
    exact (hnext.others height (h.next ▸ hne)).trans (h.others height hne)

section Windows
variable {cr : Crypto} {cfg : Config} {ctx : HostContext} {set : ValidatorSet}

theorem pushMicroQc_feeds (h : Hash32) (book : MacroBook) :
    Feeds book (pushMicroQc cr cfg ctx set h book) := by
  unfold pushMicroQc
  dsimp only
  split
  · exact ⟨fun _ _ => rfl, rfl, rfl, rfl, by simp [NoVote]⟩
  · have hspares := closeWindow_spares cr cfg ctx set
      { book with microRing := book.microRing ++ [h] }
    refine ⟨?_, hspares.reputation, hspares.partials,
      (closeWindow_rest cr cfg ctx set _).2.nextHeight, closeWindow_noVote cr cfg ctx set _⟩
    intro height hne
    rw [hspares.candidate, installCandidate, Maps.get_insert, if_neg (Ne.symm hne)]

theorem pushAll_feeds (hs : List Hash32) {b : MacroBook} {o : Result MacroBook}
    (ho : Feeds b o) : Feeds b (pushAll cr cfg ctx set hs o) := by
  induction hs generalizing o with
  | nil => exact ho
  | cons h hs ih => exact ih (ho.andThen fun book => pushMicroQc_feeds h book)

theorem pushAll_idle (hs : List Hash32) {o : Result MacroBook} {acts : List Action}
    (ho : o.result = .ok acts)
    (hidle : closings cfg.macroFin.macroWindowW o.state.microRing.length hs.length = 0) :
    (pushAll cr cfg ctx set hs o).state.candidate = o.state.candidate := by
  induction hs generalizing o acts with
  | nil => rfl
  | cons h hs ih =>
    rw [List.length_cons, closings] at hidle
    split at hidle
    · rename_i hlt
      have hpush : pushMicroQc cr cfg ctx set h o.state =
          .quiet { o.state with microRing := o.state.microRing ++ [h] } := by
        unfold pushMicroQc
        exact if_pos (by simpa using hlt)
      have hok : (o.andThen (pushMicroQc cr cfg ctx set h)).result = .ok (acts ++ []) := by
        rw [Outcome.andThen_of_ok ho, hpush]
        rfl
      have hstate : (o.andThen (pushMicroQc cr cfg ctx set h)).state =
          { o.state with microRing := o.state.microRing ++ [h] } := by
        rw [Outcome.andThen_of_ok ho, hpush]
        rfl
      rw [pushAll, List.foldl_cons, ← pushAll, ih hok (by rw [hstate]; simpa using hidle), hstate]
    · exact absurd hidle (Nat.succ_ne_zero _)

theorem onLocalMicroQcs_feeds (acts : List Action) (book : MacroBook) :
    Feeds book (onLocalMicroQcs cr cfg ctx acts book) := by
  unfold onLocalMicroQcs
  split
  · exact Feeds.same rfl rfl
  split
  · exact Feeds.same rfl rfl
  · exact pushAll_feeds _ (Feeds.same rfl rfl)

theorem onLocalMicroQcs_idle (acts : List Action) (book : MacroBook)
    (hidle : ∀ set, activeSet ctx = .ok set → closings cfg.macroFin.macroWindowW
      book.microRing.length (acts.filterMap microQcHash).length = 0) :
    (onLocalMicroQcs cr cfg ctx acts book).state.candidate = book.candidate := by
  unfold onLocalMicroQcs
  split
  · rfl
  split
  · rfl
  · rename_i set hset
    exact @pushAll_idle cr cfg ctx set _ (.quiet book) [] rfl (hidle set hset)

end Windows
end LuaDag
