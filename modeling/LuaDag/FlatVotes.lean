import LuaDag.VoteHonoured
import LuaDag.CertProduction
import LuaDag.MacroQuorum
import LuaDag.HonestNetwork

/-! One node in the flat modes, Mode 0 and Mode B: what it does on the proposal it pursues and
on the partials on its checkpoint. It assembles a QC when a partial arrives, if it is the
smallest signer it knows of. -/
namespace LuaDag
open MacroFin

def assembles (set : ValidatorSet) (v : ValidatorId) (signers : Finset ValidatorId) : Bool :=
  decide (signers.min = (v : WithTop ValidatorId)) &&
    decide (2 * ((set.entries.length - 1) / 3) + 1 ≤ signers.card)

/-- Node `v` in Mode 0 or B at the height of `p`. -/
structure FlatNode (cr : Crypto) (set : ValidatorSet) (p : MacroProposal) (v : ValidatorId)
    (sm : StateMachine) : Prop where
  node : ∃ cfg is, sm = StateMachine.reached cr cfg v is
  size : set.entries.length < 2 ^ 32
  mode : ∃ m, activeMode sm.macros sm.cfg set p.checkpoint.height = .ok m ∧ m ≠ .modeASubnet

/-- Node `v` pursues the checkpoint of `p` in Mode 0 or B and has the partials of `heard` on
record; unless its own is among them it votes for the proposal when it sees it. -/
structure Pursues (cr : Crypto) (set : ValidatorSet) (p : MacroProposal) (v : ValidatorId)
    (heard : Finset ValidatorId) (sm : StateMachine) : Prop where
  flat : FlatNode cr set p v sm
  candidate : sm.macros.candidate[p.checkpoint.height]? = some p.checkpoint
  fresh : p.checkpoint.hash ∉ sm.macros.emittedMacroQc
  beacon : ∃ b, sm.macros.candidateBeacon[p.checkpoint.height]? = some b
  signers : sm.macros.signersOf p.checkpoint.hash = heard
  stored : ∀ u ∈ heard, ∃ sig, sm.macros.partialSigs[toLex (p.checkpoint.hash, u)]? = some sig ∧
    SignedBy cr set p.checkpoint u sig
  willing : v ∉ heard → v ≠ p.proposer → ∀ ctx, activeSet ctx = .ok set →
    accepts cr sm.cfg ctx p sm.macros = true

section Node
variable {cr : Crypto} {set : ValidatorSet} {p : MacroProposal} {v : ValidatorId}

theorem macros_selfId (cr : Crypto) (cfg : Config) (self : ValidatorId)
    (is : List StateMachine.Input) :
    (StateMachine.reached cr cfg self is).macros.selfId = self := by
  refine @run_invariant cr (fun _ _ c => c.selfId = self) (fun _ => True) ?_ ?_ cfg self rfl is
    (fun _ _ => trivial)
  · intro call _
    refine ⟨?_, fun _ _ _ _ _ h => h⟩
    intro log as c sg acts d _ hm h
    cases hm <;> exact h
  · intro call _ log as c acts d h hadopt
    cases hadopt
    exact h

theorem FlatNode.selfId {sm : StateMachine} (h : FlatNode cr set p v sm) :
    sm.macros.selfId = v := by
  obtain ⟨cfg, is, rfl⟩ := h.node
  exact macros_selfId cr cfg v is

theorem FlatNode.subnets {sm : StateMachine} (h : FlatNode cr set p v sm) (beacon : Hash32) :
    ∃ assign, subnetAssign sm.cfg set beacon = .ok assign :=
  ⟨⟨computeKe sm.cfg set.entries.length, beacon⟩, by simp [subnetAssign, toU32_of_lt h.size]⟩

/-- A call of the node leads to a state of its run, in a flat mode if the mode stays. -/
theorem FlatNode.next {sm : StateMachine} (h : FlatNode cr set p v sm) (i : StateMachine.Input)
    (hmodes : (StateMachine.exec cr i sm).state.macros.modeBActive = sm.macros.modeBActive) :
    FlatNode cr set p v (StateMachine.exec cr i sm).state := by
  refine ⟨?_, h.size, ?_⟩
  · obtain ⟨cfg, is, rfl⟩ := h.node
    refine ⟨cfg, is ++ [i], ?_⟩
    rw [StateMachine.reached, StateMachine.reached, Trace.final_append]
    rfl
  · rw [exec_cfg cr ⟨sm, i⟩]
    unfold activeMode
    rw [hmodes]
    exact h.mode

theorem tryFinalizeMode0_total (hany : AggregatesAnyOrder cr) {cp : MacroCheckpoint}
    {sigs : PartialSigs} {signers : Finset ValidatorId}
    (hcard : 2 * ((set.entries.length - 1) / 3) + 1 ≤ signers.card)
    (hstored : ∀ u ∈ signers, ∃ sig, sigs[toLex (cp.hash, u)]? = some sig ∧
      SignedBy cr set cp u sig) :
    ∃ qc, tryFinalizeMode0 cr set sigs cp.hash signers = some qc := by
  let rows := set.entries.filter fun e => decide (e.id ∈ signers)
  let vote : ValidatorEntry → PublicKey × BlsSig := fun e =>
    ((VertexCert.pkFor cr set e.id).getD ⟨0⟩, (sigs[toLex (cp.hash, e.id)]?).getD ⟨0⟩)
  have hrow : ∀ e ∈ rows, sigs[toLex (cp.hash, e.id)]? = some (vote e).2 ∧
      cr.verify (vote e).1 .macroCheckpoint (checkpointMessage cp) (vote e).2 = true := by
    intro e he
    have hin : e.id ∈ signers := by simpa using (List.mem_filter.mp he).2
    obtain ⟨sig, hsig, pk, hpk, hver⟩ := hstored e.id hin
    simp only [vote, hsig, hpk, Option.getD_some]
    exact ⟨trivial, hver⟩
  have hne : rows ≠ [] := by
    obtain ⟨u, hu⟩ := Finset.card_pos.mp (Nat.lt_of_lt_of_le (Nat.succ_pos _) hcard)
    obtain ⟨sig, -, pk, hpk, -⟩ := hstored u hu
    obtain ⟨e, he, -⟩ := Option.bind_eq_some_iff.mp hpk
    obtain ⟨hmem, hid⟩ := entryFor_spec he
    exact List.ne_nil_of_mem (List.mem_filter.mpr ⟨hmem, decide_eq_true (hid ▸ hu)⟩)
  have hcollect : rows.mapM (fun e => sigs[toLex (cp.hash, e.id)]?) =
      some ((rows.map vote).map (·.2)) := by
    rw [List.map_map]
    exact Quorum.mapM_some fun e he => (hrow e he).1
  obtain ⟨agg, hagg, -⟩ := hany (rows.map vote) ((rows.map vote).map (·.1)) .macroCheckpoint
    (checkpointMessage cp) (by simpa using hne)
    (by
      intro w hw
      obtain ⟨e, he, rfl⟩ := List.mem_map.mp hw
      exact (hrow e he).2)
    (List.Perm.refl _)
  have hn : set.entries.length ≠ 0 := by
    intro hzero
    rw [List.length_eq_zero_iff] at hzero
    exact hne (by simp [rows, hzero])
  unfold tryFinalizeMode0 aggregateOf
  rw [if_neg hn, if_neg (Nat.not_lt_of_le hcard), hcollect]
  dsimp only
  rw [hagg]
  exact ⟨_, rfl⟩

theorem Pursues.found (hinj : HashInjective cr) {heard : Finset ValidatorId} {sm : StateMachine}
    (h : Pursues cr set p v heard sm) :
    sm.macros.findCandidate p.checkpoint.hash = some (p.checkpoint.height, p.checkpoint) := by
  have hcand := h.candidate
  obtain ⟨cfg, is, rfl⟩ := h.flat.node
  exact findCandidate_slot hinj (run_form cr cfg v is) hcand

/- A partial arrives. -/

theorem verifyPartial_names {bp : BlsPartial} {cp : MacroCheckpoint}
    (h : verifyPartial cr set bp cp = true) : bp.checkpointHash = cp.hash := by
  unfold verifyPartial at h
  split at h
  · cases h
  · rename_i hne
    simpa using hne

def MacroBook.collected (book : MacroBook) (bp : BlsPartial) : MacroBook :=
  addSigner bp.checkpointHash bp.validator { book with
    partialSigs := book.partialSigs.insert (toLex (bp.checkpointHash, bp.validator)) bp.sig }

def tryFinalizeFlat (cr : Crypto) (set : ValidatorSet) (m : AggregationMode) (sigs : PartialSigs)
    (x : Hash32) (signers : Finset ValidatorId) : Option MacroQc :=
  if m = .modeBLeaderless then tryFinalizeModeB cr set sigs x signers
  else tryFinalizeMode0 cr set sigs x signers

theorem tryFinalizeFlat_eq (m : AggregationMode) (sigs : PartialSigs) (x : Hash32)
    (signers : Finset ValidatorId) : tryFinalizeFlat cr set m sigs x signers =
      (tryFinalizeMode0 cr set sigs x signers).map fun qc =>
        { qc with mode := if m = .modeBLeaderless then .modeBLeaderless else qc.mode } := by
  unfold tryFinalizeFlat tryFinalizeModeB
  split
  · rfl
  · rw [Option.map_id']

theorem onBlsPartial_flat (hinj : HashInjective cr) {heard : Finset ValidatorId}
    {sm : StateMachine} (h : Pursues cr set p v heard sm) {ctx : HostContext}
    (hset : activeSet ctx = .ok set) {bp : BlsPartial} (hsubnet : bp.subnet = 0)
    (hver : verifyPartial cr set bp p.checkpoint = true) :
    ∃ m, onBlsPartial cr sm.cfg ctx bp sm.macros =
      if !shouldAssembleQc (sm.macros.collected bp) (insert bp.validator heard) then
        .quiet (sm.macros.collected bp)
      else
        match tryFinalizeFlat cr set m (sm.macros.collected bp).partialSigs p.checkpoint.hash
            (insert bp.validator heard) with
        | none => .quiet (sm.macros.collected bp)
        | some qc => finishMacroQcAdoption sm.cfg p.checkpoint.height p.checkpoint qc
            (insert bp.validator heard) (sm.macros.collected bp) := by
  have hhash := verifyPartial_names hver
  have hfind := h.found hinj
  rw [← hhash] at hfind
  obtain ⟨b, hb⟩ := h.beacon
  obtain ⟨assign, hassign⟩ := h.flat.subnets b
  obtain ⟨m, hmode, hflat⟩ := h.flat.mode
  have hsigners : (sm.macros.collected bp).signersOf bp.checkpointHash =
      insert bp.validator heard := by
    rw [← h.signers, ← hhash]
    exact signersOf_addSigner _ _ _
  have hmode' : activeMode { sm.macros with
      partialSigs := sm.macros.partialSigs.insert
        (toLex (bp.checkpointHash, bp.validator)) bp.sig } sm.cfg set p.checkpoint.height =
      .ok m := hmode
  have hbeacon : beaconForHeight { sm.macros with
      partialSigs := sm.macros.partialSigs.insert
        (toLex (bp.checkpointHash, bp.validator)) bp.sig } ctx p.checkpoint.height = .ok b := by
    simp only [beaconForHeight, hb]
  refine ⟨m, ?_⟩
  unfold onBlsPartial
  rw [hfind, hset]
  dsimp only
  rw [hver, if_neg (by decide), if_neg (hhash ▸ h.fresh), hmode']
  dsimp only
  rw [hbeacon]
  dsimp only
  rw [hassign]
  dsimp only
  rw [if_neg hflat]
  unfold collectFlat
  rw [if_neg (by simp [hsubnet])]
  dsimp only
  rw [← hhash, ← hsigners]
  rfl

theorem Pursues.stores {heard : Finset ValidatorId} {sm : StateMachine}
    (h : Pursues cr set p v heard sm) {bp : BlsPartial}
    (hver : verifyPartial cr set bp p.checkpoint = true) :
    ∀ u ∈ insert bp.validator heard,
      ∃ sig, (sm.macros.collected bp).partialSigs[toLex (p.checkpoint.hash, u)]? = some sig ∧
        SignedBy cr set p.checkpoint u sig := by
  intro u hu
  simp only [MacroBook.collected, addSigner, verifyPartial_names hver, Maps.get_insert]
  split
  · rename_i heq
    simp only [EmbeddingLike.apply_eq_iff_eq, Prod.mk.injEq, true_and] at heq
    exact ⟨bp.sig, rfl, heq ▸ verifyPartial_spec hver⟩
  · rename_i hne
    cases Finset.mem_insert.mp hu with
    | inl heq => exact absurd (by rw [heq]) hne
    | inr hold => exact h.stored u hold

/-- A partial that completes no quorum for this node is put on record. -/
theorem Pursues.records (hinj : HashInjective cr) {heard : Finset ValidatorId}
    {sm : StateMachine} (h : Pursues cr set p v heard sm) {ctx : HostContext}
    (hset : activeSet ctx = .ok set) {bp : BlsPartial} (hsubnet : bp.subnet = 0)
    (hver : verifyPartial cr set bp p.checkpoint = true)
    (hno : assembles set v (insert bp.validator heard) = false) :
    StateMachine.exec cr (.event (.blsPartialReceived bp), ctx) sm =
        .quiet { sm with macros := sm.macros.collected bp } ∧
      Pursues cr set p v (insert bp.validator heard)
        { sm with macros := sm.macros.collected bp } := by
  have hquiet : onBlsPartial cr sm.cfg ctx bp sm.macros = .quiet (sm.macros.collected bp) := by
    obtain ⟨m, heq⟩ := onBlsPartial_flat hinj h hset hsubnet hver
    rw [heq]
    split
    · rfl
    · rename_i hmin
      have hself : (sm.macros.collected bp).selfId = v := h.flat.selfId
      have hshort : (insert bp.validator heard).card <
          2 * ((set.entries.length - 1) / 3) + 1 := by
        simp only [shouldAssembleQc, hself, Bool.not_eq_true', Bool.not_eq_false,
          decide_eq_true_eq] at hmin
        simpa [assembles, hmin] using hno
      have hnone : tryFinalizeMode0 cr set (sm.macros.collected bp).partialSigs p.checkpoint.hash
          (insert bp.validator heard) = none := by
        unfold tryFinalizeMode0
        dsimp only
        rw [if_pos hshort]
        split <;> rfl
      rw [tryFinalizeFlat_eq, hnone, Option.map_none]
  have hexec : StateMachine.exec cr (.event (.blsPartialReceived bp), ctx) sm =
      .quiet { sm with macros := sm.macros.collected bp } := by
    change sm.onMacros (onBlsPartial cr sm.cfg ctx bp) = _
    rw [StateMachine.onMacros, hquiet]
    rfl
  have hnode := h.flat.next (.event (.blsPartialReceived bp), ctx) (by rw [hexec]; rfl)
  rw [hexec] at hnode
  have hnames := verifyPartial_names hver
  refine ⟨hexec, hnode, h.candidate, h.fresh, h.beacon, ?_, h.stores hver, ?_⟩
  · rw [← h.signers, ← hnames]
    exact signersOf_addSigner _ _ _
  · intro hv
    exact h.willing fun hin => hv (Finset.mem_insert_of_mem hin)

def OverSigners (set : ValidatorSet) (x : Hash32) (signers : Finset ValidatorId) (qc : MacroQc) :
    Prop :=
  qc.checkpointHash = x ∧
    listed set qc.agg.bitmap = set.entries.filter fun e => decide (e.id ∈ signers)

/-- A partial that completes a quorum of which this node is the smallest is answered with
the QC, which the node adopts. -/
theorem Pursues.finishes (hinj : HashInjective cr) (hany : AggregatesAnyOrder cr)
    {heard : Finset ValidatorId} {sm : StateMachine} (h : Pursues cr set p v heard sm)
    {ctx : HostContext} (hset : activeSet ctx = .ok set) {bp : BlsPartial}
    (hsubnet : bp.subnet = 0) (hver : verifyPartial cr set bp p.checkpoint = true)
    (hyes : assembles set v (insert bp.validator heard) = true) :
    ∃ qc, OverSigners set p.checkpoint.hash (insert bp.validator heard) qc ∧
      onBlsPartial cr sm.cfg ctx bp sm.macros =
        finishMacroQcAdoption sm.cfg p.checkpoint.height p.checkpoint qc
          (insert bp.validator heard) (sm.macros.collected bp) := by
  simp only [assembles, Bool.and_eq_true, decide_eq_true_eq] at hyes
  obtain ⟨qc, hqc⟩ := tryFinalizeMode0_total hany hyes.2 (h.stores hver)
  have hself : (sm.macros.collected bp).selfId = v := h.flat.selfId
  have hmin : shouldAssembleQc (sm.macros.collected bp) (insert bp.validator heard) = true := by
    simpa [shouldAssembleQc, hself] using hyes.1
  obtain ⟨m, heq⟩ := onBlsPartial_flat hinj h hset hsubnet hver
  rw [hmin, if_neg (by decide), tryFinalizeFlat_eq, hqc, Option.map_some] at heq
  obtain ⟨-, -, -, -, hlisted⟩ := tryFinalizeMode0_spec hqc
  have hhash := tryFinalizeMode0_hash hqc
  refine ⟨_, ?_, heq⟩
  exact ⟨hhash, hlisted⟩

/-- Settling finality sends notices only, and leaves the modes and the adopted QCs alone. -/
theorem settleFinality_sound (cfg : Config) (book : MacroBook) :
    Outcome.Sound
      (fun b => b.modeBActive = book.modeBActive ∧ b.emittedMacroQc = book.emittedMacroQc)
      (fun a => (∃ w s, a = .notifyInactivityLeak w s) ∨ ∃ b s, a = .updateBlobStatus b s)
      (settleFinality cfg book) :=
  settleFinality_keeps ⟨fun _ _ _ h => h, fun _ _ h => h, fun w s => Or.inl ⟨w, s, rfl⟩,
    fun b => Or.inr ⟨b, _, rfl⟩⟩ ⟨rfl, rfl⟩

theorem finishMacroQcAdoption_sends (cfg : Config) (height : Height) (cand : MacroCheckpoint)
    (qc : MacroQc) (signers : Finset ValidatorId) (book : MacroBook) :
    ∃ acts, (finishMacroQcAdoption cfg height cand qc signers book).actions =
        .broadcastMacroQc qc :: (adoptionActions cand qc ++ acts) ∧
      ∀ a ∈ acts, (∃ w s, a = .notifyInactivityLeak w s) ∨ ∃ b s, a = .updateBlobStatus b s := by
  obtain ⟨-, acts, hacts⟩ := settleFinality_spares cfg
    (adoptCheckpoint height cand qc signers book)
  have hkinds := settleFinality_sound cfg (adoptCheckpoint height cand qc signers book)
  refine ⟨acts, ?_, ?_⟩
  · unfold finishMacroQcAdoption
    rw [Outcome.andThen_of_ok rfl]
    simp [Outcome.actions, hacts, Except.map]
  · intro a ha
    exact hkinds.actions a (by simpa [Outcome.actions, hacts] using ha)

/-- What it leaves of the modes and the adopted QCs. -/
theorem finishMacroQcAdoption_adopts (cfg : Config) (height : Height) (cand : MacroCheckpoint)
    (qc : MacroQc) (signers : Finset ValidatorId) (book : MacroBook) :
    let b := (finishMacroQcAdoption cfg height cand qc signers book).state
    b.modeBActive = book.modeBActive ∧
      b.emittedMacroQc = insert qc.checkpointHash book.emittedMacroQc := by
  have hsettled := (settleFinality_sound cfg (adoptCheckpoint height cand qc signers book)).state
  unfold finishMacroQcAdoption
  rw [Outcome.andThen_of_ok rfl]
  exact hsettled

/- The proposal arrives. -/

def MacroBook.votedOn (book : MacroBook) (ctx : HostContext) (p : MacroProposal)
    (beacon : Hash32) (locks : LockMacro) : MacroBook :=
  let voted := recordVote ctx locks p.checkpoint (book.seeing p beacon)
  { voted with
    partialSigs := book.partialSigs.insert (toLex (p.checkpoint.hash, book.selfId))
      (ctx.signBls .macroCheckpoint (checkpointMessage p.checkpoint)) }

theorem onMacroProposal_votes {cfg : Config} {ctx : HostContext} {book : MacroBook}
    {m : AggregationMode} (hset : activeSet ctx = .ok set)
    (hacc : accepts cr cfg ctx p book = true)
    (hmode : activeMode book cfg set p.checkpoint.height = .ok m) (hflat : m ≠ .modeASubnet)
    (hassign : ∀ beacon, ∃ assign, subnetAssign cfg set beacon = .ok assign) :
    ∃ beacon locks, let voted := book.votedOn ctx p beacon locks
      (onMacroProposal cr cfg ctx p book).state = voted ∧
      (onMacroProposal cr cfg ctx p book).actions =
        selfEvidence voted.votes book.selfId ++ [.broadcastBlsPartial ⟨0, book.selfId,
          p.checkpoint.hash, ctx.signBls .macroCheckpoint (checkpointMessage p.checkpoint)⟩] ++
        [.updateBlobStatus (blobIdOfCheckpoint p.checkpoint) .softConfirmed] := by
  obtain ⟨s, beacon, mode, locks, hs, -, hmode', hcast⟩ := onMacroProposal_casts cr cfg ctx hacc
  rw [hset] at hs
  cases hs
  rw [hmode] at hmode'
  cases hmode'
  obtain ⟨assign, hassign⟩ := hassign beacon
  have hjoin : ∀ (o : Result MacroBook) (k : MacroBook → Result MacroBook),
      o.andThen (fun b => if m = .modeASubnet then k b else .quiet b) = o := by
    intro o k
    exact Outcome.andThen_of_quiet (if_neg hflat)
  refine ⟨beacon, locks, ?_, ?_⟩
  · rw [hcast, castVote, hassign]
    dsimp only
    rw [hjoin]
    rfl
  · have hsubnet : ∀ s, announcePartial ctx m s p.checkpoint =
        announcePartial ctx .mode0Flat 0 p.checkpoint := by
      intro s
      funext b
      simp [announcePartial, hflat]
    rw [hcast, castVote, hassign]
    dsimp only
    rw [hjoin, hsubnet]
    rfl

def Action.isFlatVote (cr : Crypto) (set : ValidatorSet) (cp : MacroCheckpoint) : Action → Prop
  | .broadcastMacroQc _ => False
  | .broadcastBlsPartial bp => bp.subnet = 0 ∧ verifyPartial cr set bp cp = true
  | _ => True

def SignsCheckpoints (cr : Crypto) (set : ValidatorSet) (v : ValidatorId) (ctx : HostContext) :
    Prop :=
  ∀ cp, SignedBy cr set cp v (ctx.signBls .macroCheckpoint (checkpointMessage cp))

/-- A vote for the proposal is a valid flat partial, and leaves QCs and modes alone. -/
theorem FlatNode.votes {sm : StateMachine} (h : FlatNode cr set p v sm) {ctx : HostContext}
    (hset : activeSet ctx = .ok set) (hkey : SignsCheckpoints cr set v ctx)
    (hacc : accepts cr sm.cfg ctx p sm.macros = true) :
    ∃ beacon locks,
      (StateMachine.exec cr (.event (.macroProposalReceived p), ctx) sm).state =
        { sm with macros := sm.macros.votedOn ctx p beacon locks } ∧
      ∀ a ∈ (StateMachine.exec cr (.event (.macroProposalReceived p), ctx) sm).actions,
        a.isFlatVote cr set p.checkpoint := by
  obtain ⟨m, hmode, hflat⟩ := h.mode
  obtain ⟨beacon, locks, hstate, hacts⟩ := onMacroProposal_votes hset hacc hmode hflat h.subnets
  refine ⟨beacon, locks, by rw [← hstate]; rfl, ?_⟩
  change ∀ a ∈ (onMacroProposal cr sm.cfg ctx p sm.macros).actions, _
  rw [hacts]
  intro a ha
  rw [List.mem_append, List.mem_append, List.mem_singleton, List.mem_singleton, or_assoc] at ha
  obtain hev | rfl | rfl := ha
  · exact selfEvidence_all (fun _ => trivial) (fun _ => trivial) a hev
  · obtain ⟨pk, hpk, hver⟩ := hkey p.checkpoint
    refine ⟨rfl, ?_⟩
    simp [verifyPartial, h.selfId, hpk, hver]
  · trivial

theorem Pursues.votes {heard : Finset ValidatorId} {sm : StateMachine}
    (h : Pursues cr set p v heard sm) {ctx : HostContext} (hset : activeSet ctx = .ok set)
    (hkey : SignsCheckpoints cr set v ctx) (hacc : accepts cr sm.cfg ctx p sm.macros = true) :
    Pursues cr set p v (insert v heard)
      (StateMachine.exec cr (.event (.macroProposalReceived p), ctx) sm).state := by
  obtain ⟨beacon, locks, hexec, -⟩ := h.flat.votes hset hkey hacc
  have hself := h.flat.selfId
  have hnode := h.flat.next (.event (.macroProposalReceived p), ctx) (by rw [hexec]; rfl)
  rw [hexec] at hnode ⊢
  refine ⟨hnode, ?_, h.fresh, ⟨beacon, ?_⟩, ?_, ?_, ?_⟩
  · simp [MacroBook.votedOn, recordVote, addSigner]
  · simp [MacroBook.votedOn, MacroBook.seeing, recordVote, addSigner, freezeBeacon]
  · rw [← h.signers, ← hself]
    simp only [MacroBook.votedOn, recordVote]
    exact signersOf_addSigner _ _ _
  · intro u hu
    simp only [MacroBook.votedOn, Maps.get_insert, hself]
    split
    · rename_i heq
      simp only [EmbeddingLike.apply_eq_iff_eq, Prod.mk.injEq, true_and] at heq
      exact ⟨_, rfl, heq ▸ hkey p.checkpoint⟩
    · rename_i hne
      cases Finset.mem_insert.mp hu with
      | inl heq => exact absurd (by rw [heq]) hne
      | inr hold => exact h.stored u hold
  · intro hv
    exact absurd (Finset.mem_insert_self v heard) hv

/-- Whatever the node makes of the proposal, it sends no QC and adopts none. -/
theorem FlatNode.sees {sm : StateMachine} (h : FlatNode cr set p v sm) {ctx : HostContext}
    (hset : activeSet ctx = .ok set) (hkey : SignsCheckpoints cr set v ctx) :
    let o := StateMachine.exec cr (.event (.macroProposalReceived p), ctx) sm
    (∀ a ∈ o.actions, a.isFlatVote cr set p.checkpoint) ∧ FlatNode cr set p v o.state ∧
      o.state.macros.emittedMacroQc = sm.macros.emittedMacroQc := by
  intro o
  cases hacc : accepts cr sm.cfg ctx p sm.macros with
  | true =>
    obtain ⟨beacon, locks, hexec, hacts⟩ := h.votes hset hkey hacc
    refine ⟨hacts, h.next _ ?_, ?_⟩ <;>
      · simp only [o, hexec]
        rfl
  | false =>
    obtain ⟨beacons, rejected, seen, suppressed, hstate, -, hacts⟩ :=
      onMacroProposal_declines cr sm.cfg ctx hacc
    refine ⟨?_, h.next _ ?_, ?_⟩
    · intro a ha
      obtain ⟨ev, rfl⟩ := hacts a ha
      trivial
    · have hmodes := congrArg MacroBook.modeBActive hstate
      exact hmodes
    · have hemitted := congrArg MacroBook.emittedMacroQc hstate
      exact hemitted

/-- Once it has seen the proposal, the own vote is on record. -/
theorem Pursues.sees {heard : Finset ValidatorId} {sm : StateMachine}
    (h : Pursues cr set p v heard sm) {ctx : HostContext} (hset : activeSet ctx = .ok set)
    (hkey : SignsCheckpoints cr set v ctx) (hother : v ≠ p.proposer) :
    Pursues cr set p v (insert v heard)
      (StateMachine.exec cr (.event (.macroProposalReceived p), ctx) sm).state := by
  cases hacc : accepts cr sm.cfg ctx p sm.macros with
  | true => exact h.votes hset hkey hacc
  | false =>
    have hin : v ∈ heard := by
      by_contra hnew
      rw [h.willing hnew hother ctx hset] at hacc
      cases hacc
    have hflat := (h.flat.sees hset hkey).2.1
    obtain ⟨beacons, rejected, seen, suppressed, hstate, hbeacons, -⟩ :=
      onMacroProposal_declines cr sm.cfg ctx hacc
    have hexec : (StateMachine.exec cr (.event (.macroProposalReceived p), ctx) sm).state =
        { sm with macros := { sm.macros with
            candidateBeacon := beacons
            rejectedCrypto := rejected
            proposalsSeen := seen
            suppressedConflicts := suppressed } } := by
      rw [← hstate]
      rfl
    rw [hexec] at hflat ⊢
    rw [Finset.insert_eq_of_mem hin]
    obtain ⟨b, hb⟩ := h.beacon
    exact ⟨hflat, h.candidate, h.fresh, ⟨b, hbeacons b hb⟩, h.signers, h.stored,
      fun hnew => absurd hin hnew⟩

/-- After the adoption, partials on the checkpoint have no effect that is sent. -/
theorem FlatNode.hears_late {sm : StateMachine} (h : FlatNode cr set p v sm)
    {ctx : HostContext} (hset : activeSet ctx = .ok set) {bp : BlsPartial}
    (hdone : bp.checkpointHash ∈ sm.macros.emittedMacroQc) :
    let o := StateMachine.exec cr (.event (.blsPartialReceived bp), ctx) sm
    o.actions = [] ∧ FlatNode cr set p v o.state ∧
      o.state.macros.emittedMacroQc = sm.macros.emittedMacroQc := by
  intro o
  have hquiet : ∃ sigs rejected, onBlsPartial cr sm.cfg ctx bp sm.macros =
      .quiet { sm.macros with partialSigs := sigs, rejectedCrypto := rejected } := by
    unfold onBlsPartial
    split
    · exact ⟨_, _, rfl⟩
    rw [hset]
    dsimp only
    split
    · exact ⟨_, _, rfl⟩
    · exact ⟨_, _, rfl⟩
  obtain ⟨sigs, rejected, hq⟩ := hquiet
  have hexec : o = .quiet { sm with macros :=
      { sm.macros with partialSigs := sigs, rejectedCrypto := rejected } } := by
    change sm.onMacros (onBlsPartial cr sm.cfg ctx bp) = _
    rw [StateMachine.onMacros, hq]
    rfl
  refine ⟨by rw [hexec]; rfl, h.next _ ?_, ?_⟩
  · exact congrArg (fun o : Result StateMachine => o.state.macros.modeBActive) hexec
  · exact congrArg (fun o : Result StateMachine => o.state.macros.emittedMacroQc) hexec

end Node
end LuaDag
