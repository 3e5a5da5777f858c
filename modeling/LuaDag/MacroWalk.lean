import LuaDag.MacroFin

/-! What the handlers of L3 write and send, by kinds. A property of the book that some kinds of
writes keep is kept by every handler that makes no others, and so for what it sends. -/
namespace LuaDag
open MacroFin
open Outcome (Sound)

/- The kinds. -/
section Kinds
variable (P : MacroBook → Prop) (A : Action → Prop)

/-- Counters, beacons, proposals on record, timers that are dropped. -/
structure KeptByNotes : Prop where
  counted : ∀ b rejected suppressed, P b →
    P { b with rejectedCrypto := rejected, suppressedConflicts := suppressed }
  frozen : ∀ b height beacon, P b → P (freezeBeacon height beacon b)
  seen : ∀ b seen, P b → P { b with proposalsSeen := seen }
  backupCleared : ∀ b height, P b → P { b with timers := b.timers.clearBackup height }
  modeBCleared : ∀ b height, P b → P { b with timers := b.timers.clearModeB height }
  accuses : ∀ o ev, A (.emitSlashEvidence o (.macroEquivocation ev))

structure KeptByProposals : Prop where
  proposed : ∀ b height, P b → P { b with proposalSeen := insert height b.proposalSeen }
  proposes : ∀ p, A (.broadcastMacroProposal p)

/-- The ring, the candidates that come of it and the timers that are set. -/
structure KeptByWindows (cr : Crypto) : Prop where
  pushed : ∀ b ring, P b → P { b with microRing := ring }
  installed : ∀ b, P b → P (installCandidate cr b)
  armed : ∀ b timers, P b → P { b with timers := timers }
  schedules : ∀ id delay, A (.scheduleTimer id delay)

/-- The partials on record. -/
structure KeptByRecords : Prop where
  signed : ∀ b sigs, P b → P { b with partialSigs := sigs }
  counted : ∀ b h v, P b → P (addSigner h v b)

structure KeptByVotes : Prop where
  recorded : ∀ ctx b locks cp, P b → P (recordVote ctx locks cp b)
  activated : ∀ b modes, P b → P { b with modeBActive := modes }
  locked : ∀ b locks, P b → P { b with locks := locks }
  surround : ∀ self ev, A (.emitSlashEvidence self (.surround ev))
  doubleVote : ∀ self ev, A (.emitSlashEvidence self (.doubleVote ev))
  announces : ∀ bp, A (.broadcastBlsPartial bp)
  confirms : ∀ blob, A (.updateBlobStatus blob .softConfirmed)

structure KeptBySubnets : Prop where
  joined : ∀ b members, P b → P { b with subnetPartials := members }
  stored : ∀ b aggs, P b → P { b with subnetAggs := aggs }
  aggregates : ∀ agg, A (.broadcastSubnetAggregate agg)

structure KeptByFinality : Prop where
  accounted : ∀ b windows notified, P b →
    P { b with unfinalizedWindows := windows, leakNotified := notified }
  finalized : ∀ b prev, P b → P { b with twoChain := b.twoChain.markFinalized prev }
  notifies : ∀ windows bps, A (.notifyInactivityLeak windows bps)
  finalizes : ∀ blob, A (.updateBlobStatus blob .finalized)

structure KeptByAdoptions : Prop extends KeptByFinality P A where
  adopted : ∀ b height cand qc signers, P b → P (adoptCheckpoint height cand qc signers b)
  broadcasts : ∀ qc, A (.broadcastMacroQc qc)
  persists : ∀ cand qc, ∀ a ∈ adoptionActions cand qc, A a

end Kinds

namespace MacroFin
section Walk
variable {P : MacroBook → Prop} {A : Action → Prop} {cr : Crypto} {cfg : Config}
  {ctx : HostContext} {b : MacroBook}

/- Adoptions. -/

theorem settleFinality_keeps (hf : KeptByFinality P A) (hb : P b) :
    Sound P A (settleFinality cfg b) := by
  unfold settleFinality
  refine Sound.andThen ?_ ?_
  · unfold noteInactivityLeakOnAdoption
    dsimp only
    split
    · exact Sound.quiet (hf.accounted b _ _ hb)
    split
    · exact Sound.ok (hf.accounted b _ _ hb) (by simp [hf.notifies])
    · exact Sound.quiet (hf.accounted b _ b.leakNotified hb)
  · intro hnext
    split
    · exact Sound.quiet hnext
    · refine Sound.ok (hf.finalized _ _ hnext) ?_
      intro a hmem
      obtain ⟨cp, -, rfl⟩ := Option.map_eq_some_iff.mp (Option.mem_toList.mp hmem)
      exact hf.finalizes _

theorem finishMacroQcAdoption_keeps (ha : KeptByAdoptions P A) (height : Height)
    (cand : MacroCheckpoint) (qc : MacroQc) (signers : Finset ValidatorId) (hb : P b) :
    Sound P A (finishMacroQcAdoption cfg height cand qc signers b) := by
  refine Sound.andThen (Sound.ok (ha.adopted b height cand qc signers hb) ?_) fun hnext =>
    settleFinality_keeps ha.toKeptByFinality hnext
  intro a hmem
  cases List.mem_cons.mp hmem with
  | inl heq => exact heq ▸ ha.broadcasts qc
  | inr hrest => exact ha.persists cand qc a hrest

theorem tryEmitModeAQc_keeps (ha : KeptByAdoptions P A) (hash : Hash32) (height : Height)
    (hb : P b) : Sound P A (tryEmitModeAQc cr cfg ctx hash height b) := by
  unfold tryEmitModeAQc
  dsimp only
  split
  · exact Sound.fail _ hb
  split
  · exact Sound.quiet hb
  split
  · exact Sound.fail _ hb
  split
  · exact Sound.fail _ hb
  split
  · exact Sound.quiet hb
  split
  · exact Sound.quiet hb
  split
  · exact Sound.quiet hb
  split
  · exact Sound.fail _ hb
  · exact finishMacroQcAdoption_keeps ha _ _ _ _ hb

/- Windows. -/

theorem propose_keeps (hp : KeptByProposals P A) (beacon : Hash32) (height : Height)
    (cand : MacroCheckpoint) (hb : P b) : Sound P A (propose ctx beacon height cand b) := by
  unfold propose
  split
  · exact Sound.fail _ hb
  · exact ⟨hp.proposed b height hb, by simp [Outcome.actions, hp.proposes]⟩

theorem takeRole_keeps (hp : KeptByProposals P A) (hw : KeptByWindows P A cr)
    (set : ValidatorSet) (beacon : Hash32) (height : Height) (cand : MacroCheckpoint) (hb : P b) :
    Sound P A (takeRole cr cfg ctx set beacon height cand b) := by
  unfold takeRole
  split
  · exact Sound.fail _ hb
  split
  · exact propose_keeps hp beacon height cand hb
  split
  · exact Sound.ok (hw.armed b _ hb) (by simp [MacroTimerBook.backupProposeAction, hw.schedules])
  · exact Sound.quiet hb

theorem armModeB_keeps (hw : KeptByWindows P A cr) (height : Height) (hb : P b) :
    Sound P A (armModeB cfg height b) := by
  unfold armModeB
  split
  · exact Sound.quiet hb
  · exact Sound.ok (hw.armed b _ hb) (by simp [MacroTimerBook.modeBDeadlineAction, hw.schedules])

theorem pushMicroQc_keeps (hn : KeptByNotes P A) (hp : KeptByProposals P A)
    (hw : KeptByWindows P A cr) (set : ValidatorSet) (h : Hash32) (hb : P b) :
    Sound P A (pushMicroQc cr cfg ctx set h b) := by
  have hpushed := hw.pushed b (b.microRing ++ [h]) hb
  unfold pushMicroQc
  dsimp only
  split
  · exact Sound.quiet hpushed
  have hinstalled := hw.installed _ hpushed
  unfold closeWindow
  dsimp only
  split
  · exact Sound.fail _ hinstalled
  · exact Sound.andThen (takeRole_keeps hp hw set _ _ _ (hn.frozen _ _ _ hinstalled))
      fun hnext => armModeB_keeps hw _ hnext

theorem onLocalMicroQcs_keeps (hn : KeptByNotes P A) (hp : KeptByProposals P A)
    (hw : KeptByWindows P A cr) (acts : List Action) (hb : P b) :
    Sound P A (onLocalMicroQcs cr cfg ctx acts b) := by
  unfold onLocalMicroQcs
  split
  · exact Sound.quiet hb
  split
  · exact Sound.fail _ hb
  rename_i set _
  have hfold : ∀ (hs : List Hash32) (o : Result MacroBook), Sound P A o →
      Sound P A (hs.foldl (fun o h => o.andThen (pushMicroQc cr cfg ctx set h)) o) := by
    intro hs
    induction hs with
    | nil => exact fun o ho => ho
    | cons h hs ih =>
      intro o ho
      exact ih _ (ho.andThen fun hnext => pushMicroQc_keeps hn hp hw set h hnext)
  exact hfold _ _ (Sound.quiet hb)

/- Votes. -/

theorem joinSubnet_keeps (hs : KeptBySubnets P A) (set : ValidatorSet) (assign : SubnetAssign)
    (hash : Hash32) (subnet : SubnetId) (signer : ValidatorId) (hb : P b) :
    Sound P A (joinSubnet cr set assign hash subnet signer b) := by
  unfold joinSubnet
  dsimp only
  split
  · exact Sound.quiet (hs.joined b _ hb)
  split
  · exact Sound.ok (hs.joined b _ hb) (by simp [hs.aggregates])
  · exact Sound.quiet (hs.joined b _ hb)

theorem announcePartial_keeps (hr : KeptByRecords P) (hv : KeptByVotes P A)
    (mode : AggregationMode) (subnet : SubnetId) (cp : MacroCheckpoint) (hb : P b) :
    Sound P A (announcePartial ctx mode subnet cp b) :=
  ⟨hr.signed b _ hb, by simp [announcePartial, Outcome.actions, hv.announces]⟩

/-- Evidence against this node is about surrounds and double votes. -/
theorem selfEvidence_all {votes : VoteBook} {self : ValidatorId}
    (hsurround : ∀ ev, A (.emitSlashEvidence self (.surround ev)))
    (hdouble : ∀ ev, A (.emitSlashEvidence self (.doubleVote ev))) :
    ∀ a ∈ selfEvidence votes self, A a := by
  intro a hmem
  cases List.mem_append.mp hmem with
  | inl hl =>
    obtain ⟨ev, -, rfl⟩ := Option.map_eq_some_iff.mp (Option.mem_toList.mp hl)
    exact hsurround ev
  | inr hr =>
    obtain ⟨ev, -, rfl⟩ := Option.map_eq_some_iff.mp (Option.mem_toList.mp hr)
    exact hdouble ev

theorem castVote_keeps (hr : KeptByRecords P) (hv : KeptByVotes P A) (hs : KeptBySubnets P A)
    (set : ValidatorSet) (beacon : Hash32) (mode : AggregationMode) (locks : LockMacro)
    (cp : MacroCheckpoint) (hb : P b) :
    Sound P A (castVote cr cfg ctx set beacon mode locks cp b) := by
  have hvoted := hv.recorded ctx b locks cp hb
  unfold castVote
  dsimp only
  split
  · exact ⟨hvoted, by simp [Outcome.actions]⟩
  have hself := @selfEvidence_all _ (recordVote ctx locks cp b).votes
    (recordVote ctx locks cp b).selfId (hv.surround _) (hv.doubleVote _)
  refine Sound.andThen (Sound.andThen (Sound.andThen ⟨hvoted, hself⟩
    fun hnext => announcePartial_keeps hr hv _ _ _ hnext) fun hnext => ?_) fun hnext => ?_
  · exact Sound.ok hnext (by simp [hv.confirms])
  · split
    · exact joinSubnet_keeps hs _ _ _ _ _ hnext
    · exact Sound.quiet hnext

theorem considerProposal_keeps (hn : KeptByNotes P A) (hr : KeptByRecords P)
    (hv : KeptByVotes P A) (hs : KeptBySubnets P A) (set : ValidatorSet) (beacon : Hash32)
    (p : MacroProposal) (hb : P b) :
    Sound P A (considerProposal cr cfg ctx set beacon p b) := by
  unfold considerProposal
  dsimp only
  split
  · exact Sound.fail _ hb
  split
  · exact Sound.fail _ hb
  split
  · exact Sound.quiet hb
  split
  · exact Sound.quiet hb
  split
  · exact Sound.quiet hb
  split
  · exact Sound.quiet (hn.counted b b.rejectedCrypto _ hb)
  · exact castVote_keeps hr hv hs _ _ _ _ _ hb

theorem onMacroProposal_keeps (hn : KeptByNotes P A) (hr : KeptByRecords P)
    (hv : KeptByVotes P A) (hs : KeptBySubnets P A) (p : MacroProposal) (hb : P b) :
    Sound P A (onMacroProposal cr cfg ctx p b) := by
  unfold onMacroProposal
  dsimp only
  split
  · exact Sound.fail _ hb
  split
  · exact Sound.fail _ hb
  rename_i beacon _
  have hfrozen := hn.frozen b p.checkpoint.height beacon hb
  split
  · exact Sound.quiet (hn.counted _ _ b.suppressedConflicts hfrozen)
  split
  · split
    · exact Sound.ok hfrozen (by simp [hn.accuses])
    · exact Sound.quiet hfrozen
  · exact considerProposal_keeps hn hr hv hs _ _ p (hn.seen _ _ hfrozen)

/- Partials, aggregates and QCs. -/

theorem collectSubnet_keeps (hr : KeptByRecords P) (hs : KeptBySubnets P A)
    (ha : KeptByAdoptions P A) (set : ValidatorSet) (beacon : Hash32) (assign : SubnetAssign)
    (height : Height) (bp : BlsPartial) (hb : P b) :
    Sound P A (collectSubnet cr cfg ctx set beacon assign height bp b) := by
  refine Sound.andThen (joinSubnet_keeps hs set assign _ _ _ (hr.counted b _ _ hb)) ?_
  intro hnext
  split
  · exact Sound.fail _ hnext
  split
  · exact tryEmitModeAQc_keeps ha _ _ hnext
  · exact Sound.quiet hnext

theorem collectFlat_keeps (hr : KeptByRecords P) (ha : KeptByAdoptions P A) (set : ValidatorSet)
    (mode : AggregationMode) (height : Height) (cand : MacroCheckpoint) (bp : BlsPartial)
    (hb : P b) : Sound P A (collectFlat cr cfg set mode height cand bp b) := by
  have hadded := hr.counted b bp.checkpointHash bp.validator hb
  unfold collectFlat
  dsimp only
  split
  · exact Sound.quiet hb
  split
  · exact Sound.quiet hadded
  split
  · exact Sound.quiet hadded
  · exact finishMacroQcAdoption_keeps ha _ _ _ _ hadded

theorem onBlsPartial_keeps (hn : KeptByNotes P A) (hr : KeptByRecords P)
    (hs : KeptBySubnets P A) (ha : KeptByAdoptions P A) (bp : BlsPartial) (hb : P b) :
    Sound P A (onBlsPartial cr cfg ctx bp b) := by
  unfold onBlsPartial
  dsimp only
  split
  · exact Sound.quiet hb
  split
  · exact Sound.fail _ hb
  split
  · exact Sound.quiet (hn.counted b _ b.suppressedConflicts hb)
  have hsigned := hr.signed b
    (b.partialSigs.insert (toLex (bp.checkpointHash, bp.validator)) bp.sig) hb
  split
  · exact Sound.quiet hsigned
  split
  · exact Sound.fail _ hsigned
  split
  · exact Sound.fail _ hsigned
  split
  · exact Sound.fail _ hsigned
  split
  · exact collectSubnet_keeps hr hs ha _ _ _ _ bp hsigned
  · exact collectFlat_keeps hr ha _ _ _ _ bp hsigned

theorem onMacroQcReceived_keeps (hn : KeptByNotes P A) (ha : KeptByAdoptions P A) (qc : MacroQc)
    (hb : P b) : Sound P A (onMacroQcReceived cr cfg ctx qc b) := by
  unfold onMacroQcReceived
  split
  · exact Sound.quiet hb
  split
  · exact Sound.fail _ hb
  split
  · exact Sound.quiet hb
  split
  · exact Sound.quiet (hn.counted b _ b.suppressedConflicts hb)
  · rename_i height cand _ _
    exact Sound.andThen (Sound.ok (ha.adopted b height cand qc _ hb) (ha.persists cand qc))
      fun hnext => settleFinality_keeps ha.toKeptByFinality hnext

theorem onSubnetAggregate_keeps (hn : KeptByNotes P A) (hs : KeptBySubnets P A)
    (ha : KeptByAdoptions P A) (agg : SubnetAggregate) (hb : P b) :
    Sound P A (onSubnetAggregate cr cfg ctx agg b) := by
  unfold onSubnetAggregate
  dsimp only
  split
  · exact Sound.quiet hb
  split
  · exact Sound.fail _ hb
  split
  · exact Sound.quiet (hn.counted b _ b.suppressedConflicts hb)
  · exact tryEmitModeAQc_keeps ha _ _ (hs.stored b _ hb)

/- Timers. -/

theorem onBackupTimer_keeps (hn : KeptByNotes P A) (hp : KeptByProposals P A) (height : Height)
    (hb : P b) : Sound P A (onBackupTimer cr ctx height b) := by
  have hcleared := hn.backupCleared b height hb
  unfold onBackupTimer
  dsimp only
  split
  · exact Sound.quiet hcleared
  split
  · exact Sound.quiet hcleared
  split
  · exact Sound.fail _ hcleared
  split
  · exact Sound.fail _ hcleared
  split
  · exact Sound.fail _ hcleared
  split
  · exact propose_keeps hp _ _ _ hcleared
  · exact Sound.quiet hcleared

theorem castModeBVote_keeps (hr : KeptByRecords P) (hv : KeptByVotes P A) (height : Height)
    (cp : MacroCheckpoint) (hb : P b) : Sound P A (castModeBVote cr cfg ctx height cp b) := by
  unfold castModeBVote
  split
  · exact Sound.fail _ hb
  split
  · exact Sound.fail _ hb
  split
  · exact Sound.fail _ hb
  split
  · exact Sound.fail _ hb
  · exact announcePartial_keeps hr hv _ _ _ (hr.counted b _ _ hb)

theorem onModeBTimer_keeps (hn : KeptByNotes P A) (hr : KeptByRecords P) (hv : KeptByVotes P A)
    (height : Height) (hb : P b) : Sound P A (onModeBTimer cr cfg ctx height b) := by
  have hcleared := hn.modeBCleared b height hb
  unfold onModeBTimer
  extract_lets cleared done active
  have hactive : P active := by
    simp only [active]
    split
    · exact hcleared
    · exact hv.activated _ _ hcleared
  split
  · exact Sound.quiet hactive
  split
  · exact Sound.quiet hactive
  split
  · exact Sound.quiet hactive
  · exact castModeBVote_keeps hr hv _ _ (hv.locked _ _ hactive)

theorem onTimerFired_keeps (hn : KeptByNotes P A) (hp : KeptByProposals P A)
    (hr : KeptByRecords P) (hv : KeptByVotes P A) (id : TimerId) (hb : P b) :
    Sound P A (onTimerFired cr cfg ctx id b) := by
  unfold onTimerFired
  split
  · exact onBackupTimer_keeps hn hp _ hb
  split
  · exact onModeBTimer_keeps hn hr hv _ hb
  · exact Sound.quiet hb

end Walk
end MacroFin
end LuaDag
