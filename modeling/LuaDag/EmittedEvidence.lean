import LuaDag.Evidence
import LuaDag.CertProduction
import LuaDag.SlashScans

/-! Evidence that a node emits, against what the verifier asks for. -/
namespace LuaDag
open VertexCert MacroFin Slashing

def Accepted (cr : Crypto) (set : ValidatorSet) (offender : ValidatorId) (ev : SlashEvidence) :
    Prop :=
  ev.accused = offender ∧ verifyEvidence cr set ev = .ok ()

/- Where evidence comes from. -/
section Sources
variable {cr : Crypto} {call : NodeCall}

def SameRecords (c d : MacroCore) : Prop :=
  d.proposalsSeen = c.proposalsSeen ∧ d.votes = c.votes ∧ d.selfId = c.selfId

theorem SameRecords.trans {c d e : MacroCore} (h : SameRecords c d) (h' : SameRecords d e) :
    SameRecords c e :=
  ⟨h'.1.trans h.1, h'.2.1.trans h.2.1, h'.2.2.trans h.2.2⟩

def NoMacroEvidence (acts : List Action) : Prop :=
  ∀ offender ev, Action.emitSlashEvidence offender ev ∈ acts → ∃ e, ev = .vertexEquivocation e

theorem NoMacroEvidence.append {as bs : List Action} (ha : NoMacroEvidence as)
    (hb : NoMacroEvidence bs) : NoMacroEvidence (as ++ bs) := fun offender ev h =>
  (List.mem_append.mp h).elim (ha offender ev) (hb offender ev)

theorem noMacroEvidence_traffic {acts : List Action}
    (h : ∀ a ∈ acts, a.isMacroTraffic = true) : NoMacroEvidence acts := by
  intro offender ev hmem
  have htraffic := h _ hmem
  cases htraffic

theorem noMacroEvidence_other {acts : List Action} (h : ∀ a ∈ acts, a.isDecision = false) :
    NoMacroEvidence acts := by
  intro offender ev hmem
  have hno := h _ hmem
  cases ev with
  | vertexEquivocation e => exact ⟨e, rfl⟩
  | _ => cases hno

theorem move_silent (hev : ∀ p, call.event ≠ some (.macroProposalReceived p)) {c d : MacroCore}
    {sg : List SignReq} {acts : List Action} (h : Move cr call c sg acts d) :
    SameRecords c d ∧ NoMacroEvidence acts := by
  cases h with
  | plain acts hacts => exact ⟨⟨rfl, rfl, rfl⟩, noMacroEvidence_traffic hacts⟩
  | arm id acts hacts => exact ⟨⟨rfl, rfl, rfl⟩, noMacroEvidence_traffic hacts⟩
  | see p hp => exact absurd hp (hev p)
  | accuse p q ev hp hq hne => exact absurd hp (hev p)
  | recordVote p old locks hp => exact absurd hp (hev p)
  | _ => exact ⟨⟨rfl, rfl, rfl⟩, by simp [NoMacroEvidence]⟩

theorem adopt_silent {c d : MacroCore} {acts : List Action} (h : Adopt cr call c acts d) :
    SameRecords c d ∧ NoMacroEvidence acts := by
  cases h with
  | mk set height cand qc own leak hset hpre hnew hc hnames hqc hleak =>
    refine ⟨⟨rfl, rfl, rfl⟩, ?_⟩
    have hown : NoMacroEvidence (if own then [.broadcastMacroQc qc] else []) := by
      cases own <;> simp [NoMacroEvidence]
    have hfinal : NoMacroEvidence (c.finalizedActions (c.twoChain.adopt cand)) := by
      unfold MacroCore.finalizedActions
      split
      · simp [NoMacroEvidence]
      · intro offender ev hmem
        obtain ⟨cp, -, heq⟩ := Option.map_eq_some_iff.mp (Option.mem_toList.mp hmem)
        cases heq
    exact ((hown.append (by simp [NoMacroEvidence, adoptionActions])).append
      (noMacroEvidence_traffic hleak)).append hfinal

/-- Evidence of L3 is emitted, and its records change, on macro proposals only. -/
theorem macro_sources (hev : ∀ p, call.event ≠ some (.macroProposalReceived p)) :
    SameRecords call.pre.macros.core
        (StateMachine.exec cr call.input call.pre).state.macros.core ∧
      NoMacroEvidence (StateMachine.exec cr call.input call.pre).actions := by
  have hpath : ∀ {c d : MacroCore} {sg : List SignReq} {acts : List Action},
      Simulation.Moves (NodeMove cr call) c sg acts d →
        SameRecords c d ∧ NoMacroEvidence acts := by
    intro c d sg acts h
    refine h.invariant (P := fun _ as e => SameRecords c e ∧ NoMacroEvidence as)
      (R := fun _ => True) ?_ (fun _ _ => trivial) [] [] ⟨⟨rfl, rfl, rfl⟩, by
        simp [NoMacroEvidence]⟩
    intro _ as e _ as' e' _ hm hp
    cases hm with
    | own hmove =>
      have hstep := move_silent hev hmove
      exact ⟨hp.1.trans hstep.1, hp.2.append hstep.2⟩
    | other _ hacts => exact ⟨hp.1, hp.2.append (noMacroEvidence_other hacts)⟩
  cases exec_handled cr call with
  | inl hs =>
    obtain ⟨acts, hmoves, hacts⟩ := hs.actions
    have h := hpath hmoves
    exact ⟨h.1, fun offender ev hmem => h.2 offender ev (hacts _ hmem)⟩
  | inr ha =>
    obtain ⟨acts, d, acts', hmoves, hadopt, hres⟩ := ha
    have h := hpath hmoves
    have h' := adopt_silent hadopt
    refine ⟨h.1.trans h'.1, ?_⟩
    simp only [Outcome.actions, hres]
    exact h.2.append h'.2

theorem vertex_sources (hev : ∀ p, call.event ≠ some (.vertexProposalReceived p))
    (offender : ValidatorId) (ev : VertexEquivocation) :
    Action.emitSlashEvidence offender (.vertexEquivocation ev) ∉
      (StateMachine.exec cr call.input call.pre).actions := by
  intro hmem
  obtain ⟨acts, hmoves, hacts⟩ := (exec_vertices cr call).actions
  have hall := hmoves.forall_of_move (R := fun _ => True)
    (A := fun a => a ≠ Action.emitSlashEvidence offender (.vertexEquivocation ev)) ?_
  · exact hall.2 _ (hacts _ hmem) rfl
  intro c sg as d hm
  refine ⟨fun _ _ => trivial, ?_⟩
  rintro a ha rfl
  cases hm with
  | other _ hnews => cases hnews _ ha
  | own hmove =>
    cases hmove with
    | traffic acts' htraffic => cases htraffic _ ha
    | accuse p q ev' hp => exact absurd hp (hev p)
    | propose p acts' hself hround htraffic =>
      cases List.mem_append.mp ha with
      | inl hl => cases htraffic _ hl
      | inr hr => simp at hr
    | _ => simp at ha

end Sources

/- The records of L3. -/
section Macro
variable {cr : Crypto} {set : ValidatorSet} {me : ValidatorId}

def SignsAs (cr : Crypto) (set : ValidatorSet) (me : ValidatorId)
    (sign : Dst → Bytes → BlsSig) : Prop :=
  ∃ pk, pkFor cr set me = some pk ∧ ∀ dst msg, cr.verify pk dst msg (sign dst msg) = true

def ProposalSigned (cr : Crypto) (set : ValidatorSet) (p : MacroProposal) : Prop :=
  ∃ pk, pkFor cr set p.proposer = some pk ∧
    cr.verify pk .macroProposerSig (proposerMessage p.proposer p.checkpoint) p.proposerSig = true

def VoteSigned (cr : Crypto) (set : ValidatorSet) (me : ValidatorId) (r : VoteRecord) : Prop :=
  r.source = r.target - 1 ∧ ∃ pk, pkFor cr set me = some pk ∧
    cr.verify pk .macroVote (voteMessage r) r.sig = true

structure SoundRecords (cr : Crypto) (set : ValidatorSet) (me : ValidatorId) (c : MacroCore) :
    Prop where
  selfId : c.selfId = me
  seen : ∀ (k : Height ×ₗ ValidatorId) (ps : List MacroProposal), c.proposalsSeen[k]? = some ps →
    ∃ p, ps = [p] ∧ k = toLex (p.checkpoint.height, p.proposer) ∧ ProposalSigned cr set p
  votes : ∀ r ∈ c.votes.votesOf me, VoteSigned cr set me r

theorem SoundRecords.same {c d : MacroCore} (h : SoundRecords cr set me c)
    (hsame : SameRecords c d) : SoundRecords cr set me d := by
  obtain ⟨hid, hseen, hvotes⟩ := h
  obtain ⟨hs, hv, hi⟩ := hsame
  exact ⟨hi.trans hid, hs ▸ hseen, hv ▸ hvotes⟩

theorem verifyProposal_signed {p : MacroProposal} {alpha : Bytes}
    (h : MacroFin.verifyProposal cr set p alpha = true) : ProposalSigned cr set p := by
  unfold MacroFin.verifyProposal at h
  cases hentry : entryFor set p.proposer with
  | none =>
    rw [hentry] at h
    cases h
  | some entry =>
    rw [hentry] at h
    dsimp only at h
    cases hpk : cr.pkFromBytes entry.blsPubkey with
    | none =>
      rw [hpk] at h
      cases h
    | some pk =>
      rw [hpk] at h
      dsimp only at h
      rw [Bool.and_eq_true] at h
      exact ⟨pk, by simp [pkFor, hentry, hpk], h.1⟩

theorem surround_accepted {votes : VoteBook} (hvotes : ∀ r ∈ votes.votesOf me,
    VoteSigned cr set me r) {ev : SurroundVote} (h : scanForSurround votes me = some ev) :
    Accepted cr set me (.surround ev) := by
  rw [scanForSurround_eq] at h
  obtain ⟨new, hnew, old, hold, hf⟩ := newest_some h
  obtain ⟨-, pk, hpk, hvnew⟩ := hvotes new hnew
  obtain ⟨-, pk', hpk', hvold⟩ := hvotes old hold
  cases hpk.symm.trans hpk'
  cases surroundHit_some hf with
  | inl hsur =>
    obtain ⟨hsur, rfl⟩ := hsur
    exact ⟨rfl, verifySurround_ok hsur hpk (by simpa using ⟨hvnew, hvold⟩)⟩
  | inr hsur =>
    obtain ⟨hsur, rfl⟩ := hsur
    exact ⟨rfl, verifySurround_ok hsur hpk (by simpa using ⟨hvold, hvnew⟩)⟩

theorem doubleVote_accepted {votes : VoteBook} (hvotes : ∀ r ∈ votes.votesOf me,
    VoteSigned cr set me r) {ev : DoubleVote} (h : scanForDoubleVote votes me = some ev) :
    Accepted cr set me (.doubleVote ev) := by
  rw [scanForDoubleVote_eq] at h
  obtain ⟨new, hnew, old, hold, hf⟩ := newest_some h
  obtain ⟨hsnew, pk, hpk, hvnew⟩ := hvotes new hnew
  obtain ⟨hsold, pk', hpk', hvold⟩ := hvotes old hold
  cases hpk.symm.trans hpk'
  obtain ⟨hdouble, rfl⟩ := doubleVoteHit_some hf
  -- the source that the verifier puts in is the one the vote was signed with
  have hvold' : cr.verify pk .macroVote (voteMessage
      ⟨new.target - 1, new.target, old.checkpoint, old.sig⟩) old.sig = true := by
    rw [voteMessage, hsold, hdouble.1] at hvold
    exact hvold
  have hvnew' : cr.verify pk .macroVote (voteMessage
      ⟨new.target - 1, new.target, new.checkpoint, new.sig⟩) new.sig = true := by
    rw [voteMessage, hsnew] at hvnew
    exact hvnew
  exact ⟨rfl, verifyDoubleVote_ok hdouble.2 hpk (by simpa using ⟨hvold', hvnew'⟩)⟩

theorem selfEvidence_accepted {votes : VoteBook} (hvotes : ∀ r ∈ votes.votesOf me,
    VoteSigned cr set me r) {offender : ValidatorId} {ev : SlashEvidence}
    (h : Action.emitSlashEvidence offender ev ∈ selfEvidence votes me) :
    Accepted cr set offender ev := by
  cases List.mem_append.mp h with
  | inl hl =>
    obtain ⟨e, he, heq⟩ := Option.map_eq_some_iff.mp (Option.mem_toList.mp hl)
    cases heq
    exact surround_accepted hvotes he
  | inr hr =>
    obtain ⟨e, he, heq⟩ := Option.map_eq_some_iff.mp (Option.mem_toList.mp hr)
    cases heq
    exact doubleVote_accepted hvotes he

/-- An action that is no evidence, or evidence that the verifier takes. -/
def TakenIfEvidence (cr : Crypto) (set : ValidatorSet) (a : Action) : Prop :=
  ∀ offender ev, a = .emitSlashEvidence offender ev → Accepted cr set offender ev

def Reports (cr : Crypto) (set : ValidatorSet) (me : ValidatorId) (o : Result MacroBook) : Prop :=
  Outcome.Sound (fun b : MacroBook => SoundRecords cr set me b.core) (TakenIfEvidence cr set) o

theorem Reports.of_silent {b : MacroBook} {o : Result MacroBook}
    (h : SoundRecords cr set me b.core) (hsame : SameRecords b.core o.state.core)
    (hacts : ∀ offender ev, Action.emitSlashEvidence offender ev ∉ o.actions) :
    Reports cr set me o :=
  ⟨h.same hsame, fun _ ha offender ev heq => absurd (heq ▸ ha) (hacts offender ev)⟩

section Vote
variable {cfg : Config} {ctx : HostContext}

theorem joinSubnet_reports {b : MacroBook} (h : SoundRecords cr set me b.core)
    (set' : ValidatorSet) (assign : SubnetAssign) (hash : Hash32) (subnet : SubnetId)
    (v : ValidatorId) : Reports cr set me (joinSubnet cr set' assign hash subnet v b) := by
  unfold joinSubnet
  dsimp only
  split
  · exact Reports.of_silent h ⟨rfl, rfl, rfl⟩ (by simp)
  split
  · exact Reports.of_silent h ⟨rfl, rfl, rfl⟩ (by simp)
  · exact Reports.of_silent h ⟨rfl, rfl, rfl⟩ (by simp)

theorem recordVote_sound {b : MacroBook} (h : SoundRecords cr set me b.core)
    (hkey : SignsAs cr set me ctx.signBls) (locks : LockMacro) (cp : MacroCheckpoint) :
    SoundRecords cr set me (recordVote ctx locks cp b).core := by
  have hid : b.selfId = me := h.selfId
  obtain ⟨pk, hpk, hsign⟩ := hkey
  refine ⟨hid, h.seen, ?_⟩
  intro r hr
  have hmem : r ∈ b.votes.votesOf me ++ [voteRecord ctx cp.height cp.hash] := by
    have hvotes : (recordVote ctx locks cp b).core.votes =
      b.votes.record me (voteRecord ctx cp.height cp.hash) := by rw [← hid]; rfl
    rw [hvotes] at hr
    simpa [VoteBook.record, VoteBook.votesOf] using hr
  cases List.mem_append.mp hmem with
  | inl hold => exact h.votes r hold
  | inr hnew =>
    rw [List.mem_singleton.mp hnew]
    exact ⟨rfl, pk, hpk, hsign _ _⟩

theorem castVote_reports {b : MacroBook} (h : SoundRecords cr set me b.core)
    (hkey : SignsAs cr set me ctx.signBls) (set' : ValidatorSet) (beacon : Hash32)
    (mode : AggregationMode) (locks : LockMacro) (cp : MacroCheckpoint) :
    Reports cr set me (castVote cr cfg ctx set' beacon mode locks cp b) := by
  have hvoted := recordVote_sound h hkey locks cp
  unfold castVote
  dsimp only
  split
  · exact ⟨hvoted, by simp [Outcome.actions]⟩
  refine Outcome.Sound.andThen (Outcome.Sound.andThen (Outcome.Sound.andThen ⟨hvoted, ?_⟩ ?_)
    ?_) ?_
  · rintro a hmem offender ev rfl
    have hid : (recordVote ctx locks cp b).selfId = me := hvoted.selfId
    simp only [Outcome.actions, hid] at hmem
    exact selfEvidence_accepted hvoted.votes hmem
  · intro hrec
    exact Reports.of_silent hrec ⟨rfl, rfl, rfl⟩ (by simp [announcePartial, Outcome.actions])
  · intro hrec
    exact Reports.of_silent hrec ⟨rfl, rfl, rfl⟩ (by simp)
  · intro hrec
    split
    · exact joinSubnet_reports hrec _ _ _ _ _
    · exact Reports.of_silent hrec ⟨rfl, rfl, rfl⟩ (by simp)

theorem considerProposal_reports {b : MacroBook} (h : SoundRecords cr set me b.core)
    (hkey : SignsAs cr set me ctx.signBls) (set' : ValidatorSet) (beacon : Hash32)
    (p : MacroProposal) :
    Reports cr set me (considerProposal cr cfg ctx set' beacon p b) := by
  unfold considerProposal
  dsimp only
  split
  · exact Reports.of_silent h ⟨rfl, rfl, rfl⟩ (by simp)
  split
  · exact Reports.of_silent h ⟨rfl, rfl, rfl⟩ (by simp)
  split
  · exact Reports.of_silent h ⟨rfl, rfl, rfl⟩ (by simp)
  split
  · exact Reports.of_silent h ⟨rfl, rfl, rfl⟩ (by simp)
  split
  · exact Reports.of_silent h ⟨rfl, rfl, rfl⟩ (by simp)
  split
  · exact Reports.of_silent h ⟨rfl, rfl, rfl⟩ (by simp)
  · exact castVote_reports h hkey _ _ _ _ _

/-- A proposal is kept once it is verified, and evidence is made of two kept in this way. -/
theorem onMacroProposal_reports {b : MacroBook} (h : SoundRecords cr set me b.core)
    (hkey : SignsAs cr set me ctx.signBls)
    (hset : ∀ s, activeSet ctx = .ok s → s = set) (p : MacroProposal) :
    Reports cr set me (onMacroProposal cr cfg ctx p b) := by
  unfold onMacroProposal
  cases hactive : activeSet ctx with
  | error e => exact Reports.of_silent h ⟨rfl, rfl, rfl⟩ (by simp)
  | ok s =>
    have hs := hset s hactive
    subst hs
    dsimp only
    split
    · exact Reports.of_silent h ⟨rfl, rfl, rfl⟩ (by simp)
    rename_i beacon _
    by_cases hbad : (!MacroFin.verifyProposal cr s p
        (vrfAlpha beacon p.checkpoint.height p.proposer)) = true
    · rw [if_pos hbad]
      exact Reports.of_silent h ⟨rfl, rfl, rfl⟩ (by simp)
    rw [if_neg hbad]
    have hsigned : ProposalSigned cr s p := verifyProposal_signed (by simpa using hbad)
    have hseen : (freezeBeacon p.checkpoint.height beacon b).proposalsSeen =
      b.core.proposalsSeen := rfl
    rw [hseen]
    cases hps : b.core.proposalsSeen[toLex (p.checkpoint.height, p.proposer)]? with
    | some ps =>
      obtain ⟨q, rfl, hslot, hq⟩ := h.seen _ ps hps
      simp only [Option.getD_some, List.any_cons, List.any_nil, Bool.or_false]
      split
      · rename_i hne
        refine ⟨h.same ⟨rfl, rfl, rfl⟩, ?_⟩
        rintro a hmem offender ev rfl
        simp only [Outcome.ok_actions, List.mem_singleton, Action.emitSlashEvidence.injEq] at hmem
        obtain ⟨rfl, rfl⟩ := hmem
        refine ⟨rfl, ?_⟩
        have hkeys : p.checkpoint.height = q.checkpoint.height ∧ p.proposer = q.proposer := by
          simpa using hslot
        obtain ⟨pk, hpk, hver⟩ := hsigned
        obtain ⟨pk', hpk', hver'⟩ := hq
        rw [← hkeys.2] at hpk' hver'
        cases hpk.symm.trans hpk'
        exact verifyMacroEquivocation_ok.mpr ⟨pk, hpk, hkeys.1.symm, by simpa using hne, hver',
          hver⟩
      · exact Reports.of_silent h ⟨rfl, rfl, rfl⟩ (by simp)
    | none =>
      simp only [Option.getD_none]
      have hrecords : SoundRecords cr s me { freezeBeacon p.checkpoint.height beacon b with
          proposalsSeen := b.core.proposalsSeen.insert (toLex (p.checkpoint.height, p.proposer))
            [p] }.core := by
        refine ⟨h.selfId, ?_, h.votes⟩
        intro k ps hk
        cases Maps.get_of_insert hk with
        | inl hnew =>
          obtain ⟨rfl, rfl⟩ := hnew
          exact ⟨p, rfl, rfl, hsigned⟩
        | inr hold => exact h.seen k ps hold
      exact considerProposal_reports hrecords hkey _ _ _

end Vote
end Macro

/- The records of L1. -/
section Vertex
variable {cr : Crypto} {set : ValidatorSet} {me : ValidatorId}

structure SoundProposals (cr : Crypto) (set : ValidatorSet) (me : ValidatorId) (b : VertexBook) :
    Prop where
  selfId : b.selfId = me
  seen : ∀ (k : Round ×ₗ ValidatorId) (ps : List VertexProposal), b.proposalsSeen[k]? = some ps →
    (ofLex k).2 ≠ me → ∃ p, ps = [p] ∧ k = toLex (p.vertex.round, p.vertex.author) ∧
      VertexCert.verifyProposal cr set p = true

theorem SoundProposals.of_seeded {b : VertexBook} (h : SoundProposals cr set me b)
    (ctx : HostContext) (round : Round) (parents : List Hash32) :
    SoundProposals cr set me (seeded cr ctx b round parents) := by
  refine ⟨h.selfId, ?_⟩
  intro k ps hk hother
  cases Maps.get_of_insert hk with
  | inl hnew =>
    rw [hnew.1] at hother
    exact absurd h.selfId hother
  | inr hold => exact h.seen k ps hold hother

theorem soundProposals_move {call : NodeCall} (hset : ∀ s, activeSet call.ctx = .ok s → s = set)
    {b d : VertexBook} {sg : List SignReq} {acts : List Action}
    (hm : BookMove cr call b sg acts d) (h : SoundProposals cr set me b) :
    SoundProposals cr set me d := by
  cases hm with
  | see s p hev hs hok hnew =>
    cases hset s hs
    refine ⟨h.selfId, ?_⟩
    intro k ps hk hother
    cases Maps.get_of_insert hk with
    | inl hnew =>
      obtain ⟨rfl, rfl⟩ := hnew
      exact ⟨p, rfl, rfl, hok.signed⟩
    | inr hold => exact h.seen k ps hold hother
  | genesis hst =>
    exact SoundProposals.of_seeded (b := { b with started := true }) ⟨h.selfId, h.seen⟩ _ _ _
  | propose s need certs hst hs hready => exact h.of_seeded _ _ _
  | prune hst =>
    exact ⟨h.selfId, fun k ps hk => h.seen k ps (Maps.get_of_filter hk)⟩
  | _ => exact ⟨h.selfId, h.seen⟩

theorem verifyProposal_key {p : VertexProposal} (h : VertexCert.verifyProposal cr set p = true) :
    ∃ pk, pkFor cr set p.vertex.author = some pk ∧
      cr.verify pk .vertexProposal (signingBytes p.vertex) p.proposerSig = true := by
  unfold VertexCert.verifyProposal at h
  split at h
  · cases h
  · rename_i pk hpk
    exact ⟨pk, hpk, h⟩

theorem onVertexProposal_reports {ctx : HostContext} {b : VertexBook}
    (h : SoundProposals cr set me b) (hset : ∀ s, activeSet ctx = .ok s → s = set)
    (p : VertexProposal) {offender : ValidatorId} {ev : SlashEvidence}
    (hmem : Action.emitSlashEvidence offender ev ∈ (onVertexProposal cr p ctx b).actions) :
    Accepted cr set offender ev := by
  have hvote : ∀ (s : ValidatorSet) (d : VertexBook),
      Action.emitSlashEvidence offender ev ∉ (checkParentsAndVote s p ctx d).actions := by
    intro s d
    have hno : ∀ d : VertexBook, Action.emitSlashEvidence offender ev ∉ (vote d p ctx).actions := by
      intro d
      unfold vote
      dsimp only
      split
      · simp
      · simp [Outcome.actions]
    unfold checkParentsAndVote
    split
    · split
      · simp
      · split
        · exact hno d
        · simp
    · split
      · exact hno d
      · simp
  unfold onVertexProposal at hmem
  cases hactive : activeSet ctx with
  | error e =>
    rw [hactive] at hmem
    simp at hmem
  | ok s =>
    cases hset s hactive
    rw [hactive] at hmem
    dsimp only at hmem
    split at hmem
    · simp at hmem
    split at hmem
    · simp at hmem
    rename_i hsigned
    split at hmem
    · simp at hmem
    rename_i hforeign
    split at hmem
    · simp at hmem
    split at hmem
    · rename_i first rest hps
      obtain ⟨q, hq, hslot, hver⟩ := h.seen _ _ hps (by
        rw [← h.selfId]
        exact hforeign)
      cases hq
      split at hmem
      · rename_i hne
        simp only [Outcome.ok_actions, List.mem_singleton, Action.emitSlashEvidence.injEq] at hmem
        obtain ⟨rfl, rfl⟩ := hmem
        have hkeys : p.vertex.round = first.vertex.round ∧
            p.vertex.author = first.vertex.author := by
          simpa using hslot
        obtain ⟨pk, hpk, hsig⟩ := verifyProposal_key (by simpa using hsigned)
        obtain ⟨pk', hpk', hsig'⟩ := verifyProposal_key hver
        rw [← hkeys.2] at hpk'
        cases hpk.symm.trans hpk'
        exact ⟨rfl, verifyVertexEquivocation_ok.mpr ⟨pk, hpk, hkeys.2.symm, rfl, hkeys.1.symm,
          by simpa using hne, hsig', hsig⟩⟩
      · exact absurd hmem (hvote _ _)
    · exact absurd hmem (hvote _ _)
    · exact absurd hmem (hvote _ _)

end Vertex

/-- The ports of a fixed validator set: whenever it is served it is `set`, and the signer holds
the node's own key in it. -/
def FixedPorts (cr : Crypto) (set : ValidatorSet) (self : ValidatorId) (ctx : HostContext) : Prop :=
  (∀ s, activeSet ctx = .ok s → s = set) ∧ SignsAs cr set self ctx.signBls

/-- One call: the records of L3 stay sound, and its evidence is accepted. -/
theorem records_step {cr : Crypto} {set : ValidatorSet} {me : ValidatorId} (call : NodeCall)
    (hports : FixedPorts cr set me call.ctx) (hl3 : SoundRecords cr set me call.pre.macros.core)
    (hl1 : SoundProposals cr set me call.pre.vertices) :
    SoundRecords cr set me (StateMachine.exec cr call.input call.pre).state.macros.core ∧
      ∀ offender ev, Action.emitSlashEvidence offender ev ∈
        (StateMachine.exec cr call.input call.pre).actions → Accepted cr set offender ev := by
  by_cases hmacro : ∃ p, call.event = some (.macroProposalReceived p)
  · obtain ⟨p, hp⟩ := hmacro
    obtain ⟨sm, req, ctx⟩ := call
    cases req with
    | genesis => cases hp
    | event e =>
      cases hp
      have hreports : Reports cr set me (onMacroProposal cr sm.cfg ctx p sm.macros) :=
        onMacroProposal_reports hl3 hports.2 hports.1 p
      exact ⟨hreports.state, fun offender ev hmem => hreports.actions _ hmem offender ev rfl⟩
  · have hother : ∀ p, call.event ≠ some (.macroProposalReceived p) := not_exists.mp hmacro
    obtain ⟨hsame, hnone⟩ := @macro_sources cr call hother
    refine ⟨hl3.same hsame, ?_⟩
    intro offender ev hmem
    obtain ⟨e, rfl⟩ := hnone offender ev hmem
    by_cases hvertex : ∃ p, call.event = some (.vertexProposalReceived p)
    · obtain ⟨p, hp⟩ := hvertex
      obtain ⟨sm, req, ctx⟩ := call
      cases req with
      | genesis => cases hp
      | event e' =>
        cases hp
        exact onVertexProposal_reports hl1 hports.1 p hmem
    · exact absurd hmem (vertex_sources (not_exists.mp hvertex) offender e)

theorem sound_run (cr : Crypto) (cfg : Config) (self : ValidatorId) (set : ValidatorSet)
    (is : List StateMachine.Input) (hports : ∀ i ∈ is, FixedPorts cr set self i.2) :
    SoundRecords cr set self (StateMachine.reached cr cfg self is).macros.core ∧
      SoundProposals cr set self (StateMachine.reached cr cfg self is).vertices := by
  refine Trace.invariant (StateMachine.exec cr) (fun call => FixedPorts cr set self call.input.2)
    (fun _ sm => SoundRecords cr set self sm.macros.core ∧ SoundProposals cr set self sm.vertices)
    (StateMachine.new cfg self) ⟨⟨rfl, by simp [StateMachine.new, MacroBook.new, MacroBook.core],
      by simp [StateMachine.new, MacroBook.new, MacroBook.core, VoteBook.votesOf]⟩,
      ⟨rfl, by simp [StateMachine.new, VertexBook.new]⟩⟩ ?_ is
    (fun c hc => hports c.input (run_input hc))
  rintro hist sm i ⟨hl3, hl1⟩ hp
  refine ⟨(records_step ⟨sm, i⟩ hp hl3 hl1).1, ?_⟩
  rw [(exec_fromVertices cr ⟨sm, i⟩).book]
  obtain ⟨acts, hpath, -⟩ := vertexOutcome_moves cr ⟨sm, i⟩
  exact hpath.keeps (fun _ _ _ _ hm h => soundProposals_move hp.1 hm h) hl1

/-- Evidence that is emitted is accepted, and against the validator inside it. -/
theorem emitted_evidence_accepted (cr : Crypto) (cfg : Config) (self : ValidatorId)
    (set : ValidatorSet) (is : List StateMachine.Input)
    (hports : ∀ i ∈ is, FixedPorts cr set self i.2) (offender : ValidatorId)
    (ev : SlashEvidence)
    (hmem : Action.emitSlashEvidence offender ev ∈ StateMachine.actions cr cfg self is) :
    ev.accused = offender ∧ verifyEvidence cr set ev = .ok () := by
  obtain ⟨call, hcall, hact⟩ := List.mem_flatMap.mp hmem
  obtain ⟨js, ks, his, hpre, -⟩ := before_call hcall
  have hsound := sound_run cr cfg self set js fun i hi => hports i (by
    rw [his]
    exact List.mem_append_left _ hi)
  rw [← hpre] at hsound
  exact (records_step call (hports call.input (run_input hcall)) hsound.1 hsound.2).2 offender ev
    hact

section Devnet
open Devnet

def accusingRun : List StateMachine.Input := script 2 [proposal 0 a0, proposal 0 b0]

def accusation : SlashEvidence :=
  .macroEquivocation ⟨⟨0⟩, (a0, sigOf ⟨0⟩), (b0, sigOf ⟨0⟩)⟩

theorem accusation_accepted :
    accusation.accused = ⟨0⟩ ∧ verifyEvidence openCrypto validators accusation = .ok () := by
  refine emitted_evidence_accepted openCrypto config ⟨2⟩ validators accusingRun ?_ ⟨0⟩ accusation
    (by decide)
  intro i hi
  obtain ⟨e, -, rfl⟩ := List.mem_map.mp hi
  refine ⟨?_, ⟨2⟩, rfl, fun dst msg => by simp [openCrypto, crypto, ports]⟩
  intro s hs
  cases hs
  rfl

end Devnet
end LuaDag
