import LuaDag.QcFormation

/-! How many QCs the flat modes form for one checkpoint. Every node that assembles one shows its
own signature as the smallest, so two nodes never send the same QC: the QCs are one and the
same exactly if a single node completes a quorum of which it is the smallest signer. -/
namespace LuaDag
open MacroFin

/-- A partial arrives after which its receiver, that knew of the signers `start` before the
deliveries, knows of a quorum of which it is itself the smallest member. -/
def completesFrom (set : ValidatorSet) (start : ValidatorId → Finset ValidatorId)
    (before : List Delivery) (d : Delivery) : Bool :=
  match d.2.1 with
  | .event (.blsPartialReceived _) =>
    assembles set d.1 (start d.1 ∪ heard d.1 (before ++ [d]))
  | _ => false

/-- Some delivery of `ds` completes a quorum at node `v`. -/
def CompletedAt (set : ValidatorSet) (start : ValidatorId → Finset ValidatorId)
    (ds : List Delivery) (v : ValidatorId) : Prop :=
  ∃ before d, before ++ [d] <+: ds ∧ d.1 = v ∧ completesFrom set start before d = true

theorem completedAt_snoc (set : ValidatorSet) (start : ValidatorId → Finset ValidatorId)
    (ds : List Delivery) (d : Delivery) (v : ValidatorId) :
    CompletedAt set start (ds ++ [d]) v ↔
      CompletedAt set start ds v ∨ d.1 = v ∧ completesFrom set start ds d = true := by
  constructor
  · rintro ⟨before, e, hpre, hv, hc⟩
    cases List.prefix_concat_iff.mp hpre with
    | inl heq =>
      obtain ⟨rfl, he⟩ := List.append_inj' heq rfl
      cases he
      exact Or.inr ⟨hv, hc⟩
    | inr hold => exact Or.inl ⟨before, e, hold, hv, hc⟩
  · rintro (⟨before, e, hpre, hc⟩ | hc)
    · exact ⟨before, e, hpre.trans (List.prefix_append ds [d]), hc⟩
    · exact ⟨ds, d, List.prefix_refl _, hc⟩

def LeastSigner (set : ValidatorSet) (x : Hash32) (qc : MacroQc) (v : ValidatorId) : Prop :=
  ∃ signers : Finset ValidatorId, OverSigners set x signers qc ∧
    signers.min = (v : WithTop ValidatorId)

theorem LeastSigner.le {set : ValidatorSet} {x : Hash32} {qc : MacroQc} {u v : ValidatorId}
    (hu : LeastSigner set x qc u) (hv : LeastSigner set x qc v)
    (hmember : v ∈ set.entries.map (·.id)) : u ≤ v := by
  obtain ⟨signers, ⟨-, hlisted⟩, hmin⟩ := hu
  obtain ⟨signers', ⟨-, hlisted'⟩, hmin'⟩ := hv
  obtain ⟨e, he, rfl⟩ := List.mem_map.mp hmember
  have hin : e ∈ set.entries.filter fun e => decide (e.id ∈ signers) := by
    rw [← hlisted, hlisted']
    exact List.mem_filter.mpr ⟨he, decide_eq_true (Finset.mem_of_min hmin')⟩
  exact Finset.min_le_of_eq (of_decide_eq_true (List.mem_filter.mp hin).2) hmin

theorem LeastSigner.unique {set : ValidatorSet} {x : Hash32} {qc : MacroQc} {u v : ValidatorId}
    (hu : LeastSigner set x qc u) (hv : LeastSigner set x qc v)
    (hmu : u ∈ set.entries.map (·.id)) (hmv : v ∈ set.entries.map (·.id)) : u = v :=
  le_antisymm (hu.le hv hmv) (hv.le hu hmu)

/-- `qc` is on the checkpoint of `p` and was sent. -/
def QcSent (p : MacroProposal) (w : Network) (qc : MacroQc) : Prop :=
  Action.broadcastMacroQc qc ∈ w.sent ∧ qc.checkpointHash = p.checkpoint.hash

/-- The members pursue the checkpoint of `p` in Mode 0 or B, each with the signers of `start` on
record, which its own vote by the Mode B timer may be among; what partials on the checkpoint
were sent are valid, and no QC was. -/
structure Contest (cr : Crypto) (set : ValidatorSet) (p : MacroProposal)
    (start : ValidatorId → Finset ValidatorId) (w : Network) : Prop where
  nodes : ∀ v ∈ set.entries.map (·.id), Pursues cr set p v (start v) (w.nodes v)
  partials : ∀ bp, Action.broadcastBlsPartial bp ∈ w.sent →
    bp.checkpointHash = p.checkpoint.hash →
      bp.subnet = 0 ∧ verifyPartial cr set bp p.checkpoint = true
  unformed : ∀ qc, ¬ QcSent p w qc

/-- The contest after the deliveries `ds`: a member that completed a quorum has sent one QC, of
which it is the smallest signer, and has adopted it; the others still pursue. -/
structure Race (cr : Crypto) (set : ValidatorSet) (p : MacroProposal)
    (start : ValidatorId → Finset ValidatorId) (ds : List Delivery) (w : Network) : Prop where
  pursuing : ∀ v ∈ set.entries.map (·.id), ¬ CompletedAt set start ds v →
    Pursues cr set p v (start v ∪ heard v ds) (w.nodes v)
  finished : ∀ v ∈ set.entries.map (·.id), CompletedAt set start ds v →
    FlatNode cr set p v (w.nodes v) ∧
      p.checkpoint.hash ∈ (w.nodes v).macros.emittedMacroQc ∧
      ∃ qc, QcSent p w qc ∧ LeastSigner set p.checkpoint.hash qc v
  partials : ∀ bp, Action.broadcastBlsPartial bp ∈ w.sent →
    bp.checkpointHash = p.checkpoint.hash →
      bp.subnet = 0 ∧ verifyPartial cr set bp p.checkpoint = true
  senders : ∀ qc, QcSent p w qc → ∃ v ∈ set.entries.map (·.id),
    CompletedAt set start ds v ∧ LeastSigner set p.checkpoint.hash qc v
  single : ∀ qc qc', QcSent p w qc → QcSent p w qc' → ∀ v,
    LeastSigner set p.checkpoint.hash qc v → LeastSigner set p.checkpoint.hash qc' v →
      v ∈ set.entries.map (·.id) → qc = qc'

section Network
variable {cr : Crypto} {set : ValidatorSet} {p : MacroProposal}
  {start : ValidatorId → Finset ValidatorId}

theorem Contest.race {w : Network} (h : Contest cr set p start w) : Race cr set p start [] w := by
  have hnone : ∀ v, ¬ CompletedAt set start [] v := by
    rintro v ⟨before, d, hpre, -⟩
    simp at hpre
  refine ⟨?_, fun v _ hc => absurd hc (hnone v), h.partials,
    fun qc hqc => absurd hqc (h.unformed qc), fun qc _ hqc => absurd hqc (h.unformed qc)⟩
  intro v hv _
  simpa [heard] using h.nodes v hv

theorem qcSent_of_flatVotes {d : Delivery} {w : Network}
    (hacts : ∀ a ∈ (StateMachine.exec cr d.2 (w.nodes d.1)).actions,
      a.isFlatVote cr set p.checkpoint) (qc : MacroQc) :
    QcSent p (Network.exec cr d w).state qc ↔ QcSent p w qc := by
  constructor
  · rintro ⟨hqc, hhash⟩
    cases List.mem_append.mp hqc with
    | inl hold => exact ⟨hold, hhash⟩
    | inr hnew => exact absurd (hacts _ hnew) id
  · rintro ⟨hqc, hhash⟩
    exact ⟨List.mem_append_left _ hqc, hhash⟩

/-- A delivery that newly completes nothing and is answered with a vote at most. -/
theorem Race.advance {ds : List Delivery} {w : Network} (h : Race cr set p start ds w)
    (d : Delivery)
    (hsame : ∀ v, CompletedAt set start (ds ++ [d]) v → CompletedAt set start ds v)
    (hacts : ∀ a ∈ (StateMachine.exec cr d.2 (w.nodes d.1)).actions,
      a.isFlatVote cr set p.checkpoint)
    (hpursuing : ¬ CompletedAt set start ds d.1 →
      Pursues cr set p d.1 (start d.1 ∪ heard d.1 (ds ++ [d]))
        (StateMachine.exec cr d.2 (w.nodes d.1)).state)
    (hfinished : CompletedAt set start ds d.1 →
      FlatNode cr set p d.1 (StateMachine.exec cr d.2 (w.nodes d.1)).state ∧
        p.checkpoint.hash ∈
          (StateMachine.exec cr d.2 (w.nodes d.1)).state.macros.emittedMacroQc) :
    Race cr set p start (ds ++ [d]) (Network.exec cr d w).state := by
  have hiff : ∀ v, CompletedAt set start (ds ++ [d]) v ↔ CompletedAt set start ds v := fun v =>
    ⟨hsame v, fun hc => (completedAt_snoc set start ds d v).mpr (Or.inl hc)⟩
  refine ⟨?_, ?_, ?_, ?_, ?_⟩
  · intro v hv hnot
    rw [hiff] at hnot
    by_cases heq : v = d.1
    · subst heq
      simpa [Network.exec] using hpursuing hnot
    · have hheard : heard v (ds ++ [d]) = heard v ds := by
        rw [heard_snoc, heardBy, if_neg (Ne.symm heq), Finset.empty_union]
      rw [hheard]
      simpa [Network.exec, Function.update_of_ne heq] using h.pursuing v hv hnot
  · intro v hv hc
    rw [hiff] at hc
    obtain ⟨hflat, hemitted, qc, hqc, hleast⟩ := h.finished v hv hc
    have hqc' := (qcSent_of_flatVotes hacts qc).mpr hqc
    by_cases heq : v = d.1
    · subst heq
      obtain ⟨hflat', hemitted'⟩ := hfinished hc
      exact ⟨by simpa [Network.exec] using hflat', by simpa [Network.exec] using hemitted',
        qc, hqc', hleast⟩
    · exact ⟨by simpa [Network.exec, Function.update_of_ne heq] using hflat,
        by simpa [Network.exec, Function.update_of_ne heq] using hemitted, qc, hqc', hleast⟩
  · intro bp hbp hhash
    cases List.mem_append.mp hbp with
    | inl hold => exact h.partials bp hold hhash
    | inr hnew => exact hacts _ hnew
  · intro qc hqc
    obtain ⟨v, hv, hc, hleast⟩ := h.senders qc ((qcSent_of_flatVotes hacts qc).mp hqc)
    exact ⟨v, hv, (hiff v).mpr hc, hleast⟩
  · intro qc qc' hqc hqc'
    exact h.single qc qc' ((qcSent_of_flatVotes hacts qc).mp hqc)
      ((qcSent_of_flatVotes hacts qc').mp hqc')

theorem Race.proposal {ds : List Delivery} {w : Network} (h : Race cr set p start ds w)
    {v : ValidatorId} {ctx : HostContext} (hmember : v ∈ set.entries.map (·.id))
    (hset : activeSet ctx = .ok set) (hkey : SignsCheckpoints cr set v ctx)
    (hother : v ≠ p.proposer) :
    Race cr set p start (ds ++ [(v, .event (.macroProposalReceived p), ctx)])
      (Network.exec cr (v, .event (.macroProposalReceived p), ctx) w).state := by
  have hflat : FlatNode cr set p v (w.nodes v) := by
    by_cases hc : CompletedAt set start ds v
    · exact (h.finished v hmember hc).1
    · exact (h.pursuing v hmember hc).flat
  obtain ⟨hacts, hnext, hemitted⟩ := hflat.sees hset hkey
  refine h.advance _ ?_ hacts ?_ ?_
  · intro u hc
    cases (completedAt_snoc set start ds _ u).mp hc with
    | inl hold => exact hold
    | inr hnew => cases hnew.2
  · intro hnot
    have hpursue := (h.pursuing v hmember hnot).sees hset hkey hother
    rw [heard_snoc, heardBy, if_pos rfl, Finset.union_left_comm, ← Finset.insert_eq]
    exact hpursue
  · intro hc
    refine ⟨hnext, ?_⟩
    rw [hemitted]
    exact (h.finished v hmember hc).2.1

/-- What a node does on the partial that completes its quorum: it sends one QC, of which it is
the smallest signer, and adopts it. -/
theorem Pursues.completes (hinj : HashInjective cr) (hany : AggregatesAnyOrder cr)
    {known : Finset ValidatorId} {sm : StateMachine} {v : ValidatorId}
    (h : Pursues cr set p v known sm) {ctx : HostContext} (hset : activeSet ctx = .ok set)
    {bp : BlsPartial} (hsubnet : bp.subnet = 0)
    (hver : verifyPartial cr set bp p.checkpoint = true)
    (hyes : assembles set v (insert bp.validator known) = true) :
    let o := StateMachine.exec cr (.event (.blsPartialReceived bp), ctx) sm
    FlatNode cr set p v o.state ∧ p.checkpoint.hash ∈ o.state.macros.emittedMacroQc ∧
      (∀ bp', Action.broadcastBlsPartial bp' ∉ o.actions) ∧
      ∃ qc, qc.checkpointHash = p.checkpoint.hash ∧ LeastSigner set p.checkpoint.hash qc v ∧
        ∀ q, Action.broadcastMacroQc q ∈ o.actions ↔ q = qc := by
  intro o
  obtain ⟨qc, hover, heq⟩ := h.finishes hinj hany hset hsubnet hver hyes
  have hleast : LeastSigner set p.checkpoint.hash qc v := by
    simp only [assembles, Bool.and_eq_true, decide_eq_true_eq] at hyes
    exact ⟨_, hover, hyes.1⟩
  obtain ⟨acts, hacts, hkinds⟩ := finishMacroQcAdoption_sends sm.cfg p.checkpoint.height
    p.checkpoint qc (insert bp.validator known) (sm.macros.collected bp)
  obtain ⟨hmodes, hemitted⟩ := finishMacroQcAdoption_adopts sm.cfg p.checkpoint.height
    p.checkpoint qc (insert bp.validator known) (sm.macros.collected bp)
  rw [← heq] at hacts hmodes hemitted
  have hactions : o.actions = .broadcastMacroQc qc :: (adoptionActions p.checkpoint qc ++ acts) :=
    hacts
  have hadopted : o.state.macros.emittedMacroQc =
      insert qc.checkpointHash (sm.macros.collected bp).emittedMacroQc := hemitted
  refine ⟨h.flat.next _ hmodes, ?_, ?_, qc, hover.1, hleast, ?_⟩
  · rw [hadopted, hover.1]
    exact Finset.mem_insert_self _ _
  · intro bp' hin
    rw [hactions] at hin
    simp only [adoptionActions, List.cons_append, List.nil_append, List.mem_cons, reduceCtorEq,
      false_or] at hin
    obtain ⟨_, _, hk⟩ | ⟨_, _, hk⟩ := hkinds _ hin <;> cases hk
  · intro q
    rw [hactions]
    constructor
    · intro hin
      simp only [adoptionActions, List.cons_append, List.nil_append, List.mem_cons,
        reduceCtorEq, false_or, Action.broadcastMacroQc.injEq] at hin
      obtain heq | hrest := hin
      · exact heq
      · obtain ⟨_, _, hk⟩ | ⟨_, _, hk⟩ := hkinds _ hrest <;> cases hk
    · rintro rfl
      exact List.mem_cons_self

theorem QcSent.exec_iff {w : Network} {d : Delivery} {qc : MacroQc}
    (hhash : qc.checkpointHash = p.checkpoint.hash)
    (hsends : ∀ q, Action.broadcastMacroQc q ∈
      (StateMachine.exec cr d.2 (w.nodes d.1)).actions ↔ q = qc) (q : MacroQc) :
    QcSent p (Network.exec cr d w).state q ↔ QcSent p w q ∨ q = qc := by
  have hsent : Action.broadcastMacroQc q ∈ (Network.exec cr d w).state.sent ↔
      Action.broadcastMacroQc q ∈ w.sent ∨ q = qc := by
    rw [← hsends]
    exact List.mem_append
  unfold QcSent
  rw [hsent]
  constructor
  · rintro ⟨hold | rfl, hq⟩
    · exact Or.inl ⟨hold, hq⟩
    · exact Or.inr rfl
  · rintro (⟨hold, hq⟩ | rfl)
    · exact ⟨Or.inl hold, hq⟩
    · exact ⟨Or.inr rfl, hhash⟩

/-- The partial that completes the quorum. Nobody sent a QC with this smallest signer before, for
its sender would be this receiver. -/
theorem Race.finish (hinj : HashInjective cr) (hany : AggregatesAnyOrder cr)
    {ds : List Delivery} {w : Network} (h : Race cr set p start ds w) {v : ValidatorId}
    {ctx : HostContext} {bp : BlsPartial} (hmember : v ∈ set.entries.map (·.id))
    (hset : activeSet ctx = .ok set) (hsubnet : bp.subnet = 0)
    (hver : verifyPartial cr set bp p.checkpoint = true)
    (hnot : ¬ CompletedAt set start ds v)
    (hyes : assembles set v (insert bp.validator (start v ∪ heard v ds)) = true)
    (hnow : ∀ u, CompletedAt set start (ds ++ [(v, .event (.blsPartialReceived bp), ctx)]) u ↔
      CompletedAt set start ds u ∨ u = v) :
    Race cr set p start (ds ++ [(v, .event (.blsPartialReceived bp), ctx)])
      (Network.exec cr (v, .event (.blsPartialReceived bp), ctx) w).state := by
  obtain ⟨hflat, hemitted, hnovote, qc, hhash, hleast, hsends⟩ :=
    (h.pursuing v hmember hnot).completes hinj hany hset hsubnet hver hyes
  have hqcs := @QcSent.exec_iff cr p w (v, .event (.blsPartialReceived bp), ctx) qc hhash hsends
  have hfirst : ∀ q, QcSent p w q → ¬ LeastSigner set p.checkpoint.hash q v := by
    intro q hq hl
    obtain ⟨u, hu, hc, hl'⟩ := h.senders q hq
    rw [hl'.unique hl hu hmember] at hc
    exact hnot hc
  refine ⟨?_, ?_, ?_, ?_, ?_⟩
  · intro u hu hnotu
    rw [hnow, not_or] at hnotu
    have hheard : heard u (ds ++ [(v, .event (.blsPartialReceived bp), ctx)]) = heard u ds := by
      rw [heard_snoc, heardBy, if_neg (Ne.symm hnotu.2), Finset.empty_union]
    rw [hheard]
    simpa [Network.exec, Function.update_of_ne hnotu.2] using h.pursuing u hu hnotu.1
  · intro u hu hc
    by_cases heq : u = v
    · subst heq
      exact ⟨by simpa [Network.exec] using hflat, by simpa [Network.exec] using hemitted, qc,
        (hqcs qc).mpr (Or.inr rfl), hleast⟩
    · have hold := ((hnow u).mp hc).resolve_right heq
      obtain ⟨hflat, hin, q, hq, hl⟩ := h.finished u hu hold
      exact ⟨by simpa [Network.exec, Function.update_of_ne heq] using hflat,
        by simpa [Network.exec, Function.update_of_ne heq] using hin, q,
        (hqcs q).mpr (Or.inl hq), hl⟩
  · intro bp' hbp hnames
    cases List.mem_append.mp hbp with
    | inl hold => exact h.partials bp' hold hnames
    | inr hnew => exact absurd hnew (hnovote bp')
  · intro q hq
    cases (hqcs q).mp hq with
    | inl hold =>
      obtain ⟨u, hu, hc, hl⟩ := h.senders q hold
      exact ⟨u, hu, (hnow u).mpr (Or.inl hc), hl⟩
    | inr hnew =>
      subst hnew
      exact ⟨v, hmember, (hnow v).mpr (Or.inr rfl), hleast⟩
  · intro q q' hq hq' u hl hl' hu
    cases (hqcs q).mp hq with
    | inl hold =>
      cases (hqcs q').mp hq' with
      | inl hold' => exact h.single q q' hold hold' u hl hl' hu
      | inr hnew =>
        subst hnew
        rw [hl'.unique hleast hu hmember] at hl
        exact absurd hl (hfirst q hold)
    | inr hnew =>
      subst hnew
      cases (hqcs q').mp hq' with
      | inl hold' =>
        rw [hl.unique hleast hu hmember] at hl'
        exact absurd hl' (hfirst q' hold')
      | inr hnew' => exact hnew'.symm

theorem Race.partial_step (hinj : HashInjective cr) (hany : AggregatesAnyOrder cr)
    {ds : List Delivery} {w : Network} (h : Race cr set p start ds w) {v : ValidatorId}
    {ctx : HostContext} {bp : BlsPartial} (hmember : v ∈ set.entries.map (·.id))
    (hset : activeSet ctx = .ok set) (hsent : Action.broadcastBlsPartial bp ∈ w.sent)
    (hhash : bp.checkpointHash = p.checkpoint.hash) :
    Race cr set p start (ds ++ [(v, .event (.blsPartialReceived bp), ctx)])
      (Network.exec cr (v, .event (.blsPartialReceived bp), ctx) w).state := by
  obtain ⟨hsubnet, hver⟩ := h.partials bp hsent hhash
  have hheard : start v ∪ heard v (ds ++ [(v, .event (.blsPartialReceived bp), ctx)]) =
      insert bp.validator (start v ∪ heard v ds) := by
    rw [heard_snoc, heardBy, if_pos rfl, Finset.union_left_comm, ← Finset.insert_eq]
  have hc : completesFrom set start ds (v, .event (.blsPartialReceived bp), ctx) =
      assembles set v (insert bp.validator (start v ∪ heard v ds)) := by
    rw [← hheard]
    rfl
  have hsnoc : ∀ u, CompletedAt set start (ds ++ [(v, .event (.blsPartialReceived bp), ctx)]) u →
      CompletedAt set start ds u ∨ u = v ∧
        assembles set v (insert bp.validator (start v ∪ heard v ds)) = true := by
    intro u hu
    rw [← hc]
    exact ((completedAt_snoc _ _ _ _ _).mp hu).imp_right fun hnew => ⟨hnew.1.symm, hnew.2⟩
  by_cases hdone : CompletedAt set start ds v
  · obtain ⟨hflat, hin, -⟩ := h.finished v hmember hdone
    obtain ⟨hnil, hnext, hemitted⟩ := hflat.hears_late hset (hhash ▸ hin)
    refine h.advance _ ?_ ?_ (fun hnot => absurd hdone hnot) ?_
    · intro u hu
      cases hsnoc u hu with
      | inl hold => exact hold
      | inr hnew => exact hnew.1 ▸ hdone
    · intro a ha
      rw [hnil] at ha
      cases ha
    · intro _
      refine ⟨hnext, ?_⟩
      rw [hemitted]
      exact hin
  · cases hyes : assembles set v (insert bp.validator (start v ∪ heard v ds)) with
    | true =>
      refine h.finish hinj hany hmember hset hsubnet hver hdone hyes ?_
      intro u
      rw [completedAt_snoc, hc, hyes, and_iff_left rfl, eq_comm]
    | false =>
      obtain ⟨hexec, hnext⟩ :=
        (h.pursuing v hmember hdone).records hinj hset hsubnet hver hyes
      refine h.advance _ ?_ ?_ ?_ (fun hd => absurd hd hdone)
      · intro u hu
        cases hsnoc u hu with
        | inl hold => exact hold
        | inr hnew =>
          rw [hyes] at hnew
          cases hnew.2
      · intro a ha
        rw [hexec] at ha
        cases ha
      · intro _
        rw [hheard, hexec]
        exact hnext

theorem race_step (hinj : HashInjective cr) (hany : AggregatesAnyOrder cr)
    {ds : List Delivery} {w : Network} {d : Delivery} (h : Race cr set p start ds w)
    (hg : Gossip cr set p ⟨w, d⟩) :
    Race cr set p start (ds ++ [d]) (Network.exec cr d w).state := by
  obtain ⟨v, req, ctx⟩ := d
  have hcarries := hg.carries
  cases req with
  | genesis => cases hcarries
  | event e =>
    cases e with
    | macroProposalReceived q =>
      simp only [gossiped, NetworkCall.node, NodeCall.event, Bool.and_eq_true,
        decide_eq_true_eq] at hcarries
      obtain ⟨⟨rfl, -⟩, hother⟩ := hcarries
      exact h.proposal hg.member hg.serves hg.key hother
    | blsPartialReceived bp =>
      simp only [gossiped, NetworkCall.node, NodeCall.event, Bool.and_eq_true,
        decide_eq_true_eq] at hcarries
      obtain ⟨⟨hhash, hsent⟩, -⟩ := hcarries
      exact h.partial_step hinj hany hg.member hg.serves hsent hhash
    | _ => cases hcarries

theorem Contest.race_run (hinj : HashInjective cr) (hany : AggregatesAnyOrder cr) {w : Network}
    (hstart : Contest cr set p start w) (ds : List Delivery)
    (hgossip : ∀ call ∈ Trace.calls (Network.exec cr) w ds, Gossip cr set p call) :
    Race cr set p start ds (Trace.final (Network.exec cr) w ds) := by
  have hrun := Trace.invariant (Network.exec cr) (Gossip cr set p)
    (fun hist w' => Race cr set p start (hist.map (·.input)) w') w hstart.race ?_ ds hgossip
  · rwa [Trace.map_input] at hrun
  · intro hist w' d hinv hg
    rw [List.map_append, List.map_singleton]
    exact race_step hinj hany hinv hg

end Network

/-- Uniqueness of the QC in Modes 0 and B. Whatever the order in which the proposal and the
partials on its checkpoint reach the members, all the QCs they assemble for it are one and the
same exactly if at most one of them gets a partial after which it knows of a quorum of signers
of which it is the smallest. -/
theorem macro_qcs_identical_iff (cr : Crypto) (hinj : HashInjective cr)
    (hany : AggregatesAnyOrder cr) (set : ValidatorSet) (p : MacroProposal)
    (start : ValidatorId → Finset ValidatorId) (w : Network)
    (hstart : Contest cr set p start w) (ds : List Delivery)
    (hgossip : ∀ call ∈ Trace.calls (Network.exec cr) w ds, Gossip cr set p call) :
    (∀ qc qc', QcSent p (Trace.final (Network.exec cr) w ds) qc →
        QcSent p (Trace.final (Network.exec cr) w ds) qc' → qc = qc') ↔
      ∀ u ∈ set.entries.map (·.id), ∀ v ∈ set.entries.map (·.id),
        CompletedAt set start ds u → CompletedAt set start ds v → u = v := by
  have hrace := hstart.race_run hinj hany ds hgossip
  constructor
  · intro hone u hu v hv hcu hcv
    obtain ⟨-, -, qc, hqc, hlu⟩ := hrace.finished u hu hcu
    obtain ⟨-, -, qc', hqc', hlv⟩ := hrace.finished v hv hcv
    rw [← hone qc qc' hqc hqc'] at hlv
    exact hlu.unique hlv hu hv
  · intro hone qc qc' hqc hqc'
    obtain ⟨u, hu, hcu, hlu⟩ := hrace.senders qc hqc
    obtain ⟨v, hv, hcv, hlv⟩ := hrace.senders qc' hqc'
    rw [← hone u hu v hv hcu hcv] at hlv
    exact hrace.single qc qc' hqc hqc' u hlu hlv hu

section Devnet
open Devnet

/-- The voters of the smallest devnet are exactly a quorum, of which node 1 is the smallest. -/
theorem macro_qcs_identical_devnet : ∃! qc, QcSent firstProposal
    (Trace.final (Network.exec openCrypto) (Network.reached openCrypto config windowOut)
      (proposalFirst.map messageTo)) qc := by
  have hstart : Contest openCrypto validators firstProposal (fun _ => ∅)
      (Network.reached openCrypto config windowOut) :=
    ⟨fun v hv => (pending_window.nodes v hv).pursues, pending_window.partials,
      fun qc hqc => pending_window.unformed ⟨qc, hqc.1, hqc.2⟩⟩
  have hsent : QcSent firstProposal (Trace.final (Network.exec openCrypto)
      (Network.reached openCrypto config windowOut) (proposalFirst.map messageTo))
        ⟨a0.hash, .mode0Flat, ⟨9⟩, [14]⟩ := by
    unfold QcSent
    decide
  refine ⟨_, hsent, fun qc hqc => ?_⟩
  refine (macro_qcs_identical_iff openCrypto (hashInjective _) (aggregatesAnyOrder _) validators
    firstProposal _ _ hstart _ (gossip_devnet (by decide) (by decide))).mpr ?_ qc _ hqc
      hsent
  have honly : ∀ v, CompletedAt validators (fun _ => ∅) (proposalFirst.map messageTo) v →
      v = ⟨1⟩ := by
    rintro v ⟨before, d, ⟨rest, heq⟩, rfl, hc⟩
    have hall : ∀ k < 12, ∀ e ∈ (proposalFirst.map messageTo)[k]?,
        completesFrom validators (fun _ => ∅) ((proposalFirst.map messageTo).take k) e = true →
          e.1 = ⟨1⟩ := by
      decide
    have hlen := congrArg List.length heq
    simp only [List.length_append, List.length_singleton, List.length_map] at hlen
    have hshort : proposalFirst.length = 12 := rfl
    refine hall before.length (by omega) d ?_ ?_
    · rw [← heq, List.append_assoc, List.getElem?_append_right (Nat.le_refl _), Nat.sub_self]
      rfl
    · rwa [← heq, List.append_assoc, List.take_left']
      rfl
  intro u _ v _ hu hv
  rw [honly u hu, honly v hv]

def fiveValidators : ValidatorSet := ⟨0, (List.range 5).map entry, 5⟩

def portsOfFive (i : Nat) (top : Round) : HostContext :=
  { ports i top with setFor := fun _ => .ok (some fiveValidators) }

def windowOutFive : List Delivery :=
  (List.range 5).map fun i => (⟨i⟩, .event (closesWave 1).2, portsOfFive i (closesWave 1).1)

def messageToFive (m : Nat × Option Nat) : Delivery :=
  ((messageTo m).1, (messageTo m).2.1, portsOfFive m.1 5)

def twoQuorums : List (Nat × Option Nat) :=
  [(1, none), (2, none), (3, none), (4, none), (1, some 2), (1, some 3), (2, some 3), (2, some 4)]

theorem contest_five : Contest openCrypto fiveValidators firstProposal (fun _ => ∅)
    (Network.reached openCrypto config windowOutFive) := by
  have hsent : ∀ a ∈ (Network.reached openCrypto config windowOutFive).sent,
      a.isMacroVote = false := by
    decide
  refine ⟨?_, ?_, ?_⟩
  · intro v hv
    obtain ⟨i, hi, rfl⟩ : ∃ i < 5, v = ⟨i⟩ := by
      simpa [fiveValidators, entry, eq_comm] using hv
    have hinputs : ∀ j < 5, (windowOutFive.filter (·.1 = (⟨j⟩ : ValidatorId))).map (·.2) =
        [(.event (closesWave 1).2, portsOfFive j (closesWave 1).1)] := by
      intro j hj
      have hcases : j = 0 ∨ j = 1 ∨ j = 2 ∨ j = 3 ∨ j = 4 := by omega
      obtain rfl | rfl | rfl | rfl | rfl := hcases <;> rfl
    rw [Network.reached_node, hinputs i hi]
    refine (AwaitsFirst.hears ?_).pursues
    have hready : ∀ j < 5, AwaitsFirst fiveValidators (StateMachine.reached openCrypto config ⟨j⟩
        [(.event (closesWave 1).2, portsOfFive j (closesWave 1).1)]).macros := by
      unfold AwaitsFirst
      decide
    exact hready i hi
  · intro bp hbp _
    exact absurd (hsent _ hbp) (by simp [Action.isMacroVote])
  · intro qc hqc
    exact absurd (hsent _ hqc.1) (by simp [Action.isMacroVote])

/-- Two honest nodes assemble different QCs for the candidate they share. -/
theorem macro_qcs_compete :
    Contest openCrypto fiveValidators firstProposal (fun _ => ∅)
        (Network.reached openCrypto config windowOutFive) ∧
      (∀ call ∈ Trace.calls (Network.exec openCrypto)
        (Network.reached openCrypto config windowOutFive) (twoQuorums.map messageToFive),
        Gossip openCrypto fiveValidators firstProposal call) ∧
      ∃ qc qc' : MacroQc,
        let w := Trace.final (Network.exec openCrypto)
          (Network.reached openCrypto config windowOutFive) (twoQuorums.map messageToFive)
        QcSent firstProposal w qc ∧ QcSent firstProposal w qc' ∧ qc ≠ qc' := by
  refine ⟨contest_five, gossip_of_inputs ?_ (by decide), ?_⟩
  · intro d hd
    obtain ⟨m, hm, rfl⟩ := List.mem_map.mp hd
    have hlt : m.1 < 5 := by
      have hall : ∀ m ∈ twoQuorums, m.1 < 5 := by decide
      exact hall m hm
    have hmember : ∀ j < 5, (⟨j⟩ : ValidatorId) ∈ fiveValidators.entries.map (·.id) := by decide
    have hkey : ∀ j < 5, VertexCert.pkFor openCrypto fiveValidators ⟨j⟩ = some ⟨j⟩ := by decide
    have hto : (messageToFive m).1 = ⟨m.1⟩ := by
      obtain ⟨i, from'⟩ := m
      cases from' <;> rfl
    rw [hto]
    exact ⟨hmember _ hlt, rfl, signsCheckpoints_open (hkey _ hlt) rfl⟩
  · refine ⟨⟨a0.hash, .mode0Flat, ⟨9⟩, [14]⟩, ⟨a0.hash, .mode0Flat, ⟨12⟩, [28]⟩, ?_⟩
    unfold QcSent
    decide

end Devnet
end LuaDag
