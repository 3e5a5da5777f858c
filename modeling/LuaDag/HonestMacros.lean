import LuaDag.Network
import LuaDag.MacroLock
import LuaDag.SlashScans

/-! L3 in a network of honest nodes: each proposes once per height and votes once per
height, so there is nothing to slash it for. -/
namespace LuaDag

/- Where checkpoints stand. -/

def TipAt (cr : Crypto) : Height → Hash32 → Prop
  | 0, x => x = Hash32.zero
  | h + 1, x => BuiltAt cr h x

theorem TipAt.height_unique {cr : Crypto} (hinj : HashInjective cr) (hzero : HashNonzero cr)
    {h h' : Height} {x : Hash32} (hx : TipAt cr h x) (hx' : TipAt cr h' x) : h = h' := by
  have hbuilt : ∀ k, BuiltAt cr k x → x ≠ Hash32.zero := by
    intro k hk
    obtain ⟨p, r, hpr⟩ := hk
    rw [← hpr]
    exact hzero k 0 p r
  cases h with
  | zero =>
    cases h' with
    | zero => rfl
    | succ k' => exact absurd hx (hbuilt k' hx')
  | succ k =>
    cases h' with
    | zero => exact absurd hx' (hbuilt k hx)
    | succ k' => exact congrArg (· + 1) (BuiltAt.height_unique hinj hx hx')

def Grounded (cr : Crypto) (cp : MacroCheckpoint) : Prop :=
  BuiltAt cr cp.height cp.hash ∧ TipAt cr cp.height cp.parent

/- Votes. -/

def VoteBook.HasVote (b : VoteBook) (v : ValidatorId) (h : Height) (x : Hash32) : Prop :=
  ∃ r ∈ b.votesOf v, r.target = h ∧ r.checkpoint = x

theorem VoteBook.hasVote_record {b : VoteBook} {v : ValidatorId} {r : VoteRecord} {h : Height}
    {x : Hash32} (hv : (b.record v r).HasVote v h x) :
    b.HasVote v h x ∨ h = r.target ∧ x = r.checkpoint := by
  obtain ⟨q, hq, hh, hx⟩ := hv
  rw [VoteBook.votesOf_record] at hq
  cases List.mem_append.mp hq with
  | inl hl => exact Or.inl ⟨q, hl, hh, hx⟩
  | inr hr =>
    rw [List.mem_singleton.mp hr] at hh hx
    exact Or.inr ⟨hh.symm, hx.symm⟩

/-- One source per target, and no two checkpoints for one target: nothing to report. -/
theorem selfEvidence_nil {votes : VoteBook} {v : ValidatorId}
    (hsource : ∀ r ∈ votes.votesOf v, r.source = r.target - 1)
    (honce : ∀ h x y, votes.HasVote v h x → votes.HasVote v h y → x = y) :
    MacroFin.selfEvidence votes v = [] := by
  have hlinks : ∀ a b : Nat, ¬ ((a - 1 < b - 1 ∧ b - 1 ≤ b) ∧ b < a) := by omega
  have hnone : ∀ r ∈ votes.votesOf v, ∀ r' ∈ votes.votesOf v,
      Slashing.surrounds r.source r.target r'.source r'.target = false := by
    intro r hr r' hr'
    rw [hsource r hr, hsource r' hr', Bool.eq_false_iff]
    intro hs
    simp only [Slashing.surrounds, Bool.and_eq_true, decide_eq_true_eq] at hs
    exact hlinks _ _ hs
  have hsur : Slashing.scanForSurround votes v = none := by
    rw [scanForSurround_eq]
    refine newest_none ?_
    intro n hn o ho
    simp [surroundHit, hnone n hn o ho, hnone o ho n hn]
  have hdbl : Slashing.scanForDoubleVote votes v = none := by
    rw [scanForDoubleVote_eq]
    refine newest_none ?_
    intro n hn o ho
    rw [doubleVoteHit, ite_eq_right_iff]
    intro hbad
    exact absurd (honce n.target o.checkpoint n.checkpoint ⟨o, ho, hbad.1, rfl⟩
      ⟨n, hn, rfl, rfl⟩) hbad.2
  simp [MacroFin.selfEvidence, hsur, hdbl]

def Action.isMacroNews : Action → Bool
  | .broadcastMacroProposal _ => true
  | .emitSlashEvidence _ (.vertexEquivocation _) => false
  | .emitSlashEvidence _ _ => true
  | _ => false

theorem not_macroNews_of_not_decision {a : Action} (h : a.isDecision = false) :
    a.isMacroNews = false := by
  cases a with
  | emitSlashEvidence o ev => cases ev <;> simp_all [Action.isDecision, Action.isMacroNews]
  | _ => simp_all [Action.isDecision, Action.isMacroNews]

/- One node. -/

/-- L3 of node `v` in a network that had sent `sent` before the call, and has sent
`as` now. -/
structure MacroHonest (cr : Crypto) (v : ValidatorId) (sent as : List Action) (c : MacroCore) :
    Prop where
  selfId : c.selfId = v
  chain : ∃ ps, ChainInv ps c
  tip : TipAt cr c.nextHeight c.lastMacroHash
  candidates : ∀ (h : Height) (cp : MacroCheckpoint), c.candidate[h]? = some cp → Grounded cr cp
  lock : LockInv (c.votes.HasVote v) c
  sources : ∀ r ∈ c.votes.votesOf v, r.source = r.target - 1
  own : ∀ p, Action.broadcastMacroProposal p ∈ as → p.proposer = v →
    p.checkpoint.height ∈ c.proposalSeen
  once : ∀ p q, Action.broadcastMacroProposal p ∈ as → Action.broadcastMacroProposal q ∈ as →
    p.proposer = v → q.proposer = v → p.checkpoint.height = q.checkpoint.height →
    p.checkpoint.hash = q.checkpoint.hash
  seen : ∀ (k : Height ×ₗ ValidatorId) (q : MacroProposal), q ∈ c.proposalsSeen[k]?.getD [] →
    Action.broadcastMacroProposal q ∈ sent ∧ k = toLex (q.checkpoint.height, q.proposer)
  grounded : ∀ p, Action.broadcastMacroProposal p ∈ as → Grounded cr p.checkpoint
  fresh : ∀ p, Action.broadcastMacroProposal p ∈ as →
    Action.broadcastMacroProposal p ∈ sent ∨ p.proposer = v
  clean : ∀ o ev, Action.emitSlashEvidence o ev ∈ as → ∃ e, ev = .vertexEquivocation e

def OneProposalPerHeight (sent : List Action) : Prop :=
  ∀ p q, Action.broadcastMacroProposal p ∈ sent → Action.broadcastMacroProposal q ∈ sent →
    p.proposer = q.proposer → p.checkpoint.height = q.checkpoint.height →
    p.checkpoint.hash = q.checkpoint.hash

section Macros
variable {cr : Crypto} {v : ValidatorId} {sent as : List Action} {c : MacroCore}

theorem MacroHonest.quiet (h : MacroHonest cr v sent as c) (acts : List Action)
    (hacts : ∀ a ∈ acts, a.isMacroNews = false) : MacroHonest cr v sent (as ++ acts) c := by
  have hold : ∀ p, Action.broadcastMacroProposal p ∈ as ++ acts →
      Action.broadcastMacroProposal p ∈ as := by
    intro p hp
    cases List.mem_append.mp hp with
    | inl hl => exact hl
    | inr hr => exact absurd (hacts _ hr) (by simp [Action.isMacroNews])
  refine { h with
    own := fun p hp => h.own p (hold p hp)
    once := fun p q hp hq => h.once p q (hold p hp) (hold q hq)
    grounded := fun p hp => h.grounded p (hold p hp)
    fresh := fun p hp => h.fresh p (hold p hp)
    clean := ?_ }
  intro o ev hmem
  cases List.mem_append.mp hmem with
  | inl hl => exact h.clean o ev hl
  | inr hr =>
    have hd := hacts _ hr
    cases ev with
    | vertexEquivocation e => exact ⟨e, rfl⟩
    | _ => simp [Action.isMacroNews] at hd

theorem MacroHonest.propose (h : MacroHonest cr v sent as c) {p : MacroProposal}
    (hself : p.proposer = v) (hp : Grounded cr p.checkpoint)
    (hfirst : p.checkpoint.height ∉ c.proposalSeen) :
    MacroHonest cr v sent (as ++ [.broadcastMacroProposal p])
      { c with proposalSeen := insert p.checkpoint.height c.proposalSeen } := by
  have hcases : ∀ q, Action.broadcastMacroProposal q ∈ as ++ [.broadcastMacroProposal p] →
      Action.broadcastMacroProposal q ∈ as ∨ q = p := by
    intro q hq
    cases List.mem_append.mp hq with
    | inl hl => exact Or.inl hl
    | inr hr =>
      cases List.mem_singleton.mp hr
      exact Or.inr rfl
  have hother : ∀ q, Action.broadcastMacroProposal q ∈ as → q.proposer = v →
      q.checkpoint.height ≠ p.checkpoint.height := by
    intro q hq hqv heq
    exact hfirst (heq ▸ h.own q hq hqv)
  obtain ⟨ps, hc⟩ := h.chain
  refine { h with
    chain := ⟨ps, hc.next, hc.last, hc.chain, hc.emitted, hc.distinct, hc.height, hc.done,
      hc.filled, hc.pending⟩
    lock := ?_, own := ?_, once := ?_, grounded := ?_, fresh := ?_, clean := ?_ }
  · exact ⟨h.lock.reach, h.lock.covers, h.lock.once, h.lock.due⟩
  · intro q hq hqv
    cases hcases q hq with
    | inl hold => exact Finset.mem_insert_of_mem (h.own q hold hqv)
    | inr heq =>
      rw [heq]
      exact Finset.mem_insert_self _ _
  · intro q q' hq hq' hqv hqv' hh
    cases hcases q hq with
    | inl hold =>
      cases hcases q' hq' with
      | inl hold' => exact h.once q q' hold hold' hqv hqv' hh
      | inr heq' => exact absurd (heq' ▸ hh) (hother q hold hqv)
    | inr heq =>
      cases hcases q' hq' with
      | inl hold' => exact absurd (heq ▸ hh.symm) (hother q' hold' hqv')
      | inr heq' => rw [heq, heq']
  · intro q hq
    cases hcases q hq with
    | inl hold => exact h.grounded q hold
    | inr heq => exact heq ▸ hp
  · intro q hq
    cases hcases q hq with
    | inl hold => exact h.fresh q hold
    | inr heq => exact Or.inr (heq ▸ hself)
  · intro o ev hmem
    cases List.mem_append.mp hmem with
    | inl hl => exact h.clean o ev hl
    | inr hr => simp at hr

theorem MacroHonest.votes_next (hinj : HashInjective cr) (hzero : HashNonzero cr)
    (h : MacroHonest cr v sent as c) {cp : MacroCheckpoint} (hcp : Grounded cr cp)
    (hparent : cp.parent = c.lastMacroHash) : cp.height = c.nextHeight :=
  hcp.2.height_unique hinj hzero (hparent ▸ h.tip)

/-- A vote for a proposal that extends the tip. -/
theorem MacroHonest.vote (h : MacroHonest cr v sent as c) {cp : MacroCheckpoint}
    (sig : BlsSig) {d : MacroCore} (hcp : Grounded cr cp)
    (hlocks : d.locks.locks[c.selfId]? = some (cp.height, cp.hash))
    (hlock : LockInv (c.votes.HasVote v) d) (hchain : ∃ ps, ChainInv ps d)
    (hd : d = { c with
      locks := d.locks
      proposalSeen := insert cp.height c.proposalSeen
      twoChain := c.twoChain.adopt cp
      candidate := c.candidate.insert cp.height cp
      votes := c.votes.record c.selfId ⟨cp.height - 1, cp.height, cp.hash, sig⟩ }) :
    MacroFin.selfEvidence d.votes d.selfId = [] ∧ MacroHonest cr v sent as d := by
  have hself : d.selfId = v := by
    rw [hd]
    exact h.selfId
  have hvotes : d.votes = c.votes.record v ⟨cp.height - 1, cp.height, cp.hash, sig⟩ := by
    rw [hd, ← h.selfId]
  have hsources : ∀ r ∈ d.votes.votesOf v, r.source = r.target - 1 := by
    intro r hr
    rw [hvotes, VoteBook.votesOf_record] at hr
    cases List.mem_append.mp hr with
    | inl hold => exact h.sources r hold
    | inr hnew => rw [List.mem_singleton.mp hnew]
  have hlock' : LockInv (d.votes.HasVote v) d := by
    refine hlock.vote (h := cp.height) (x := cp.hash) ?_ ?_
    · rw [hself, ← h.selfId]
      exact hlocks
    · intro h' x' hv
      rw [hvotes] at hv
      exact VoteBook.hasVote_record hv
  refine ⟨?_, { h with
    selfId := hself, chain := hchain, tip := ?_, candidates := ?_, lock := hlock'
    sources := hsources, own := ?_, seen := ?_ }⟩
  · rw [hself]
    exact selfEvidence_nil hsources hlock'.once
  · rw [hd]
    exact h.tip
  · rw [hd]
    intro k q hq
    simp only [Maps.get_insert] at hq
    split at hq
    · cases hq
      exact hcp
    · exact h.candidates k q hq
  · rw [hd]
    intro p hp hpv
    exact Finset.mem_insert_of_mem (h.own p hp hpv)
  · rw [hd]
    exact h.seen

theorem macroHonest_move {call : NodeCall} {d : MacroCore} {sg : List SignReq}
    {acts : List Action} (hinj : HashInjective cr) (hzero : HashNonzero cr)
    (hpaced : call.wellPaced cr = true)
    (hdel : ∀ p, call.event = some (.macroProposalReceived p) →
      Action.broadcastMacroProposal p ∈ sent)
    (huniq : OneProposalPerHeight sent)
    (hground : ∀ p, Action.broadcastMacroProposal p ∈ sent → Grounded cr p.checkpoint)
    (hm : Move cr call c sg acts d) (h : MacroHonest cr v sent as c) :
    MacroHonest cr v sent (as ++ acts) d := by
  obtain ⟨ps, hchain⟩ := h.chain
  have hnext := chainInv_move hm hchain
  have hlock := lockInv_keep (fun p _ hev _ _ hparent _ =>
    h.votes_next hinj hzero (hground p (hdel p hev)) hparent) hm h.lock
  have hplain : ∀ {acts : List Action}, (∀ a ∈ acts, a.isMacroTraffic = true) →
      ∀ a ∈ acts, a.isMacroNews = false :=
    fun hacts a ha => not_macroNews_of_not_decision (macroTraffic_plain (hacts a ha)).1
  cases hm with
  | plain acts hacts => exact h.quiet acts (hplain hacts)
  | see p hev =>
    rw [List.append_nil]
    refine { h with chain := ⟨ps, hnext⟩, lock := hlock, seen := ?_ }
    intro k q hq
    simp only [Maps.get_insert] at hq
    split at hq
    · rename_i heq
      rw [Option.getD_some, List.mem_singleton] at hq
      subst hq
      exact ⟨hdel q hev, heq.symm⟩
    · exact h.seen k q hq
  | accuse p q ev hev hq hne =>
    obtain ⟨hqs, hkey⟩ := h.seen _ q hq
    have hpair := toLex.injective hkey
    simp only [Prod.mk.injEq] at hpair
    exact absurd (huniq q p hqs (hdel p hev) hpair.2.symm hpair.1.symm) hne
  | window root =>
    rw [List.append_nil]
    refine { h with chain := ⟨ps, hnext⟩, candidates := ?_, lock := hlock }
    intro k q hq
    simp only [Maps.get_insert] at hq
    split at hq
    · cases hq
      exact ⟨⟨c.lastMacroHash, root, rfl⟩, h.tip⟩
    · exact h.candidates k q hq
  | arm id acts hacts =>
    exact { h.quiet acts (hplain hacts) with chain := ⟨ps, hnext⟩, lock := hlock }
  | propose height cp proof hc hfirst =>
    have hh := (hchain.height height cp hc).1
    subst hh
    exact h.propose h.selfId (h.candidates _ cp hc) (hfirst hpaced)
  | recordVote p old locks hev hacc hpre hparent hold hroot hhash hl =>
    have hvote := h.vote (MacroFin.voteRecord call.ctx p.checkpoint.height p.checkpoint.hash).sig
      (hground p (hdel p hev)) (tryLock_locks hl) hlock ⟨ps, hnext⟩ rfl
    rw [hvote.1, List.append_nil]
    exact hvote.2
  | announce height cp subnet hc hl =>
    have hq := h.quiet [.broadcastBlsPartial ⟨subnet, c.selfId, cp.hash,
      call.ctx.signBls .macroCheckpoint (MacroFin.checkpointMessage cp)⟩]
      (by simp [Action.isMacroNews])
    exact { hq with chain := ⟨ps, hnext⟩, lock := hlock }
  | _ =>
    rw [List.append_nil]
    exact { h with chain := ⟨ps, hnext⟩, lock := hlock }

theorem macroHonest_adopt {call : NodeCall} {d : MacroCore} {acts : List Action}
    (ha : Adopt cr call c acts d) (h : MacroHonest cr v sent as c) :
    MacroHonest cr v sent (as ++ acts) d := by
  obtain ⟨ps, hchain⟩ := h.chain
  cases ha with
  | mk set height cand qc own leak hset hpre hnew hc hnames hqc hleak =>
    have hq := h.quiet ((if own then [.broadcastMacroQc qc] else []) ++
      MacroFin.adoptionActions cand qc ++ leak ++ c.finalizedActions (c.twoChain.adopt cand)) (by
        intro a ha
        simp only [List.mem_append, or_assoc] at ha
        obtain ho | hact | hl | hf := ha
        · split at ho
          · rw [List.mem_singleton.mp ho]
            rfl
          · cases ho
        · simp only [MacroFin.adoptionActions, List.mem_cons, List.not_mem_nil, or_false] at hact
          obtain rfl | rfl | rfl := hact
          all_goals rfl
        · exact not_macroNews_of_not_decision (macroTraffic_plain (hleak a hl)).1
        · obtain ⟨prev, cp, -, -, rfl⟩ := finalizedActions_spec hf
          rfl)
    have hbuilt : TipAt cr (height + 1) cand.hash := by
      have hg := (h.candidates height cand hc).1
      rwa [(hchain.height height cand hc).1] at hg
    exact { hq with
      chain := ⟨_, chainInv_adopted hchain hc hnew⟩
      tip := hbuilt
      lock := lockInv_adopted hchain h.lock hc hnew
      own := fun p hp hpv => Finset.mem_insert_of_mem (hq.own p hp hpv) }

end Macros
end LuaDag
