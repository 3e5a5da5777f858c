import LuaDag.CertifiedDag
import LuaDag.NetworkMoments

/-! Certificates on a network. Each is verified and for a proposal that has been sent, and
proposals stand on certificates that have been sent. -/
namespace LuaDag
open VertexCert

theorem InLog.append {log : List CertifiedVertex}
    {m : Std.TreeMap Round (Std.TreeMap ValidatorId Hash32)} (h : InLog log m)
    (new : List CertifiedVertex) : InLog (log ++ new) m := by
  intro r a x hx
  obtain ⟨cv, hcv, hrest⟩ := h r a x hx
  exact ⟨cv, List.mem_append_left _ hcv, hrest⟩

/-- L1 of a node in a network that has sent `acts`: what it has on record has been sent, and so
have its own proposals. -/
structure Vouched (cr : Crypto) (set : ValidatorSet) (acts : List Action) (b : VertexBook) :
    Prop where
  recorded : InLog (certifiedIn acts) b.certifiedByRound
  mine : ∀ (h : Hash32) (p : VertexProposal), b.myProposals[h]? = some p →
    Action.broadcastVertexProposal p ∈ acts
  proposals : ∀ p, Action.broadcastVertexProposal p ∈ acts →
    Grounds (certifiedIn acts) (quorumThreshold set.entries.length) p.vertex
  certificates : ∀ cv ∈ certifiedIn acts, verifyCertifiedVertex cr cv set = .ok () ∧
    ∃ p, Action.broadcastVertexProposal p ∈ acts ∧ p.vertex = cv.vertex

section Vouched
variable {cr : Crypto} {set : ValidatorSet} {acts new : List Action} {b d : VertexBook}

theorem mem_of_news {as : List Action}
    (hsame : ∀ a, a.isCertNews = true → (a ∈ acts ↔ a ∈ as)) (cv : CertifiedVertex) :
    cv ∈ certifiedIn acts ↔ cv ∈ certifiedIn as := by
  rw [mem_certifiedIn, mem_certifiedIn]
  exact hsame _ rfl

theorem Vouched.congr (h : Vouched cr set acts b) {as : List Action}
    (hsame : ∀ a, a.isCertNews = true → (a ∈ acts ↔ a ∈ as)) : Vouched cr set as b := by
  refine ⟨?_, fun x p hx => (hsame _ rfl).mp (h.mine x p hx), ?_, ?_⟩
  · intro r a x hx
    obtain ⟨cv, hcv, hrest⟩ := h.recorded r a x hx
    exact ⟨cv, (mem_of_news hsame cv).mp hcv, hrest⟩
  · intro p hp
    refine (h.proposals p ((hsame _ rfl).mpr hp)).imp_right fun habove =>
      ⟨habove.1, habove.2.1, ?_⟩
    intro x hx
    obtain ⟨cv, hcv, hrest⟩ := habove.2.2 x hx
    exact ⟨cv, (mem_of_news hsame cv).mp hcv, hrest⟩
  · intro cv hcv
    obtain ⟨hok, p, hp, heq⟩ := h.certificates cv ((mem_of_news hsame cv).mpr hcv)
    exact ⟨hok, p, (hsame _ rfl).mp hp, heq⟩

theorem Vouched.more (h : Vouched cr set acts b)
    (hrecorded : InLog (certifiedIn (acts ++ new)) d.certifiedByRound)
    (hmine : ∀ (x : Hash32) (p : VertexProposal), d.myProposals[x]? = some p →
      b.myProposals[x]? = some p ∨ Action.broadcastVertexProposal p ∈ acts ++ new)
    (hproposals : ∀ p, Action.broadcastVertexProposal p ∈ new →
      Grounds (certifiedIn acts) (quorumThreshold set.entries.length) p.vertex)
    (hcertificates : ∀ cv ∈ certifiedIn new, verifyCertifiedVertex cr cv set = .ok () ∧
      ∃ p, Action.broadcastVertexProposal p ∈ acts ∧ p.vertex = cv.vertex) :
    Vouched cr set (acts ++ new) d := by
  refine ⟨hrecorded, ?_, ?_, ?_⟩
  · intro x p hx
    cases hmine x p hx with
    | inl hold => exact List.mem_append_left _ (h.mine x p hold)
    | inr hsent => exact hsent
  · intro p hp
    rw [certifiedIn_append]
    cases List.mem_append.mp hp with
    | inl hold => exact (h.proposals p hold).append
    | inr hnew => exact (hproposals p hnew).append
  · intro cv hcv
    rw [certifiedIn_append] at hcv
    have hboth : verifyCertifiedVertex cr cv set = .ok () ∧
        ∃ p, Action.broadcastVertexProposal p ∈ acts ∧ p.vertex = cv.vertex := by
      cases List.mem_append.mp hcv with
      | inl hold => exact h.certificates cv hold
      | inr hnew => exact hcertificates cv hnew
    obtain ⟨hok, p, hp, heq⟩ := hboth
    exact ⟨hok, p, List.mem_append_left _ hp, heq⟩

/-- A write that records and certifies nothing. -/
theorem Vouched.keep (h : Vouched cr set acts b)
    (hrecorded : ∀ (r : Round) (a : ValidatorId) (x : Hash32),
      (certsAt d.certifiedByRound r)[a]? = some x → (certsAt b.certifiedByRound r)[a]? = some x)
    (hmine : ∀ (x : Hash32) (p : VertexProposal), d.myProposals[x]? = some p →
      b.myProposals[x]? = some p)
    (hproposals : ∀ p, Action.broadcastVertexProposal p ∈ new →
      Action.broadcastVertexProposal p ∈ acts)
    (hnone : certifiedIn new = []) : Vouched cr set (acts ++ new) d := by
  refine h.more ?_ (fun x p hx => Or.inl (hmine x p hx))
    (fun p hp => h.proposals p (hproposals p hp)) (by simp [hnone])
  rw [certifiedIn_append]
  exact fun r a x hx => h.recorded.append _ r a x (hrecorded r a x hx)

theorem Vouched.seed {cfg : Config} {ctx : HostContext} (h : Vouched cr set acts b) {round : Round}
    {parents : List Hash32} {c : VertexBook} (hc : c = b ∨ c = { b with started := true })
    (hground : Grounds (certifiedIn acts) (quorumThreshold set.entries.length)
      (ownVertex cr ctx b round parents)) :
    Vouched cr set (acts ++ ownActions cr cfg ctx b round parents)
      (seeded cr ctx c round parents) := by
  have hproposal : ownProposal cr ctx c round parents = ownProposal cr ctx b round parents := by
    obtain rfl | rfl := hc <;> rfl
  have hmine : c.myProposals = b.myProposals := by
    obtain rfl | rfl := hc <;> rfl
  have hcerts : c.certifiedByRound = b.certifiedByRound := by
    obtain rfl | rfl := hc <;> rfl
  have hin : ∀ p, Action.broadcastVertexProposal p ∈ ownActions cr cfg ctx b round parents ↔
      p = ownProposal cr ctx b round parents := by
    intro p
    simp [ownActions]
  refine h.more ?_ ?_ ?_ ?_
  · rw [certifiedIn_append]
    change InLog _ c.certifiedByRound
    rw [hcerts]
    exact h.recorded.append _
  · intro x p hx
    cases Maps.get_of_insert hx with
    | inl hnew =>
      obtain ⟨-, rfl⟩ := hnew
      exact Or.inr (List.mem_append_right _ ((hin _).mpr hproposal))
    | inr hold => exact Or.inl (hmine ▸ hold)
  · intro p hp
    rw [(hin p).mp hp]
    exact hground
  · simp [certifiedIn_own]

theorem vouched_move {call : NodeCall} {sg : List SignReq} (hset : activeSet call.ctx = .ok set)
    (hdel : ∀ cv, call.event = some (.certifiedVertexReceived cv) →
      Action.broadcastCertifiedVertex cv ∈ acts)
    (hm : BookMove cr call b sg new d) (h : Vouched cr set acts b) :
    Vouched cr set (acts ++ new) d := by
  have hsame : ∀ {set'}, activeSet call.ctx = .ok set' → set' = set :=
    fun hset' => Except.ok.inj (hset'.symm.trans hset)
  cases hm with
  | certify set' need x p sigs cv hset' hneed hnew hmine hsigs hquorum hcv hok =>
    rw [hsame hset'] at hok
    refine h.more ?_ (fun y q hy => Or.inl hy) (by simp) ?_
    · rw [certifiedIn_append]
      exact h.recorded.record cv
    · intro w hw
      cases List.mem_singleton.mp hw
      exact ⟨hok, p, h.mine x p hmine, (assembleCert_vertex hcv).symm⟩
  | record cv hev =>
    refine h.more ?_ (fun y q hy => Or.inl hy) (by simp) (by simp [certifiedIn])
    rw [List.append_nil]
    intro r a x hx
    change (certsAt (recordIn b.certifiedByRound cv.vertex) r)[a]? = some x at hx
    rw [recordIn_get] at hx
    split at hx
    · rename_i hslot
      cases hx
      exact ⟨cv, mem_certifiedIn.mpr (hdel cv hev), hslot.1, hslot.2, rfl⟩
    · exact h.recorded r a x hx
  | genesis hst => exact h.seed (Or.inr rfl) (Or.inl ⟨rfl, rfl⟩)
  | propose set' need certs hst hset' hready =>
    rw [hsame hset'] at hready
    refine h.seed (Or.inl rfl) (Or.inr ⟨Nat.succ_pos _, ?_, ?_⟩)
    · rw [← quorumNeed_ok hready.threshold]
      change need ≤ (certs.values.take need).length
      rw [List.length_take, Maps.length_values]
      exact le_min (Nat.le_refl _) hready.quorum
    · intro y hy
      obtain ⟨a, ha⟩ := Maps.mem_values.mp (List.mem_of_mem_take hy)
      have hheld : (certsAt b.certifiedByRound b.currentRound)[a]? = some y := by
        rw [certsAt, hready.held, Option.getD_some, ha]
      obtain ⟨cv, hcv, hr, -, hhash⟩ := h.recorded _ a y hheld
      exact ⟨cv, hcv, congrArg (· + 1) hr, hhash⟩
  | prune hst =>
    refine h.keep ?_ (fun x p hx => (prune_mine.mp hx).1) (by simp) rfl
    intro r a x hx
    unfold certsAt at hx ⊢
    cases hget : (prune b).certifiedByRound[r]? with
    | none => simp [hget] at hx
    | some certs =>
      rw [hget, Option.getD_some] at hx
      rw [Maps.get_of_filter hget, Option.getD_some, hx]
  | rearm id hev stalled retries delay again hagain =>
    refine h.keep (fun r a x hx => hx) (fun x p hx => hx) ?_ ?_
    · intro p hp
      have hsome : again = some p := by
        cases again with
        | none => simp at hp
        | some q => simpa [eq_comm] using hp
      rw [hagain] at hsome
      obtain ⟨e, he, rfl⟩ := Option.map_eq_some_iff.mp hsome
      have hin := (Maps.mem_toList _ _ _).mp (List.mem_of_find?_eq_some he)
      exact h.mine e.1 e.2 hin
    · cases again <;> rfl
  | _ => exact h.keep (fun r a x hx => hx) (fun x p hx => hx) (by simp) rfl

end Vouched

namespace Network
variable {cr : Crypto} {cfg : Config} {set : ValidatorSet} {ds : List Delivery}

/-- In a network whose calls return, everything sent is vouched for. -/
theorem vouched (hauth : ∀ call ∈ run cr cfg ds, NetworkCall.authentic set call = true)
    (hserved : ∀ d ∈ ds, activeSet d.2.2 = .ok set)
    (hok : ∀ call ∈ run cr cfg ds,
      ∃ acts, (StateMachine.exec cr call.input.2 (call.pre.nodes call.input.1)).result = .ok acts)
    (t : Nat) (v : ValidatorId) :
    Vouched cr set (upTo cr cfg ds t).sent (bookAt cr cfg ds t v) := by
  induction t using @moments ds generalizing v with
  | start =>
    refine ⟨?_, ?_, ?_, ?_⟩ <;>
      simp [upTo, bookAt, reached, Trace.final, Network.new, StateMachine.new, VertexBook.new,
        InLog, certsAt, certifiedIn]
  | ended t hd ih =>
    rw [bookAt_end hd, upTo_end hd]
    exact ih v
  | call t d hd ih =>
    let call : NodeCall := ⟨(upTo cr cfg ds t).nodes d.1, d.2⟩
    obtain ⟨acts, hacts⟩ := hok _ (mem_run hd)
    obtain ⟨vacts, hv⟩ := @vertices_ok cr call acts hacts
    obtain ⟨new, hpath, hres⟩ := vertexOutcome_moves cr call
    have hcalled := hpath.invariant (R := fun _ => True)
      (P := fun _ as b => (∀ a ∈ (upTo cr cfg ds t).sent, a ∈ as) ∧ Vouched cr set as b)
      (fun _ as b _ _ _ _ hm hb => ⟨fun a ha => List.mem_append_left _ (hb.1 a ha),
        @vouched_move cr set _ _ _ _ call _ (hserved d (List.mem_of_getElem? hd))
          (fun cv hev => hb.1 _ (@sent_of_authentic set ⟨upTo cr cfg ds t, d⟩ _ _
            (hauth _ (mem_run hd)) hev rfl)) hm hb.2⟩)
      (fun _ _ => trivial) [] _ ⟨fun a ha => ha, ih d.1⟩
    have hnews : ∀ a : Action, a.isCertNews = true →
        (a ∈ (upTo cr cfg ds t).sent ++ new ↔ a ∈ (upTo cr cfg ds (t + 1)).sent) := by
      intro a ha
      have hsame := @exec_news cr call acts a hacts ha
      simp only [Outcome.actions, hv, hres vacts hv] at hsame
      rw [upTo_succ hd, exec, List.mem_append, List.mem_append, ← hsame]
      rfl
    by_cases hd' : d.1 = v
    · rw [bookAt_succ hd, if_pos hd']
      subst hd'
      exact hcalled.2.congr hnews
    · rw [bookAt_succ hd, if_neg hd']
      have hothers := ih v
      have hmore : Vouched cr set ((upTo cr cfg ds t).sent ++ new) (bookAt cr cfg ds t v) := by
        refine ⟨?_, fun x p hx => List.mem_append_left _ (hothers.mine x p hx),
          hcalled.2.proposals, hcalled.2.certificates⟩
        rw [certifiedIn_append]
        exact hothers.recorded.append _
      exact hmore.congr hnews

end Network
end LuaDag
