import LuaDag.CertifiedDag
import LuaDag.NetworkMoments

/-! Rounds grow. Nodes of a quorum that get what L1 sends, and whose round timers fire, do not
stay in a round: the timer brings out the proposals again, once the parents have come in they get
votes, votes make certificates, and a quorum of certificates ends the round. -/
namespace LuaDag
open VertexCert Network

/-- From `t` to `t'`, what L1 has sent before `t` gets to the nodes of `alive`, and the round timers
that they had armed at `t` fire or are replaced. -/
structure Prompt (cr : Crypto) (cfg : Config) (ds : List Delivery) (alive : Finset ValidatorId)
    (t t' : Nat) : Prop where
  later : t ≤ t'
  delivers : ∀ s < t, ∀ v a, Sends cr cfg ds s v a → a.isCertNews = true →
    ∀ w ∈ alive, w ≠ v → ∃ u, s < u ∧ u < t' ∧ Gets ds u w a
  timers : ∀ v ∈ alive,
    (bookAt cr cfg ds t' v).roundTimer ≠ (bookAt cr cfg ds t v).roundTimer

/- One call. -/
section Call
variable {cr : Crypto} {call : NodeCall} {set : ValidatorSet} {need : Nat} {me : ValidatorId}

/-- The proposal that a round timer sends again is that of the current round. -/
theorem current_found {b : VertexBook} (hown : OwnBook cr me b) {h : Hash32} {p : VertexProposal}
    (hp : b.myProposals[h]? = some p) (hround : p.vertex.round = b.currentRound) :
    b.myProposals.toList.find? (fun e => e.2.vertex.round = b.currentRound) = some (h, p) := by
  cases hfind : b.myProposals.toList.find? fun e => e.2.vertex.round = b.currentRound with
  | none =>
    have hno := List.find?_eq_none.mp hfind (h, p) ((Maps.mem_toList _ _ _).mpr hp)
    simp [hround] at hno
  | some e =>
    obtain ⟨x, q⟩ := e
    obtain ⟨hx, hq⟩ := Maps.find_spec b.myProposals _ x q hfind
    have hround' : q.vertex.round = b.currentRound := by simpa using hq
    have hsame : x = h := hown.single x h q p hx hp (hround'.trans hround.symm)
    subst hsame
    rw [hx] at hp
    cases hp
    rfl

/-- A call that changes the round timer and stays in the round sends the proposal of the round
again. -/
theorem timer_moved (hset : activeSet call.ctx = .ok set) (hneed : quorumNeed set = .ok need)
    (hown : OwnBook cr me call.pre.vertices) (hst : call.pre.vertices.started = true)
    (hdrained : Drained need call.pre.vertices) {acts : List Action}
    (hok : (call.vertexOutcome cr).result = .ok acts)
    (hround : (call.vertexOutcome cr).state.currentRound = call.pre.vertices.currentRound)
    (htimer : (call.vertexOutcome cr).state.roundTimer ≠ call.pre.vertices.roundTimer)
    {h : Hash32} {p : VertexProposal} (hp : call.pre.vertices.myProposals[h]? = some p)
    (hcurrent : p.vertex.round = call.pre.vertices.currentRound) :
    Action.broadcastVertexProposal p ∈ (call.vertexOutcome cr).actions := by
  by_cases hev : ∃ id, call.event = some (.timerFired id)
  · obtain ⟨id, hev⟩ := hev
    obtain ⟨heq, -⟩ | ⟨hid, heq⟩ := timer_call cr hev hok
    · exact absurd (congrArg (·.roundTimer) heq) htimer
    · obtain ⟨stalled, retries, delay, hfired⟩ :=
        @onTimerFired_armed call.pre.cfg call.ctx need set hset hneed id _ hdrained hid
      rw [heq, hfired, current_found hown hp hcurrent]
      simp
  · obtain ⟨new, hpath, -⟩ := vertexOutcome_moves cr call
    have hkeep := hpath.keeps (P := fun d => d.started = true ∧
      (call.pre.vertices.currentRound < d.currentRound ∨
        d.currentRound = call.pre.vertices.currentRound ∧
          d.roundTimer = call.pre.vertices.roundTimer)) ?_ ⟨hst, Or.inr ⟨rfl, rfl⟩⟩
    · cases hkeep.2 with
      | inl hlt => exact absurd hround (Nat.ne_of_gt hlt)
      | inr hsame => exact absurd hsame.2 htimer
    intro b sg acts d hm hb
    refine ⟨bookMove_started hm hb.1, ?_⟩
    cases hm with
    | genesis hst' => exact absurd (hb.1.symm.trans hst') (by simp)
    | propose set need certs hst' hset hready =>
      refine Or.inl ?_
      cases hb.2 with
      | inl hlt => exact Nat.lt_succ_of_lt hlt
      | inr heq => exact heq.1 ▸ Nat.lt_succ_self _
    | disarm id hev' => exact absurd ⟨id, hev'⟩ hev
    | rearm id hev' => exact absurd ⟨id, hev'⟩ hev
    | _ => exact hb.2

end Call

/- Own proposals over time. -/

structure Proposing (cr : Crypto) (cfg : Config) (set : ValidatorSet) (ds : List Delivery)
    (t : Nat) (v : ValidatorId) (k : Round) (p : VertexProposal) : Prop where
  mine : (bookAt cr cfg ds t v).myProposals[p.vertex.hash]? = some p
  round : p.vertex.round = k
  author : p.vertex.author = v
  sent : Action.broadcastVertexProposal p ∈ (upTo cr cfg ds t).sent
  sealed : p.vertex.hash = contentHash cr p.vertex
  signed : verifyProposal cr set p = true
  grounds : Grounds (recordingsIn cr (callsOf cr cfg ds t v))
    (quorumThreshold set.entries.length) p.vertex

section Window
variable {cr : Crypto} {cfg : Config} {set : ValidatorSet} {ds : List Delivery}
  {alive : Finset ValidatorId} {t t' : Nat} {v w : ValidatorId} {k : Round}
  {p : VertexProposal} (h : Orderly cr cfg set ds) (hapart : VerticesHashApart cr)
  (hlen : 4 ≤ set.entries.length)
  (hneed : quorumNeed set = .ok (quorumThreshold set.entries.length))
include h hapart hlen hneed

theorem proposing (hst : (bookAt cr cfg ds t v).started = true)
    (hround : (bookAt cr cfg ds t v).currentRound = k) :
    ∃ p, Proposing cr cfg set ds t v k p := by
  have hbusy := @Orderly.busy cr cfg set ds t v h hapart hlen hneed
  have hown : OwnBook cr v (bookAt cr cfg ds t v) := ownBook
  obtain ⟨x, p, hx, hp⟩ := hown.current hst
  obtain ⟨rfl, -, hauthor, -⟩ := hown.mine x p hx
  obtain ⟨hact, hsealed, hsigned⟩ := hbusy.announced.proposals _ p hx
  obtain ⟨s, hs, hsends⟩ := (h.sends_iff rfl).mp hact
  exact ⟨p, hx, hp.trans hround, hauthor, sent_iff.mpr ⟨s, hs, v, hsends⟩, hsealed, hsigned,
    hbusy.risen.grounds _ p hx⟩

/-- It stays the same as long as the round does. -/
theorem Proposing.stays (hp : Proposing cr cfg set ds t v k p) (hle : t ≤ t')
    (hst : (bookAt cr cfg ds t' v).started = true)
    (hround : (bookAt cr cfg ds t' v).currentRound = k) :
    Proposing cr cfg set ds t' v k p := by
  obtain ⟨q, hq⟩ := proposing h hapart hlen hneed hst hround
  have hsame : p = q := h.one_vertex p q (sent_mono hle hp.sent) hq.sent
    (hp.author.trans hq.author.symm) (hp.round.trans hq.round.symm)
  rwa [hsame]

theorem Proposing.again (hp : Proposing cr cfg set ds t v k p)
    (hst : (bookAt cr cfg ds t v).started = true)
    (hnow : (bookAt cr cfg ds t v).currentRound = k) (hle : t ≤ t')
    (hround : (bookAt cr cfg ds t' v).currentRound = k)
    (htimer : (bookAt cr cfg ds t' v).roundTimer ≠ (bookAt cr cfg ds t v).roundTimer) :
    ∃ s, t ≤ s ∧ s < t' ∧ Sends cr cfg ds s v (.broadcastVertexProposal p) := by
  induction t', hle using Nat.le_induction with
  | base => exact absurd rfl htimer
  | succ t' hle ih =>
    have hround' : (bookAt cr cfg ds t' v).currentRound = k := by
      have hlow : k ≤ (bookAt cr cfg ds t' v).currentRound := hnow ▸ round_mono hle
      have hhigh : (bookAt cr cfg ds t' v).currentRound ≤ k := hround ▸ round_mono (Nat.le_succ t')
      exact Nat.le_antisymm hhigh hlow
    by_cases hold : (bookAt cr cfg ds t' v).roundTimer = (bookAt cr cfg ds t v).roundTimer
    · have hst' := started_mono hle hst
      have hp' := hp.stays h hapart hlen hneed hle hst' hround'
      refine ⟨t', hle, Nat.lt_succ_self t', ?_⟩
      rw [← hold] at htimer
      cases hd : ds[t']? with
      | none => exact absurd (congrArg (·.roundTimer) (bookAt_end hd)) htimer
      | some d =>
        rw [bookAt_succ hd] at hround htimer
        by_cases hv : d.1 = v
        · obtain ⟨v', i⟩ := d
          subst hv
          rw [if_pos rfl] at hround htimer
          have hcall := (@mem_callsOf cr cfg ds (t' + 1) v' _).mpr
            ⟨t', Nat.lt_succ_self t', i, hd, rfl⟩
          obtain ⟨hset, -, acts, hacts⟩ := h.call_ok hcall
          obtain ⟨vacts, hv⟩ := vertices_ok hacts
          refine ⟨i, hd, (exec_news hacts rfl).mpr ?_⟩
          exact timer_moved hset hneed ownBook hst' (h.drained hst') hv
            (hround.trans hround'.symm) htimer hp'.mine (hp'.round.trans hround'.symm)
        · rw [if_neg hv] at htimer
          exact absurd rfl htimer
    · obtain ⟨s, hs, hlt, hsends⟩ := ih hround' hold
      exact ⟨s, hs, Nat.lt_succ_of_lt hlt, hsends⟩

/-- A node of the same round on whose record the parents are gives the proposal its vote, unless
it has done so before. -/
theorem vote_sent {u : Nat} (hgets : Gets ds u w (.broadcastVertexProposal p))
    (hround : (bookAt cr cfg ds u w).currentRound = p.vertex.round)
    (hother : p.vertex.author ≠ w) (hsealed : p.vertex.hash = contentHash cr p.vertex)
    (hsigned : verifyProposal cr set p = true)
    (hgrounds : Grounds (recordingsIn cr (callsOf cr cfg ds u w))
      (quorumThreshold set.entries.length) p.vertex) :
    ∃ s ≤ u, ∃ sig, Sends cr cfg ds s w (.broadcastVertexPartial
        ⟨p.vertex.hash, p.vertex.round, p.vertex.author, w, sig⟩) ∧
      VoteOn cr set p.vertex w sig := by
  have hown : OwnBook cr w (bookAt cr cfg ds u w) := ownBook
  have hpsent := h.gets_sent hgets
  have hbusy := @Orderly.busy cr cfg set ds u w h hapart hlen hneed
  by_cases hvoted : (p.vertex.round, p.vertex.author) ∈ (bookAt cr cfg ds u w).voted
  · obtain ⟨q, sig, hq, hr, ha, hact, hvote⟩ := hbusy.votes.2 _ _ hvoted hother
    have hsame : q = p := h.one_vertex q p hq hpsent ha hr
    subst hsame
    obtain ⟨s, hs, hsends⟩ := (h.sends_iff rfl).mp hact
    exact ⟨s, hs.le, sig, hsends, hvote⟩
  · have hvotable : Votable cr set (bookAt cr cfg ds u w) p := by
      refine ⟨⟨hsealed, hsigned, hown.selfId.symm ▸ hother, ?_⟩, ?_, ?_, hvoted⟩
      · rw [hround]
        exact ⟨Nat.le_succ _, Nat.le_succ _⟩
      · intro ps hps q hq
        have hin : q ∈ (bookAt cr cfg ds u w).core.proposalsSeen[toLex (p.vertex.round,
            p.vertex.author)]?.getD [] := by
          change q ∈ (bookAt cr cfg ds u w).proposalsSeen[_]?.getD []
          rw [hps]
          exact hq
        obtain ⟨hqsent, hkey⟩ := (h.honest w).seen _ q hin hother
        have hpair := toLex.injective hkey
        simp only [Prod.mk.injEq] at hpair
        rw [h.one_vertex q p hqsent hpsent hpair.2.symm hpair.1.symm]
      · cases hgrounds with
        | inl hzero => exact Or.inl hzero
        | inr habove =>
          obtain ⟨hpos, hmany, hall⟩ := habove
          refine Or.inr ⟨hpos, _, hneed, parentsKnown_iff.mpr ⟨hmany, ?_⟩⟩
          intro x hx
          obtain ⟨cv, hcv, hr, rfl⟩ := hall x hx
          refine ⟨cv.vertex.author, ?_⟩
          rw [← hr, Nat.add_sub_cancel]
          exact h.on_record hapart hlen hneed hcv (hround.trans hr.symm).le
    obtain ⟨e, ctx, hd, he⟩ := hgets
    have hcall := (@mem_callsOf cr cfg ds (u + 1) w _).mpr ⟨u, Nat.lt_succ_self u, _, hd, rfl⟩
    obtain ⟨hset, ⟨pk, hpk, hver⟩, acts, hacts⟩ := h.call_ok hcall
    cases e with
    | vertexProposalReceived q =>
      cases he
      refine ⟨u, Nat.le_refl u, ctx.signBls .vertexCert (signingBytes p.vertex), ?_,
        pk, hpk, hver _ _⟩
      refine ⟨_, hd, (exec_news hacts rfl).mpr ?_⟩
      have hvote := (onVertexProposal_sends hset).mpr ⟨hvotable, rfl⟩
      rw [voteFor, hown.selfId] at hvote
      exact hvote
    | _ => cases he

omit hapart hlen hneed in
theorem vote_counted {u : Nat} {sig : BlsSig} (hp : Proposing cr cfg set ds u v k p)
    (hst : (bookAt cr cfg ds u v).started = true)
    (hround : (bookAt cr cfg ds u v).currentRound = k) (hother : w ≠ v)
    (hgets : Gets ds u v (.broadcastVertexPartial ⟨p.vertex.hash, k, v, w, sig⟩))
    (hvote : VoteOn cr set p.vertex w sig) :
    CountsVote k p.vertex.hash p w (bookAt cr cfg ds (u + 1) v) := by
  have hown : OwnBook cr v (bookAt cr cfg ds u v) := ownBook
  obtain ⟨e, ctx, hd, he⟩ := hgets
  have hcall := (@mem_callsOf cr cfg ds (u + 1) v _).mpr ⟨u, Nat.lt_succ_self u, _, hd, rfl⟩
  obtain ⟨hset, -⟩ := h.call_ok hcall
  rw [bookAt_succ hd, if_pos rfl]
  cases e with
  | vertexPartialReceived bp =>
    cases he
    obtain ⟨pk, hpk, hver⟩ := hvote
    have hok : verifyPartial cr set ⟨p.vertex.hash, k, v, w, sig⟩ p.vertex = true := by
      simp [verifyPartial, hp.round, hp.author, hpk, hver]
    have hcounts := @onVertexPartial_counts cr ⟨(upTo cr cfg ds u).nodes v, _⟩ p
      (bookAt cr cfg ds u v) set ⟨p.vertex.hash, k, v, w, sig⟩ hset hst
      (hround.trans hp.round.symm) ⟨hown.selfId.symm, hown.selfId.symm ▸ hother⟩ hp.mine hok
    rw [hp.round] at hcounts
    exact hcounts
  | _ => cases he

theorem certificate_sent (hquorum : quorumThreshold set.entries.length ≤ alive.card)
    (hp : Proposing cr cfg set ds t v k p) (hround : (bookAt cr cfg ds t v).currentRound = k)
    (hvotes : ∀ w ∈ alive, w ≠ v → CountsVote k p.vertex.hash p w (bookAt cr cfg ds t v)) :
    ∃ cv, Action.broadcastCertifiedVertex cv ∈ (upTo cr cfg ds t).sent ∧
      cv.vertex.round = k ∧ cv.vertex.author = v := by
  have hbusy := @Orderly.busy cr cfg set ds t v h hapart hlen hneed
  have hown : OwnBook cr v (bookAt cr cfg ds t v) := ownBook
  have hsize := Maps.card_le_size
    ((bookAt cr cfg ds t v).collecting[p.vertex.hash]?.getD ∅) alive ?_
  · have hmarked := hbusy.certified _ p hp.mine (hquorum.trans hsize)
    obtain ⟨cv, hact, -, hcontent⟩ := hbusy.announced.marked _ hmarked
    obtain ⟨s, hs, hsends⟩ := (h.sends_iff rfl).mp hact
    obtain ⟨hr, ha⟩ := hapart cv.vertex p.vertex (hcontent.trans hp.sealed)
    exact ⟨cv, sent_iff.mpr ⟨s, hs, v, hsends⟩, hr.trans hp.round, ha.trans hp.author⟩
  intro w hw
  by_cases hv : w = v
  · have hself := hbusy.own _ p hp.mine
    rw [hown.selfId] at hself
    exact hv ▸ hself
  · cases (hvotes w hw hv).2 with
    | inl hpast => exact absurd hround (Nat.ne_of_gt hpast)
    | inr hnow => exact hnow.2.2.2

omit hneed in
/-- Certificates that have been sent get to every node of `alive`. -/
theorem Prompt.certificates (hprompt : Prompt cr cfg ds alive t t') (hw : w ∈ alive)
    {cv : CertifiedVertex}
    (hcv : Action.broadcastCertifiedVertex cv ∈ (upTo cr cfg ds t).sent) :
    cv ∈ recordingsIn cr (callsOf cr cfg ds t' w) := by
  obtain ⟨s, hs, v, hsends⟩ := sent_iff.mp hcv
  by_cases hv : w = v
  · subst hv
    exact h.recorded_of_sends hapart hlen (Nat.lt_of_lt_of_le hs hprompt.later) hsends
  · obtain ⟨u, -, hu, hgets⟩ := hprompt.delivers s hs v _ hsends rfl w hw hv
    exact Orderly.recorded_of_gets hu hgets

/-- Where one node of `alive` leaves a round, the others follow. -/
theorem Prompt.follow (hprompt : Prompt cr cfg ds alive t t')
    (hpast : k < (bookAt cr cfg ds t v).currentRound) (hw : w ∈ alive)
    (hst : (bookAt cr cfg ds t' w).started = true)
    (hround : k ≤ (bookAt cr cfg ds t' w).currentRound) :
    k < (bookAt cr cfg ds t' w).currentRound := by
  have hbusy := @Orderly.busy cr cfg set ds t v h hapart hlen hneed
  obtain ⟨authors, hcard, hall⟩ := hbusy.risen.behind k hpast
  refine Nat.lt_of_le_of_ne hround (Ne.symm (h.left_behind hapart hlen hneed hst hcard ?_))
  intro a ha
  obtain ⟨cv, hcv, hslot⟩ := hall a ha
  exact ⟨cv, hprompt.certificates h hapart hlen hw (h.recorded_sent hcv), hslot⟩

end Window

def Level (cr : Crypto) (cfg : Config) (ds : List Delivery) (alive : Finset ValidatorId)
    (k : Round) (t t' : Nat) : Prop :=
  ∀ v ∈ alive, ∀ s, t ≤ s → s ≤ t' →
    (bookAt cr cfg ds s v).started = true ∧ (bookAt cr cfg ds s v).currentRound = k

section Cycle
variable {cr : Crypto} {cfg : Config} {set : ValidatorSet} {ds : List Delivery}
  {alive : Finset ValidatorId} {t₀ t₁ t₂ t₃ t₄ t₅ : Nat} {v w : ValidatorId} {k : Round}
  {p : VertexProposal} (h : Orderly cr cfg set ds) (hapart : VerticesHashApart cr)
  (hlen : 4 ≤ set.entries.length)
  (hneed : quorumNeed set = .ok (quorumThreshold set.entries.length))
  (h₀ : Prompt cr cfg ds alive t₀ t₁) (h₁ : Prompt cr cfg ds alive t₁ t₂)
  (h₂ : Prompt cr cfg ds alive t₂ t₃) (h₃ : Prompt cr cfg ds alive t₃ t₄)
include h hapart hlen hneed h₀ h₁ h₂ h₃

/-- In a round that nobody leaves, every node has counted the votes of the others in the end. -/
theorem Level.counted (hlevel : Level cr cfg ds alive k t₀ t₄) (hv : v ∈ alive) (hw : w ∈ alive)
    (hother : w ≠ v) (hp : Proposing cr cfg set ds t₀ v k p) :
    CountsVote k p.vertex.hash p w (bookAt cr cfg ds t₄ v) := by
  have h₀₄ : t₀ ≤ t₁ ∧ t₁ ≤ t₂ ∧ t₂ ≤ t₃ ∧ t₃ ≤ t₄ := ⟨h₀.later, h₁.later, h₂.later, h₃.later⟩
  -- the proposal goes out again once its parents are everywhere, and is delivered
  obtain ⟨hst₁, hround₁⟩ := hlevel v hv t₁ (by omega) (by omega)
  obtain ⟨-, hround₂⟩ := hlevel v hv t₂ (by omega) (by omega)
  have hp₁ := hp.stays h hapart hlen hneed h₀.later hst₁ hround₁
  obtain ⟨s, hs, hst, hsends⟩ := hp₁.again h hapart hlen hneed hst₁ hround₁ h₁.later hround₂
    (h₁.timers v hv)
  obtain ⟨u, hsu, hu, hgets⟩ := h₂.delivers s hst v _ hsends rfl w hw hother
  obtain ⟨-, hroundw⟩ := hlevel w hw u (by omega) (by omega)
  -- it gets its vote
  have hgrounds : Grounds (recordingsIn cr (callsOf cr cfg ds u w))
      (quorumThreshold set.entries.length) p.vertex := by
    refine hp.grounds.imp_right fun habove => ⟨habove.1, habove.2.1, ?_⟩
    intro x hx
    obtain ⟨cv, hcv, hrest⟩ := habove.2.2 x hx
    have hin := h₀.certificates h hapart hlen hw (h.recorded_sent hcv)
    exact ⟨cv, recordings_mono (by omega) hin, hrest⟩
  obtain ⟨s', hs', sig, hvote, hvalid⟩ := vote_sent h hapart hlen hneed hgets
    (hroundw.trans hp.round.symm) (fun heq => hother (heq.symm.trans hp.author)) hp.sealed
    hp.signed hgrounds
  rw [hp.round, hp.author] at hvote
  -- the vote comes back in time
  obtain ⟨u', hsu', hu', hgets'⟩ := h₃.delivers s' (by omega) w _ hvote rfl v hv hother.symm
  have hearly : Action.broadcastVertexProposal p ∈ (upTo cr cfg ds u').sent := by
    obtain ⟨i, hi, hin⟩ := hvote
    obtain ⟨q, hev, hqround, hqauthor⟩ :=
      @exec_vote cr ⟨(upTo cr cfg ds s').nodes w, i⟩ _ hin
    have hq : Action.broadcastVertexProposal q ∈ (upTo cr cfg ds s').sent :=
      @sent_of_authentic set ⟨upTo cr cfg ds s', w, i⟩ _ _ (h.authentic _ (mem_run hi)) hev rfl
    have hsame : q = p := h.one_vertex q p (sent_mono (by omega) hq)
      (sent_mono (by omega) hp.sent)
      (hqauthor.symm.trans hp.author.symm) (hqround.symm.trans hp.round.symm)
    exact hsame ▸ sent_mono hsu'.le hq
  obtain ⟨hstu, hlow⟩ := h.sent_round hearly
  rw [hp.author] at hstu hlow
  have hroundu : (bookAt cr cfg ds u' v).currentRound = k := by
    refine Nat.le_antisymm ?_ (hp.round ▸ hlow)
    rw [← (hlevel v hv t₄ (by omega) (Nat.le_refl _)).2]
    exact round_mono (by omega)
  obtain ⟨q, hq⟩ := proposing h hapart hlen hneed hstu hroundu
  have hsame : q = p := h.one_vertex q p (sent_mono (Nat.le_of_lt hu') hq.sent)
    (sent_mono (Nat.le_of_lt hu') hearly) (hq.author.trans hp.author.symm)
    (hq.round.trans hp.round.symm)
  subst hsame
  have hcounts := vote_counted h hq hstu hroundu hother hgets' hvalid
  exact book_later (fun s i _ hc => countsVote_call hc) (Nat.succ_le_of_lt hu') hcounts

theorem next_round (hquorum : quorumThreshold set.entries.length ≤ alive.card)
    (h₄ : Prompt cr cfg ds alive t₄ t₅)
    (hst : ∀ v ∈ alive, (bookAt cr cfg ds t₀ v).started = true)
    (hk : ∀ v ∈ alive, k ≤ (bookAt cr cfg ds t₀ v).currentRound) (hw : w ∈ alive) :
    k < (bookAt cr cfg ds t₅ w).currentRound := by
  have h₀₄ : t₀ ≤ t₁ ∧ t₁ ≤ t₂ ∧ t₂ ≤ t₃ ∧ t₃ ≤ t₄ ∧ t₄ ≤ t₅ :=
    ⟨h₀.later, h₁.later, h₂.later, h₃.later, h₄.later⟩
  have hst₅ : (bookAt cr cfg ds t₅ w).started = true := started_mono (by omega) (hst w hw)
  have hk₅ : k ≤ (bookAt cr cfg ds t₅ w).currentRound :=
    (hk w hw).trans (round_mono (by omega))
  by_cases hpast : ∃ v ∈ alive, k < (bookAt cr cfg ds t₄ v).currentRound
  · obtain ⟨v, -, hv⟩ := hpast
    exact h₄.follow h hapart hlen hneed hv hw hst₅ hk₅
  have hlevel : Level cr cfg ds alive k t₀ t₄ := by
    intro v hv s hs hs'
    refine ⟨started_mono hs (hst v hv), Nat.le_antisymm ?_ ((hk v hv).trans (round_mono hs))⟩
    exact (round_mono hs').trans (Nat.le_of_not_lt fun hlt => hpast ⟨v, hv, hlt⟩)
  refine Nat.lt_of_le_of_ne hk₅
    (Ne.symm (h.left_behind hapart hlen hneed hst₅ hquorum ?_))
  intro v hv
  obtain ⟨hst₀, hround₀⟩ := hlevel v hv t₀ (Nat.le_refl _) (by omega)
  obtain ⟨hst₄, hround₄⟩ := hlevel v hv t₄ (by omega) (Nat.le_refl _)
  obtain ⟨p, hp⟩ := proposing h hapart hlen hneed hst₀ hround₀
  have hp₄ := hp.stays h hapart hlen hneed (by omega) hst₄ hround₄
  obtain ⟨cv, hcv, hslot⟩ := certificate_sent h hapart hlen hneed hquorum hp₄ hround₄
    fun w' hw' hother => hlevel.counted h hapart hlen hneed h₀ h₁ h₂ h₃ hv hw' hother hp
  exact ⟨cv, h₄.certificates h hapart hlen hw hcv, hslot⟩

end Cycle

namespace Devnet

/- Three of the four nodes, and a network that takes its time: the timers fire before the votes
arrive, and all proposals go out again. -/

def fellows : Finset ValidatorId := {⟨0⟩, ⟨1⟩, ⟨2⟩}

def toOthers (es : List (Nat × Event)) : List (Nat × StateMachine.Request) :=
  es.flatMap fun e => ([0, 1, 2].filter (· ≠ e.1)).map fun j => (j, .event e.2)

def proposalsOf (r : Round) : List (Nat × Event) :=
  [0, 1, 2].map fun a => (a, .vertexProposalReceived (netProposal r a))

def votesOf (r : Round) : List (Nat × Event) :=
  [0, 1, 2].flatMap fun a => ([0, 1, 2].filter (· ≠ a)).map fun i =>
    (i, .vertexPartialReceived ⟨(netVertex r a).vertex.hash, r, ⟨a⟩, ⟨i⟩, sigOf ⟨i⟩⟩)

def certsOf (r : Round) : List (Nat × Event) :=
  [0, 1, 2].map fun a => (a, .certifiedVertexReceived (netVertex r a))

def timersOf (id : TimerId) : List (Nat × StateMachine.Request) :=
  [0, 1, 2].map fun i => (i, .event (.timerFired id))

def slowSchedule : List (Nat × StateMachine.Request) :=
  ([0, 1, 2].map fun i => (i, .genesis)) ++
    (toOthers (proposalsOf 0) ++ timersOf 0) ++
    (toOthers (votesOf 0 ++ proposalsOf 0) ++ timersOf 1) ++
    toOthers (certsOf 0 ++ proposalsOf 0) ++
    (toOthers (proposalsOf 1) ++ timersOf 3) ++
    (toOthers (votesOf 1 ++ proposalsOf 1) ++ timersOf 4) ++
    toOthers (certsOf 1)

def slowRun : List Delivery := slowSchedule.map fun e => (⟨e.1⟩, e.2, ports e.1 0)

def slowPeriod (i : Nat) : Nat := [3, 12, 33, 45, 54, 75].getD i 0

/- The conditions, evaluated on the calls. -/

def brings (d : Delivery) (w : ValidatorId) (a : Action) : Bool :=
  match d.2.1 with
  | .genesis => false
  | .event e => decide (d.1 = w ∧ carriedBy e = some a)

def inTime (calls : List NetworkCall) (t t' : Nat) : Bool :=
  (calls.take t).zipIdx.all fun c =>
    (StateMachine.exec slotCrypto c.1.input.2 (c.1.pre.nodes c.1.input.1)).actions.all fun a =>
      !a.isCertNews || decide (∀ w ∈ fellows, w ≠ c.1.input.1 →
        ((calls.take t').drop (c.2 + 1)).any (fun c' => brings c'.input w a) = true)

def bookOf (calls : List NetworkCall) (t : Nat) (v : ValidatorId) : Option VertexBook :=
  calls[t]?.map fun c => (c.pre.nodes v).vertices

def timersMove (calls : List NetworkCall) (t t' : Nat) : Bool :=
  decide (∀ v ∈ fellows, ((bookOf calls t v).map (·.roundTimer)) ≠
    (bookOf calls t' v).map (·.roundTimer))

theorem slow_checked :
    let calls := Network.run slotCrypto config slowRun
    (calls.all (fun c => NetworkCall.authentic validators c &&
        (StateMachine.exec slotCrypto c.input.2 (c.pre.nodes c.input.1)).result.isOk) &&
      (List.range 5).all (fun i => inTime calls (slowPeriod i) (slowPeriod (i + 1)) &&
        timersMove calls (slowPeriod i) (slowPeriod (i + 1))) &&
      decide (∀ v ∈ fellows, (bookOf calls 3 v).map (·.started) = some true)) = true := by
  decide +kernel

theorem slow_orderly : Orderly slotCrypto config validators slowRun := by
  have hall := slow_checked
  simp only [Bool.and_eq_true, List.all_eq_true] at hall
  have hports : ∀ d ∈ slowRun, ∃ i < 3, d.1 = ⟨i⟩ ∧ d.2.2 = ports i 0 := by
    have hlow : ∀ e ∈ slowSchedule, e.1 < 3 := by decide +kernel
    intro d hd
    obtain ⟨e, he, rfl⟩ := List.mem_map.mp hd
    exact ⟨e.1, hlow e he, rfl, rfl⟩
  refine ⟨fun call hcall => (hall.1.1 call hcall).1, ?_, ?_,
    fun call hcall => Outcome.exists_of_isOk (hall.1.1 call hcall).2⟩
  · intro d hd
    obtain ⟨i, -, -, hctx⟩ := hports d hd
    rw [hctx]
    rfl
  · intro d hd
    obtain ⟨i, hi, hid, hctx⟩ := hports d hd
    rw [hid, hctx]
    refine ⟨⟨i⟩, ?_, ?_⟩
    · interval_cases i <;> rfl
    · intro dst msg
      simp [slotCrypto, openCrypto, crypto, ports, sigOf]

theorem brings_gets {d : Delivery} {u : Nat} {w : ValidatorId} {a : Action}
    (hd : slowRun[u]? = some d) (h : brings d w a = true) : Gets slowRun u w a := by
  obtain ⟨v, req, ctx⟩ := d
  cases req with
  | genesis => cases h
  | event e =>
    obtain ⟨rfl, he⟩ := of_decide_eq_true h
    exact ⟨e, ctx, hd, he⟩

theorem bookOf_some {t : Nat} (ht : t < 81) (v : ValidatorId) :
    bookOf (Network.run slotCrypto config slowRun) t v =
      some (bookAt slotCrypto config slowRun t v) := by
  have hlen : slowRun.length = 81 := by decide +kernel
  rw [bookOf, run_getElem, List.getElem?_eq_getElem (hlen.symm ▸ ht)]
  rfl

theorem slow_prompt {i : Nat} (hi : i < 5) :
    Prompt slotCrypto config slowRun fellows (slowPeriod i) (slowPeriod (i + 1)) := by
  have hall := slow_checked
  simp only [Bool.and_eq_true, List.all_eq_true] at hall
  obtain ⟨htime, hmove⟩ := hall.1.2 i (List.mem_range.mpr hi)
  have hbounds : slowPeriod i ≤ slowPeriod (i + 1) ∧ slowPeriod (i + 1) < 81 := by
    interval_cases i <;> decide
  refine ⟨hbounds.1, ?_, ?_⟩
  · rintro s hs v a ⟨j, hj, hin⟩ ha w hw hother
    have hcall : (Network.run slotCrypto config slowRun)[s]? =
        some ⟨upTo slotCrypto config slowRun s, v, j⟩ := by
      rw [run_getElem, hj]
      rfl
    have hmem := List.mk_mem_zipIdx_iff_getElem?.mpr
      ((List.getElem?_take_of_lt hs).trans hcall)
    have hnews := List.all_eq_true.mp (List.all_eq_true.mp htime _ hmem) a hin
    rw [ha, Bool.not_true, Bool.false_or] at hnews
    obtain ⟨c', hc', hbrings⟩ := List.any_eq_true.mp (of_decide_eq_true hnews w hw hother)
    obtain ⟨n, hn⟩ := List.mem_iff_getElem?.mp hc'
    rw [List.getElem?_drop, List.getElem?_take] at hn
    split at hn
    · rename_i hlt
      rw [run_getElem] at hn
      obtain ⟨d, hd, rfl⟩ := Option.map_eq_some_iff.mp hn
      exact ⟨s + 1 + n, by omega, hlt, brings_gets hd hbrings⟩
    · cases hn
  · intro v hv heq
    have hne := of_decide_eq_true hmove v hv
    rw [bookOf_some (Nat.lt_of_le_of_lt hbounds.1 hbounds.2), bookOf_some hbounds.2] at hne
    exact hne (congrArg some heq.symm)

end Devnet
end LuaDag
