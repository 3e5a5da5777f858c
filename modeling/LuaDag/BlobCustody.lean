import LuaDag.WindowVotes

/-! What becomes of the blobs a node has drained. They ride along in an own vertex, which is
kept until two rounds later, certified or not; nothing gives them back. -/
namespace LuaDag
open VertexCert

/- A climb keeps the own vertices. -/
section Ascend
variable {cr : Crypto} {cfg : Config} {ctx : HostContext} {need : Nat} {me : ValidatorId}

theorem seeded_new (b : VertexBook) (round : Round) (parents : List Hash32) :
    (seeded cr ctx b round parents).myProposals[(ownVertex cr ctx b round parents).hash]? =
      some (signedAs ctx (ownVertex cr ctx b round parents)) := by
  simp [seeded, seedProposal, ownProposal, signedAs]

theorem seeded_old (hapart : RoundsHashApart cr) {b : VertexBook} (h : OwnBook cr me b)
    (parents : List Hash32) {x : Hash32} {p : VertexProposal} (hx : b.myProposals[x]? = some p) :
    (seeded cr ctx b (b.currentRound + 1) parents).myProposals[x]? = some p := by
  obtain ⟨-, hc, ha, hr⟩ := h.mine x p hx
  let v := ownVertex cr ctx b (b.currentRound + 1) parents
  have hne : v.hash ≠ x := by
    intro heq
    have hcontent : contentHash cr v = contentHash cr p.vertex := heq.trans hc.symm
    have hround : b.currentRound + 1 = p.vertex.round :=
      hapart v p.vertex (h.selfId.trans ha.symm) hcontent
    rw [← hround] at hr
    exact absurd hr (Nat.not_succ_le_self _)
  simp only [seeded, seedProposal, Maps.get_insert, ownProposal]
  rw [if_neg hne]
  exact hx

theorem ascend_old (hapart : RoundsHashApart cr) (k : Nat) {b : VertexBook} (h : OwnBook cr me b)
    (hst : b.started = true) {x : Hash32} {p : VertexProposal} (hx : b.myProposals[x]? = some p) :
    (ascend cr cfg ctx need k b).state.myProposals[x]? = some p := by
  induction k generalizing b with
  | zero => exact hx
  | succ k ih =>
    rw [ascend_state]
    exact ih (h.next hst _) hst (seeded_old hapart h _ hx)

theorem ascend_new (hapart : RoundsHashApart cr) (k : Nat) {b : VertexBook} (h : OwnBook cr me b)
    (hst : b.started = true) {v : Vertex} (hv : v ∈ rungs cr ctx need k b) :
    (ascend cr cfg ctx need k b).state.myProposals[v.hash]? = some (signedAs ctx v) := by
  induction k generalizing b with
  | zero => simp [rungs] at hv
  | succ k ih =>
    rw [ascend_state]
    rw [rungs_succ] at hv
    cases List.mem_cons.mp hv with
    | inl heq =>
      rw [heq]
      exact ascend_old hapart k (h.next hst _) hst (seeded_new b _ _)
    | inr hmem => exact ih (h.next hst _) hst hmem

theorem ascend_own (k : Nat) {b : VertexBook} (h : OwnBook cr me b) (hst : b.started = true) :
    OwnBook cr me (ascend cr cfg ctx need k b).state := by
  induction k generalizing b with
  | zero => exact h
  | succ k ih =>
    rw [ascend_state]
    exact ih (h.next hst _) hst

theorem ascend_emitted (k : Nat) (b : VertexBook) :
    (ascend cr cfg ctx need k b).state.emittedCerts = b.emittedCerts := by
  induction k generalizing b with
  | zero => rfl
  | succ k ih =>
    rw [ascend_state, ih]
    rfl

theorem ascend_marked (hapart : RoundsHashApart cr) (k : Nat) {b : VertexBook}
    (h : OwnBook cr me b) (hst : b.started = true) {x : Hash32} {p : VertexProposal}
    (hx : x ∈ b.emittedCerts)
    (hp : (ascend cr cfg ctx need k b).state.myProposals[x]? = some p) :
    b.myProposals[x]? = some p := by
  cases ascend_mine k b hp with
  | inl hold => exact hold
  | inr hrung =>
    obtain ⟨v, hv, heq⟩ := hrung
    obtain ⟨i, -, hi⟩ := List.mem_map.mp hv
    obtain ⟨w, hauthor, hw, hcontent⟩ := h.below x (Or.inl hx)
    have hhash : contentHash cr v = x := by
      have hc := ((@ascend_own cr cfg ctx need me k b h hst).mine x p hp).2.1
      rwa [heq] at hc
    have hround : v.round = w.round := by
      refine hapart v w ?_ (hhash.trans hcontent.symm)
      rw [← hi, hauthor]
      rfl
    have hhigh : v.round = b.currentRound + i + 1 := by
      rw [← hi]
      rfl
    rw [← hround, hhigh] at hw
    exact absurd (Nat.lt_of_succ_lt_succ hw) (Nat.not_lt.mpr (Nat.le_add_right _ _))

end Ascend

/- Leaving a vertex behind. -/

def NodeCall.completes (cr : Crypto) (set : ValidatorSet) (need : Nat) (call : NodeCall)
    (h : Hash32) : Prop :=
  ∃ bp p, call.event = some (.vertexPartialReceived bp) ∧
    Completes cr set need call.pre.vertices bp p ∧ bp.vertexHash = h

/-- Once the call's certificate is on record, all rounds from the current one up to `top` hold a
quorum, and an own vertex with blobs that this leaves more than one round behind is not
certified: an older one, or one that is built on the way. -/
structure Abandons (cr : Crypto) (set : ValidatorSet) (need : Nat) (top : Round)
    (call : NodeCall) : Prop where
  started : call.pre.vertices.started = true
  threshold : quorumNeed set = .ok need
  brings : (∃ cv, call.event = some (.certifiedVertexReceived cv)) ∨
    ∃ h, call.completes cr set need h
  quorate : ∀ r, call.pre.vertices.currentRound ≤ r → r < top →
    need ≤ (certsAt call.recorded r).size
  left : (∃ (h : Hash32) (p : VertexProposal), call.pre.vertices.myProposals[h]? = some p ∧
      p.vertex.blobs ≠ [] ∧ p.vertex.round + 1 < top ∧ h ∉ call.pre.vertices.emittedCerts ∧
      ¬ call.completes cr set need h) ∨
    ∃ r, call.pre.vertices.currentRound < r ∧ r + 1 < top ∧ call.ctx.drain r ≠ []

/-- The call sends the certificate of `v`. -/
def NodeCall.certifies (cr : Crypto) (call : NodeCall) (v : Vertex) : Prop :=
  ∃ cv, Action.broadcastCertifiedVertex cv ∈
    (StateMachine.exec cr call.input call.pre).actions ∧ cv.vertex = v

structure Custody (cr : Crypto) (hist : List NodeCall) (b : VertexBook) : Prop where
  held : ∀ c ∈ hist, ∀ v ∈ c.built cr, v.blobs ≠ [] →
    (∃ p : VertexProposal, b.myProposals[v.hash]? = some p ∧ p.vertex = v) ∨
      ∃ c ∈ hist, c.certifies cr v
  marked : ∀ h ∈ b.emittedCerts, ∀ p : VertexProposal, b.myProposals[h]? = some p →
    ∃ c ∈ hist, c.certifies cr p.vertex

section Custody
variable {cr : Crypto} {set : ValidatorSet} {hist : List NodeCall} {call : NodeCall}

theorem Custody.rest {d : VertexBook} (h : Custody cr hist call.pre.vertices)
    (hbuilt : call.built cr = []) (hsame : SameOwn call.pre.vertices d) :
    Custody cr (hist ++ [call]) d := by
  refine ⟨?_, ?_⟩
  · intro c hc v hv hblobs
    cases List.mem_append.mp hc with
    | inl hold =>
      rw [hsame.mine]
      refine (h.held c hold v hv hblobs).imp id ?_
      rintro ⟨c', hc', hcert⟩
      exact ⟨c', List.mem_append_left _ hc', hcert⟩
    | inr hnew =>
      rw [List.mem_singleton.mp hnew, hbuilt] at hv
      cases hv
  · intro x hx p hp
    rw [hsame.emitted] at hx
    rw [hsame.mine] at hp
    obtain ⟨c, hc, hcert⟩ := h.marked x hx p hp
    exact ⟨c, List.mem_append_left _ hc, hcert⟩

theorem Custody.boot {me : ValidatorId} {d : VertexBook} (h : Custody cr hist call.pre.vertices)
    (hown : OwnBook cr me call.pre.vertices) (hst : call.pre.vertices.started = false)
    (hbuilt : call.built cr = [ownVertex cr call.ctx call.pre.vertices 0 []])
    (hd : d = seeded cr call.ctx { call.pre.vertices with started := true } 0 []) :
    Custody cr (hist ++ [call]) d := by
  obtain ⟨-, hempty, hbelow⟩ := hown.idle hst
  refine ⟨?_, ?_⟩
  · intro c hc v hv hblobs
    cases List.mem_append.mp hc with
    | inl hold =>
      obtain ⟨p, hp, -⟩ | ⟨c', hc', hcert⟩ := h.held c hold v hv hblobs
      · exact absurd hp (by simp [hempty])
      · exact Or.inr ⟨c', List.mem_append_left _ hc', hcert⟩
    | inr hnew =>
      rw [List.mem_singleton.mp hnew, hbuilt, List.mem_singleton] at hv
      refine Or.inl ⟨signedAs call.ctx v, ?_, rfl⟩
      rw [hd, hv]
      exact seeded_new { call.pre.vertices with started := true } 0 []
  · intro x hx p hp
    rw [hd] at hx
    obtain ⟨w, -, hw, -⟩ := hbelow x (Or.inl hx)
    exact absurd hw (Nat.not_lt_zero _)

theorem climb_end {cfg : Config} {ctx : HostContext} {need : Nat} {b : VertexBook}
    {o : Result VertexBook} (h : Climbed cr cfg ctx need b o)
    (hret : o.result ≠ .error .overflow) :
    ∃ k, Quorate b need k ∧ o.signed = (ascend cr cfg ctx need k b).signed ∧
      o.state = prune (ascend cr cfg ctx need k b).state ∧ ∃ acts, o.result = .ok acts := by
  cases h with
  | cut k hq =>
    rw [Outcome.andThen_of_ok (ascend_result k b)] at hret
    exact absurd rfl hret
  | done k hq hend =>
    rw [Outcome.andThen_of_ok (ascend_result k b)]
    exact ⟨k, hq, by simp, rfl, _, rfl⟩

theorem certifies_completed {need : Nat} {b : VertexBook} {first acts : List Action}
    (hfirst : Arrives cr set call need b first)
    (hacts : (call.vertexOutcome cr).result = .ok (first ++ acts)) {h : Hash32}
    (hdone : call.completes cr set need h) {p : VertexProposal}
    (hp : call.pre.vertices.myProposals[h]? = some p) : call.certifies cr p.vertex := by
  obtain ⟨bp, q, hev, hvote, rfl⟩ := hdone
  cases hfirst with
  | delivered cv hev' hemitted => cases hev.symm.trans hev'
  | completed bp' q' cv hev' hvote' hvertex hemitted =>
    cases hev.symm.trans hev'
    cases hvote'.mine.symm.trans hp
    refine ⟨cv, ?_, hvertex⟩
    obtain ⟨sm, req, ctx⟩ := call
    cases req with
    | genesis => cases hev
    | event e =>
      cases hev
      have hsent : (StateMachine.exec cr (.event (.vertexPartialReceived bp), ctx) sm).result =
          .ok ([Action.broadcastCertifiedVertex cv] ++ acts) := hacts
      simp only [Outcome.actions, hsent]
      exact List.mem_append_left _ (List.mem_singleton_self _)

theorem abandons_of_climb {need k : Nat} {b : VertexBook} {first : List Action}
    (hneed : quorumNeed set = .ok need) (hfoot : Footing cr call b)
    (hfirst : Arrives cr set call need b first) (hq : Quorate b need k)
    (hleft : (∃ (h : Hash32) (p : VertexProposal), call.pre.vertices.myProposals[h]? = some p ∧
        p.vertex.blobs ≠ [] ∧ p.vertex.round + 1 < b.currentRound + k ∧
        h ∉ call.pre.vertices.emittedCerts ∧ ¬ call.completes cr set need h) ∨
      ∃ r, call.pre.vertices.currentRound < r ∧ r + 1 < b.currentRound + k ∧
        call.ctx.drain r ≠ []) :
    Abandons cr set need (b.currentRound + k) call := by
  refine ⟨hfoot.was, hneed, ?_, ?_, hleft⟩
  · cases hfirst with
    | delivered cv hev hemitted => exact Or.inl ⟨cv, hev⟩
    | completed bp p cv hev hvote hvertex hemitted => exact Or.inr ⟨_, bp, p, hev, hvote, rfl⟩
  · intro r hlow hhigh
    rw [← hfoot.round] at hlow
    have hshift : b.currentRound + (r - b.currentRound) = r := Nat.add_sub_cancel' hlow
    have hcount := hq (r - b.currentRound) (Nat.sub_lt_left_of_lt_add hlow hhigh)
    rw [hshift, certifiedCountAt_eq, hfoot.certified] at hcount
    exact hcount

/-- An own vertex with a mark when the climb begins was certified before or is so now. -/
theorem certified_of_mark {need : Nat} {b : VertexBook} {first acts : List Action}
    (h : Custody cr hist call.pre.vertices) (hfirst : Arrives cr set call need b first)
    (hacts : (call.vertexOutcome cr).result = .ok (first ++ acts)) {x : Hash32}
    (hx : x ∈ b.emittedCerts) {p : VertexProposal}
    (hp : call.pre.vertices.myProposals[x]? = some p) :
    ∃ c ∈ hist ++ [call], c.certifies cr p.vertex := by
  have hcases : x ∈ call.pre.vertices.emittedCerts ∨ call.completes cr set need x := by
    cases hfirst with
    | delivered cv hev hemitted => exact Or.inl (hemitted ▸ hx)
    | completed bp q cv hev hvote hvertex hemitted =>
      rw [hemitted, Finset.mem_insert] at hx
      exact hx.symm.imp id fun heq => ⟨bp, q, hev, hvote, heq.symm⟩
  cases hcases with
  | inl hold =>
    obtain ⟨c, hc, hcert⟩ := h.marked x hold p hp
    exact ⟨c, List.mem_append_left _ hc, hcert⟩
  | inr hdone => exact ⟨call, by simp, certifies_completed hfirst hacts hdone hp⟩

theorem Custody.climb {me : ValidatorId} {need k : Nat} {b d : VertexBook}
    {first acts : List Action} (hapart : RoundsHashApart cr)
    (h : Custody cr hist call.pre.vertices) (hown : OwnBook cr me b)
    (hneed : quorumNeed set = .ok need)
    (hfoot : Footing cr call b) (hfirst : Arrives cr set call need b first)
    (hacts : (call.vertexOutcome cr).result = .ok (first ++ acts))
    (hq : Quorate b need k) (hbuilt : call.built cr = rungs cr call.ctx need k b)
    (hd : d = prune (ascend cr call.pre.cfg call.ctx need k b).state)
    (hkeep : ∀ need top, ¬ Abandons cr set need top call) :
    Custody cr (hist ++ [call]) d := by
  have hstay : ∀ (x : Hash32) (p : VertexProposal),
      (ascend cr call.pre.cfg call.ctx need k b).state.myProposals[x]? = some p →
      b.currentRound + k ≤ p.vertex.round + 1 → d.myProposals[x]? = some p := by
    intro x p hx hr
    rw [hd]
    exact prune_mine.mpr ⟨hx, (ascend_round k b).symm ▸ hr⟩
  refine ⟨?_, ?_⟩
  · intro c hc v hv hblobs
    cases List.mem_append.mp hc with
    | inl hold =>
      obtain ⟨p, hp, rfl⟩ | ⟨c', hc', hcert⟩ := h.held c hold v hv hblobs
      · by_cases hr : b.currentRound + k ≤ p.vertex.round + 1
        · exact Or.inl ⟨p, hstay _ p (ascend_old hapart k hown hfoot.started (hfoot.mine ▸ hp)) hr,
            rfl⟩
        refine Or.inr ?_
        by_cases hmark : p.vertex.hash ∈ call.pre.vertices.emittedCerts
        · obtain ⟨c', hc', hcert⟩ := h.marked _ hmark p hp
          exact ⟨c', List.mem_append_left _ hc', hcert⟩
        by_cases hdone : call.completes cr set need p.vertex.hash
        · exact ⟨call, by simp, certifies_completed hfirst hacts hdone hp⟩
        · exact absurd (abandons_of_climb hneed hfoot hfirst hq
            (Or.inl ⟨_, p, hp, hblobs, Nat.lt_of_not_le hr, hmark, hdone⟩)) (hkeep _ _)
      · exact Or.inr ⟨c', List.mem_append_left _ hc', hcert⟩
    | inr hnew =>
      rw [List.mem_singleton.mp hnew, hbuilt] at hv
      have hp := @ascend_new cr call.pre.cfg call.ctx need me hapart k b hown hfoot.started v hv
      by_cases hr : b.currentRound + k ≤ v.round + 1
      · exact Or.inl ⟨signedAs call.ctx v, hstay _ (signedAs call.ctx v) hp hr, rfl⟩
      obtain ⟨i, -, rfl⟩ := List.mem_map.mp hv
      have hlow : call.pre.vertices.currentRound < b.currentRound + i + 1 := by
        rw [hfoot.round]
        exact Nat.lt_succ_of_le (Nat.le_add_right _ _)
      exact absurd (abandons_of_climb hneed hfoot hfirst hq
        (Or.inr ⟨b.currentRound + i + 1, hlow, Nat.lt_of_not_le hr, hblobs⟩)) (hkeep _ _)
  · intro x hx p hp
    rw [hd] at hx hp
    have hx' : x ∈ b.emittedCerts := by
      rw [← @ascend_emitted cr call.pre.cfg call.ctx need k b]
      exact Finset.mem_of_mem_filter x hx
    have hmine := ascend_marked hapart k hown hfoot.started hx' (prune_mine.mp hp).1
    rw [hfoot.mine] at hmine
    exact certified_of_mark h hfirst hacts hx' hmine

theorem custody_step {me : ValidatorId} (hapart : RoundsHashApart cr)
    (hshape : VertexShape cr set call (call.vertexOutcome cr))
    (hown : OwnBook cr me call.pre.vertices) (h : Custody cr hist call.pre.vertices)
    (hret : (call.vertexOutcome cr).result ≠ .error .overflow)
    (hkeep : ∀ need top, ¬ Abandons cr set need top call) :
    Custody cr (hist ++ [call]) (call.vertexOutcome cr).state := by
  have hdef : call.built cr = (call.vertexOutcome cr).signed.filterMap (builtFrom cr) := rfl
  generalize ho : call.vertexOutcome cr = o at hshape hret hdef
  cases hshape with
  | still o hstill hrest =>
    exact h.rest (hdef.trans (builtFrom_none cr hstill.unsigned)) hstill.same
  | boot o hev hst hboot =>
    obtain rfl | ⟨e, rfl⟩ := hboot
    · exact h.boot hown hst hdef rfl
    · exact h.boot hown hst hdef rfl
  | climb need b first o hneed hfoot hfirst hclimb =>
    rw [Outcome.andThen_of_ok rfl] at hret hdef ho ⊢
    have hret' : o.result ≠ .error .overflow := by
      intro herror
      simp [herror, Except.map] at hret
    obtain ⟨k, hq, hsigned, hstate, acts, hacts⟩ := climb_end hclimb hret'
    refine @Custody.climb cr set hist call _ need k b _ first acts hapart h hfoot.own hneed hfoot
      hfirst ?_ hq ?_ hstate hkeep
    · simp only [ho, hacts, Except.map]
    · rw [hdef]
      simp only [Outcome.ok_signed, List.nil_append]
      rw [hsigned, ascend_built]
  | again id delay stalled retries hev again hagain => exact h.rest hdef ⟨rfl, rfl, rfl, rfl⟩

end Custody

/-- Blob custody. In a run whose calls leave no uncertified own vertex with blobs behind, every
vertex with blobs that the node has built is among its own proposals or has been certified. -/
theorem blob_custody (cr : Crypto) (hapart : RoundsHashApart cr) (cfg : Config)
    (self : ValidatorId) (set : ValidatorSet) (hlen : 4 ≤ set.entries.length)
    (is : List StateMachine.Input) (hset : FixedSet set is)
    (hret : ∀ call : NodeCall, call ∈ StateMachine.run cr cfg self is →
      (call.vertexOutcome cr).result ≠ .error .overflow)
    (hkeep : ∀ call : NodeCall, call ∈ StateMachine.run cr cfg self is →
      ∀ need top, ¬ Abandons cr set need top call) :
    let calls : List NodeCall := StateMachine.run cr cfg self is
    ∀ call ∈ calls, ∀ v ∈ call.built cr, v.blobs ≠ [] →
      (∃ p : VertexProposal, (StateMachine.reached cr cfg self is).vertices.myProposals[v.hash]? =
        some p ∧ p.vertex = v) ∨ ∃ c ∈ calls, c.certifies cr v := by
  have hrun := book_run cr (fun call => (VertexShape cr set call (call.vertexOutcome cr) ∧
    OwnBook cr self call.pre.vertices) ∧ (call.vertexOutcome cr).result ≠ .error .overflow ∧
    ∀ need top, ¬ Abandons cr set need top call) (Custody cr) cfg self
    ⟨by simp, by simp [VertexBook.new]⟩ ?_ is
    (fun call hcall => ⟨shape_run hapart hlen hset hcall, hret call hcall, hkeep call hcall⟩)
  · exact hrun.held
  · rintro hist call hheld ⟨⟨hshape, hown⟩, hroom, hk⟩
    exact custody_step hapart hshape hown hheld hroom hk

section Devnet
open Devnet

def blobPorts : HostContext := { ports 3 0 with
  drain := fun r => if r = 0 then [⟨⟨7⟩, ⟨7⟩, 1⟩] else [] }

def blobRun (k : Nat) : List StateMachine.Input :=
  (.genesis, blobPorts) :: script 3 (([vertexAt 0 0, vertexAt 0 1, vertexAt 0 2, vertexAt 1 0,
    vertexAt 1 1, vertexAt 1 2].take k).map fun cv => (0, .certifiedVertexReceived cv))

def blobVertex : Vertex :=
  ownVertex openCrypto blobPorts { VertexBook.new ⟨3⟩ with started := true } 0 []

theorem blob_custody_devnet :
    (∃ p : VertexProposal, (StateMachine.reached openCrypto config ⟨3⟩
      (blobRun 3)).vertices.myProposals[blobVertex.hash]? = some p ∧ p.vertex = blobVertex) ∨
    ∃ c ∈ StateMachine.run openCrypto config ⟨3⟩ (blobRun 3),
      NodeCall.certifies openCrypto c blobVertex := by
  have hall : (StateMachine.run openCrypto config ⟨3⟩ (blobRun 3)).all
      (fun call => (NodeCall.vertexOutcome openCrypto call).result.isOk) = true := by
    decide +kernel
  have hfew : (StateMachine.run openCrypto config ⟨3⟩ (blobRun 3)).all
      (fun call => decide (call.pre.vertices.currentRound = 0) &&
        decide ((certsAt (NodeCall.recorded call) 1).size = 0)) = true := by
    decide +kernel
  refine blob_custody openCrypto (roundsHashApart _) config ⟨3⟩ validators (by decide) (blobRun 3)
    (fixedSet_script rfl 3 _) (room_of_all hall) ?_ (bootCall config ⟨3⟩ blobPorts)
    List.mem_cons_self blobVertex ?_ (by decide)
  · intro call hcall need top h
    have hzero := List.all_eq_true.mp hfew call hcall
    simp only [Bool.and_eq_true, decide_eq_true_eq] at hzero
    -- the first vertex to be left behind is that of round 0, with round 1 complete
    have htop : 1 < top := by
      obtain ⟨x, p, -, -, hr, -⟩ | ⟨r, hlow, hr, -⟩ := h.left
      · exact Nat.lt_of_le_of_lt (Nat.le_add_left 1 _) hr
      · exact Nat.lt_of_le_of_lt (Nat.le_add_left 1 _) hr
    have hsize := h.quorate 1 (hzero.1 ▸ Nat.zero_le 1) htop
    rw [hzero.2] at hsize
    have hneed := quorumNeed_eq h.threshold
    rw [Nat.le_zero.mp hsize] at hneed
    exact absurd hneed (by decide)
  · rw [show (bootCall config ⟨3⟩ blobPorts).built openCrypto = [blobVertex] by decide +kernel]
    exact List.mem_singleton_self _

/-- In round 2 it is gone, with no certificate. -/
theorem blob_custody_lost :
    let calls : List NodeCall := StateMachine.run openCrypto config ⟨3⟩ (blobRun 6)
    blobVertex.blobs ≠ [] ∧ (∃ call ∈ calls, blobVertex ∈ call.built openCrypto) ∧
      (StateMachine.reached openCrypto config ⟨3⟩
        (blobRun 6)).vertices.myProposals[blobVertex.hash]? = none ∧
      ∀ c ∈ calls, ¬ NodeCall.certifies openCrypto c blobVertex := by
  have hnone : (StateMachine.run openCrypto config ⟨3⟩ (blobRun 6)).all (fun call =>
      (certifiedIn (StateMachine.exec openCrypto call.input call.pre).actions).isEmpty) = true := by
    decide +kernel
  refine ⟨by decide, ⟨bootCall config ⟨3⟩ blobPorts, List.mem_cons_self, ?_⟩, by decide +kernel, ?_⟩
  · rw [show (bootCall config ⟨3⟩ blobPorts).built openCrypto = [blobVertex] by decide +kernel]
    exact List.mem_singleton_self _
  · rintro c hc ⟨cv, hcv, -⟩
    have hempty := List.isEmpty_iff.mp (List.all_eq_true.mp hnone c hc)
    exact absurd (mem_certifiedIn.mpr hcv) (by rw [hempty]; exact List.not_mem_nil)

end Devnet
end LuaDag
