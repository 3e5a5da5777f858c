import LuaDag.VertexAgreement

/-! What a node announces and signs at L1: one vote per slot in every run, and what is left
of it when the process restarts. -/
namespace LuaDag

/- Votes. -/

/-- A move announces a vote only for the proposal the call delivers, and signs it. -/
theorem move_partial {call : NodeCall} {c d : VertexCore} {sg : List SignReq}
    {acts : List Action} (hm : NodeVertexMove call c sg acts d) {bp : VertexPartial}
    (hbp : Action.broadcastVertexPartial bp ∈ acts) :
    ∃ p, call.event = some (.vertexProposalReceived p) ∧ p.vertex.author ≠ c.selfId ∧
      bp.vertexHash = p.vertex.hash ∧ bp.round = p.vertex.round ∧ bp.author = p.vertex.author ∧
      (Dst.vertexCert, signingBytes p.vertex) ∈ sg := by
  cases hm with
  | other _ hnews => exact absurd (hnews _ hbp) (by simp [Action.isVertexNews])
  | own hmove =>
    cases hmove with
    | traffic acts hacts => exact absurd (hacts _ hbp) (by simp [Action.isCertTraffic])
    | vote p sig hev hself hwin hnew =>
      have heq := List.mem_singleton.mp hbp
      cases heq
      exact ⟨p, hev, hself, rfl, rfl, rfl, by simp⟩
    | propose p acts hself hround hacts =>
      cases List.mem_append.mp hbp with
      | inl hl => exact absurd (hacts _ hl) (by simp [Action.isCertTraffic])
      | inr hr => simp at hr
    | _ => simp at hbp

theorem move_selfId {call : NodeCall} {c d : VertexCore} {sg : List SignReq}
    {acts : List Action} (hm : NodeVertexMove call c sg acts d) : d.selfId = c.selfId := by
  cases hm with
  | other _ _ => rfl
  | own hmove => cases hmove <;> rfl

/-- A proposal whose hash is not that of its content is answered with silence. -/
theorem onVertexProposal_hash {cr : Crypto} {p : VertexProposal} {ctx : HostContext}
    {book : VertexBook} {a : Action}
    (ha : a ∈ (VertexCert.onVertexProposal cr p ctx book).actions) :
    p.vertex.hash = contentHash cr p.vertex := by
  by_contra hne
  unfold VertexCert.onVertexProposal at ha
  split at ha
  · simp at ha
  · simp [hne] at ha

theorem exec_partial (cr : Crypto) (call : NodeCall) {bp : VertexPartial}
    (hbp : Action.broadcastVertexPartial bp ∈
      (StateMachine.exec cr call.input call.pre).actions) :
    bp.author ≠ call.pre.vertices.selfId ∧ ∃ ps bs,
      Certified (StateMachine.exec cr call.input call.pre).signed bp.round bp.author ps bs ∧
        bp.vertexHash = cr.blake3WithDst .vertexHash (.vertexBody bp.round bp.author ps bs) := by
  obtain ⟨acts, hpath, hacts⟩ := (exec_vertices cr call).actions
  have hinv := hpath.invariant (R := fun _ => True)
    (P := fun sg as c => c.selfId = call.pre.vertices.selfId ∧
      ∀ bp, Action.broadcastVertexPartial bp ∈ as → ∃ p,
        call.event = some (.vertexProposalReceived p) ∧
        p.vertex.author ≠ call.pre.vertices.selfId ∧ bp.vertexHash = p.vertex.hash ∧
        bp.round = p.vertex.round ∧ bp.author = p.vertex.author ∧
        (Dst.vertexCert, signingBytes p.vertex) ∈ sg)
    (by
      intro sg as c sg' acts' d _ hm hc
      refine ⟨(move_selfId hm).trans hc.1, ?_⟩
      intro bp hbp
      cases List.mem_append.mp hbp with
      | inl hl =>
        obtain ⟨p, hev, hself, hh, hr, ha, hsg⟩ := hc.2 bp hl
        exact ⟨p, hev, hself, hh, hr, ha, List.mem_append_left _ hsg⟩
      | inr hr =>
        obtain ⟨p, hev, hself, hh, hround, ha, hsg⟩ := move_partial hm hr
        exact ⟨p, hev, hc.1 ▸ hself, hh, hround, ha, List.mem_append_right _ hsg⟩)
    (fun _ _ => trivial) [] [] ⟨rfl, by simp⟩
  obtain ⟨p, hev, hself, hh, hr, ha, hsg⟩ := hinv.2 bp (by simpa using hacts _ hbp)
  have hhash : p.vertex.hash = contentHash cr p.vertex := by
    obtain ⟨sm, req, ctx⟩ := call
    cases req with
    | genesis => cases hev
    | event e =>
      cases hev
      exact onVertexProposal_hash hbp
  refine ⟨ha ▸ hself, p.vertex.parents, p.vertex.blobs, ?_, ?_⟩
  · rw [hr, ha]
    simpa [Certified, signingBytes] using hsg
  · rw [hh, hr, ha, hhash]
    rfl

theorem run_selfId (cr : Crypto) (cfg : Config) (self : ValidatorId)
    (is : List StateMachine.Input) : (StateMachine.reached cr cfg self is).vertices.selfId = self :=
  vertex_invariant cr (fun _ _ c => c.selfId = self) (fun _ _ _ _ _ h => h)
    (fun _ _ _ _ _ _ _ hm h => (move_selfId (.own hm)).trans h) (fun _ _ _ _ _ _ _ h => h) cfg self
    rfl is

theorem partial_of_run (cr : Crypto) (cfg : Config) (self : ValidatorId)
    (is : List StateMachine.Input) {bp : VertexPartial}
    (hbp : Action.broadcastVertexPartial bp ∈ StateMachine.actions cr cfg self is) :
    bp.author ≠ self ∧ ∃ ps bs,
      Certified (StateMachine.signLog cr cfg self is) bp.round bp.author ps bs ∧
        bp.vertexHash = cr.blake3WithDst .vertexHash (.vertexBody bp.round bp.author ps bs) := by
  obtain ⟨call, hcall, hact⟩ := List.mem_flatMap.mp hbp
  obtain ⟨js, ks, hjs, hpre⟩ := Trace.mem_calls _ hcall
  obtain ⟨hself, ps, bs, hcert, hh⟩ := exec_partial cr call hact
  have hid : call.pre.vertices.selfId = self := by
    rw [hpre]
    exact run_selfId cr cfg self js
  exact ⟨hid ▸ hself, ps, bs, List.mem_flatMap.mpr ⟨call, hcall, hcert⟩, hh⟩

/-- Under any events, with the bootstrap anywhere, a node announces votes for one hash
per slot, and none for its own vertices. -/
theorem one_vertex_vote_per_slot (cr : Crypto) (cfg : Config) (self : ValidatorId)
    (is : List StateMachine.Input) :
    let acts := StateMachine.actions cr cfg self is
    (∀ bp bp', Action.broadcastVertexPartial bp ∈ acts → Action.broadcastVertexPartial bp' ∈ acts →
      bp.round = bp'.round → bp.author = bp'.author → bp.vertexHash = bp'.vertexHash) ∧
    ∀ bp, Action.broadcastVertexPartial bp ∈ acts → bp.author ≠ self := by
  refine ⟨?_, fun bp hbp => (partial_of_run cr cfg self is hbp).1⟩
  intro bp bp' hbp hbp' hround hauthor
  obtain ⟨-, ps, bs, hcert, hh⟩ := partial_of_run cr cfg self is hbp
  obtain ⟨-, ps', bs', hcert', hh'⟩ := partial_of_run cr cfg self is hbp'
  rw [← hround, ← hauthor] at hcert' hh'
  have hbody := (run_slots cr cfg self is).once _ _ _ _ _ _ hcert hcert'
  rw [hh, hh', hbody.1, hbody.2]

/- Restarts. Books live in memory: every boot starts from new ones, and what an earlier
   life has left on disk only shows in the ports. -/

/-- One life of the process: the bootstrap, the events after it, and a crash once the
signer has answered `answered` requests. -/
structure Life where
  boot : HostContext
  events : List (Event × HostContext)
  answered : Nat

def Life.inputs (l : Life) : List StateMachine.Input :=
  (.genesis, l.boot) :: l.events.map fun e => (.event e.1, e.2)

def Life.signed (cr : Crypto) (cfg : Config) (self : ValidatorId) (l : Life) : List SignReq :=
  (StateMachine.signLog cr cfg self l.inputs).take l.answered

/-- Proposals of two vertices for one round, or votes for two hashes in one slot. -/
def Conflicting (cr : Crypto) (q q' : SignReq) : Prop :=
  ∃ v v' : Vertex, v.round = v'.round ∧
    (q = (.vertexProposal, signingBytes v) ∧ q' = (.vertexProposal, signingBytes v') ∧
        signingBytes v ≠ signingBytes v' ∨
      q = (.vertexCert, signingBytes v) ∧ q' = (.vertexCert, signingBytes v') ∧
        v.author = v'.author ∧ contentHash cr v ≠ contentHash cr v')

def OwnProposals (self : ValidatorId) (log : List SignReq) : Prop :=
  ∀ v : Vertex, (Dst.vertexProposal, signingBytes v) ∈ log →
    v.author = self ∧ (Dst.vertexCert, signingBytes v) ∈ log

theorem OwnProposals.append {self : ValidatorId} {log sg : List SignReq}
    (h : OwnProposals self log) (hsg : OwnProposals self sg) : OwnProposals self (log ++ sg) := by
  intro v hv
  cases List.mem_append.mp hv with
  | inl hl => exact ⟨(h v hl).1, List.mem_append_left _ (h v hl).2⟩
  | inr hr => exact ⟨(hsg v hr).1, List.mem_append_right _ (hsg v hr).2⟩

theorem move_ownProposals {call : NodeCall} {c d : VertexCore} {sg : List SignReq}
    {acts : List Action} (hm : VertexMove call c sg acts d) : OwnProposals c.selfId sg := by
  intro v hv
  cases hm with
  | propose p acts hself hround hacts =>
    simp only [List.mem_cons, Prod.mk.injEq, true_and, reduceCtorEq, false_and,
      List.not_mem_nil, or_false] at hv
    have hauthor : v.author = p.vertex.author := by
      simp only [signingBytes, Bytes.vertexBody.injEq] at hv
      exact hv.2.1
    exact ⟨hauthor.trans hself, by simp [hv]⟩
  | _ => simp at hv

theorem run_ownProposals (cr : Crypto) (cfg : Config) (self : ValidatorId)
    (is : List StateMachine.Input) : OwnProposals self (StateMachine.signLog cr cfg self is) := by
  have hrun := vertex_invariant cr (fun log _ c => c.selfId = self ∧ OwnProposals self log)
    (fun _ _ _ _ _ h => h)
    (fun _ _ _ _ _ _ _ hm h => ⟨(move_selfId (.own hm)).trans h.1,
      h.2.append (h.1 ▸ move_ownProposals hm)⟩)
    (by
      intro log _ c sg _ hsg _ h
      refine ⟨h.1, h.2.append ?_⟩
      intro v hv
      exact absurd (hsg _ hv) (by simp [Dst.isMacro]))
    cfg self ⟨rfl, by simp [OwnProposals]⟩ is
  exact hrun.2

theorem run_not_conflicting (cr : Crypto) (cfg : Config) (self : ValidatorId)
    (is : List StateMachine.Input) {q q' : SignReq}
    (hq : q ∈ StateMachine.signLog cr cfg self is)
    (hq' : q' ∈ StateMachine.signLog cr cfg self is) : ¬ Conflicting cr q q' := by
  have hsame : ∀ v v' : Vertex, v.round = v'.round → v.author = v'.author →
      (Dst.vertexCert, signingBytes v) ∈ StateMachine.signLog cr cfg self is →
      (Dst.vertexCert, signingBytes v') ∈ StateMachine.signLog cr cfg self is →
      signingBytes v = signingBytes v' := by
    intro v v' hr ha hv hv'
    unfold signingBytes at hv hv' ⊢
    rw [← hr, ← ha] at hv'
    have hbody := (run_slots cr cfg self is).once _ _ _ _ _ _ hv hv'
    rw [hr, ha, hbody.1, hbody.2]
  intro hconf
  obtain ⟨v, v', hr, hprop | hvote⟩ := hconf
  · obtain ⟨rfl, rfl, hne⟩ := hprop
    obtain ⟨ha, hv⟩ := run_ownProposals cr cfg self is v hq
    obtain ⟨ha', hv'⟩ := run_ownProposals cr cfg self is v' hq'
    exact hne (hsame v v' hr (ha.trans ha'.symm) hv hv')
  · obtain ⟨rfl, rfl, ha, hne⟩ := hvote
    exact hne (congrArg (cr.blake3WithDst .vertexHash) (hsame v v' hr ha hq hq'))

def signedInLife (cr : Crypto) (cfg : Config) (self : ValidatorId) (lives : List Life) (i : Nat) :
    List SignReq :=
  (lives[i]?.map (Life.signed cr cfg self)).getD []

/-- Across any number of crashes, two conflicting signatures come from different lives. -/
theorem conflict_across_lives (cr : Crypto) (cfg : Config) (self : ValidatorId)
    (lives : List Life) (i j : Nat) (q q' : SignReq)
    (hq : q ∈ signedInLife cr cfg self lives i) (hq' : q' ∈ signedInLife cr cfg self lives j)
    (hconf : Conflicting cr q q') : i ≠ j := by
  intro hij
  subst hij
  unfold signedInLife at hq hq'
  cases hl : lives[i]? with
  | none => simp [hl] at hq
  | some l =>
    simp only [hl, Option.map_some, Option.getD_some, Life.signed] at hq hq'
    exact run_not_conflicting cr cfg self l.inputs (List.mem_of_mem_take hq)
      (List.mem_of_mem_take hq') hconf

section Devnet
open Devnet

def someBlob : BlobRef := ⟨⟨1⟩, ⟨1⟩, 1⟩

/-- The first life attaches a pending blob to its genesis vertex and crashes; the second
finds the queue empty. -/
def twoLives : List Life :=
  [⟨{ ports 0 0 with drain := fun _ => [someBlob] }, [], 2⟩, ⟨ports 0 0, [], 2⟩]

def genesisOf (blobs : List BlobRef) : SignReq := (.vertexProposal, .vertexBody 0 ⟨0⟩ [] blobs)

theorem genesis_conflict : Conflicting openCrypto (genesisOf [someBlob]) (genesisOf []) :=
  ⟨⟨0, ⟨0⟩, [], [someBlob], ⟨0⟩⟩, ⟨0, ⟨0⟩, [], [], ⟨0⟩⟩, rfl, Or.inl ⟨rfl, rfl, by decide⟩⟩

theorem signed_in_both_lives :
    genesisOf [someBlob] ∈ signedInLife openCrypto config ⟨0⟩ twoLives 0 ∧
      genesisOf [] ∈ signedInLife openCrypto config ⟨0⟩ twoLives 1 := by
  decide

theorem conflict_across_two_lives :
    Conflicting openCrypto (genesisOf [someBlob]) (genesisOf []) ∧ (0 : Nat) ≠ 1 :=
  ⟨genesis_conflict, conflict_across_lives openCrypto config ⟨0⟩ twoLives 0 1 _ _
    signed_in_both_lives.1 signed_in_both_lives.2 genesis_conflict⟩

/-- The restarted node proposes another genesis vertex. -/
theorem two_genesis_vertices :
    ¬ ∀ i j q q', q ∈ signedInLife openCrypto config ⟨0⟩ twoLives i →
      q' ∈ signedInLife openCrypto config ⟨0⟩ twoLives j → ¬ Conflicting openCrypto q q' := by
  intro h
  exact h 0 1 _ _ signed_in_both_lives.1 signed_in_both_lives.2 genesis_conflict

end Devnet
end LuaDag
