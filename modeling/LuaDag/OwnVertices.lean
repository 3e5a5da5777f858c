import LuaDag.Climb

/-! The own proposals of a node, over whole runs: one for every round in turn, each on top of
the certificates on record by then, sent again by the round timer and never changed. -/
namespace LuaDag
open VertexCert

def signedAs (ctx : HostContext) (v : Vertex) : VertexProposal :=
  ⟨v, ctx.signBls .vertexProposal (signingBytes v)⟩

def builtFrom (cr : Crypto) : SignReq → Option Vertex
  | (.vertexProposal, .vertexBody round author parents blobs) =>
    some (sealHash cr ⟨round, author, parents, blobs, Hash32.zero⟩)
  | _ => none

def NodeCall.built (cr : Crypto) (call : NodeCall) : List Vertex :=
  (call.vertexOutcome cr).signed.filterMap (builtFrom cr)

theorem builtFrom_requests (cr : Crypto) (ctx : HostContext) (b : VertexBook) (round : Round)
    (parents : List Hash32) :
    (ownRequests cr ctx b round parents).filterMap (builtFrom cr) =
      [ownVertex cr ctx b round parents] := rfl

theorem builtFrom_none (cr : Crypto) {log : List SignReq}
    (h : ∀ r ∈ log, r.1 ≠ .vertexProposal) : log.filterMap (builtFrom cr) = [] := by
  rw [List.filterMap_eq_nil_iff]
  intro r hr
  obtain ⟨dst, msg⟩ := r
  have hne := h _ hr
  cases dst <;> simp_all [builtFrom]

/- A climb, vertex by vertex. -/

def rungs (cr : Crypto) (ctx : HostContext) (need k : Nat) (b : VertexBook) : List Vertex :=
  (List.range k).map fun i =>
    ownVertex cr ctx b (b.currentRound + i + 1) (parentsAt b need (b.currentRound + i))

section Rungs
variable {cr : Crypto} {cfg : Config} {ctx : HostContext} {need : Nat}

theorem rungs_succ (k : Nat) (b : VertexBook) :
    rungs cr ctx need (k + 1) b =
      ownVertex cr ctx b (b.currentRound + 1) (parentsAt b need b.currentRound) ::
        rungs cr ctx need k
          (seeded cr ctx b (b.currentRound + 1) (parentsAt b need b.currentRound)) := by
  unfold rungs
  rw [List.range_succ_eq_map, List.map_cons, List.map_map]
  congr 1
  apply List.map_congr_left
  intro i _
  have hshift : b.currentRound + (i + 1) = b.currentRound + 1 + i := by
    rw [Nat.add_assoc, Nat.add_comm 1 i]
  simp only [Function.comp_apply, Nat.succ_eq_add_one]
  rw [hshift]
  rfl

theorem rungs_rounds (k : Nat) (b : VertexBook) :
    (rungs cr ctx need k b).map (·.round) = (List.range k).map (b.currentRound + 1 + ·) := by
  unfold rungs
  rw [List.map_map]
  apply List.map_congr_left
  intro i _
  change b.currentRound + i + 1 = _
  rw [Nat.add_right_comm]

theorem ascend_built (k : Nat) (b : VertexBook) :
    (ascend cr cfg ctx need k b).signed.filterMap (builtFrom cr) = rungs cr ctx need k b := by
  induction k generalizing b with
  | zero => rfl
  | succ k ih =>
    rw [ascend_signed, List.filterMap_append, ih, builtFrom_requests, rungs_succ]
    rfl

theorem ownActions_proposal {b : VertexBook} {round : Round} {parents : List Hash32}
    {p : VertexProposal}
    (hp : Action.broadcastVertexProposal p ∈ ownActions cr cfg ctx b round parents) :
    p = signedAs ctx (ownVertex cr ctx b round parents) := by
  unfold ownActions at hp
  cases List.mem_append.mp hp with
  | inl hl => simp at hl
  | inr hr => simpa [ownProposal, signedAs] using hr

theorem ascend_sent (k : Nat) (b : VertexBook) {p : VertexProposal}
    (hp : Action.broadcastVertexProposal p ∈ (ascend cr cfg ctx need k b).actions) :
    ∃ v ∈ rungs cr ctx need k b, p = signedAs ctx v := by
  induction k generalizing b with
  | zero => simp [ascend] at hp
  | succ k ih =>
    rw [ascend_actions] at hp
    rw [rungs_succ]
    cases List.mem_append.mp hp with
    | inl hl => exact ⟨_, List.mem_cons_self, ownActions_proposal hl⟩
    | inr hr =>
      obtain ⟨v, hv, heq⟩ := ih _ hr
      exact ⟨v, List.mem_cons_of_mem _ hv, heq⟩

theorem ascend_mine (k : Nat) (b : VertexBook) {x : Hash32} {p : VertexProposal}
    (hx : (ascend cr cfg ctx need k b).state.myProposals[x]? = some p) :
    b.myProposals[x]? = some p ∨ ∃ v ∈ rungs cr ctx need k b, p = signedAs ctx v := by
  induction k generalizing b with
  | zero => exact Or.inl hx
  | succ k ih =>
    rw [ascend_state] at hx
    rw [rungs_succ]
    cases ih _ hx with
    | inl hseeded =>
      cases Maps.get_of_insert hseeded with
      | inl hnew => exact Or.inr ⟨_, List.mem_cons_self, hnew.2⟩
      | inr hold => exact Or.inl hold
    | inr hrung =>
      obtain ⟨v, hv, heq⟩ := hrung
      exact Or.inr ⟨v, List.mem_cons_of_mem _ hv, heq⟩

end Rungs

/- Certificates on record. -/

def Filed (cr : Crypto) (m : Std.TreeMap Round (Std.TreeMap ValidatorId Hash32)) : Prop :=
  ∀ (r : Round) (certs : Std.TreeMap ValidatorId Hash32) (a : ValidatorId) (h : Hash32),
    m[r]? = some certs → certs[a]? = some h →
    ∃ v : Vertex, v.round = r ∧ v.author = a ∧ contentHash cr v = h

theorem Filed.insert {cr : Crypto} {m : Std.TreeMap Round (Std.TreeMap ValidatorId Hash32)}
    (h : Filed cr m) {v : Vertex} (hv : v.hash = contentHash cr v) :
    Filed cr (m.insert v.round ((m[v.round]?.getD ∅).insert v.author v.hash)) := by
  intro r certs a x hr ha
  cases Maps.get_of_insert hr with
  | inr hold => exact h r certs a x hold ha
  | inl hnew =>
    obtain ⟨rfl, rfl⟩ := hnew
    cases Maps.get_of_insert ha with
    | inl hown =>
      obtain ⟨rfl, rfl⟩ := hown
      exact ⟨v, rfl, rfl, hv.symm⟩
    | inr hold =>
      cases hm : m[v.round]? with
      | none => simp [hm] at hold
      | some old =>
        simp only [hm, Option.getD_some] at hold
        exact h _ old a x hm hold

theorem verified_sealed {cr : Crypto} {cv : CertifiedVertex} {set : ValidatorSet}
    (h : verifyCertifiedVertex cr cv set = .ok ()) : cv.vertex.hash = contentHash cr cv.vertex := by
  unfold verifyCertifiedVertex at h
  split at h
  · cases h
  · rename_i hhash
    exact not_not.mp hhash

def DeliversSealed (cr : Crypto) (call : NodeCall) : Prop :=
  ∀ cv, call.event = some (.certifiedVertexReceived cv) → cv.vertex.hash = contentHash cr cv.vertex

theorem filed_move {cr : Crypto} {me : ValidatorId} {call : NodeCall} {b d : VertexBook}
    {sg : List SignReq} {acts : List Action} (hsealed : DeliversSealed cr call)
    (hm : BookMove cr call b sg acts d) (hown : OwnBook cr me b)
    (h : Filed cr b.certifiedByRound) : Filed cr d.certifiedByRound := by
  cases hm with
  | certify set need x p sigs cv hset hneed hnew hmine hsigs hquorum hcv hok =>
    obtain ⟨hh, hc, -, -⟩ := hown.mine x p hmine
    refine h.insert ?_
    rw [assembleCert_vertex hcv, hh, hc]
  | record cv hev => exact h.insert (hsealed cv hev)
  | prune hst => exact fun r certs a x hr ha => h r certs a x (Maps.get_of_filter hr) ha
  | _ => exact h

theorem filed_run (cr : Crypto) (cfg : Config) (self : ValidatorId)
    (is : List StateMachine.Input)
    (hsealed : ∀ call ∈ StateMachine.run cr cfg self is, DeliversSealed cr call) :
    Filed cr (StateMachine.reached cr cfg self is).vertices.certifiedByRound := by
  have hboth := book_invariant cr (DeliversSealed cr)
    (fun b => OwnBook cr self b ∧ Filed cr b.certifiedByRound)
    (fun _ hs _ _ _ _ hm h => ⟨ownBook_move hm h.1, filed_move hs hm h.1 h.2⟩) cfg self
    ⟨ownBook_new cr self, fun r certs a x hr => by simp [VertexBook.new] at hr⟩ is hsealed
  exact hboth.2

theorem filed_recorded {cr : Crypto} {call : NodeCall} {me : ValidatorId}
    (hsealed : DeliversSealed cr call) (hown : OwnBook cr me call.pre.vertices)
    (h : Filed cr call.pre.vertices.certifiedByRound) : Filed cr call.recorded := by
  unfold NodeCall.recorded
  dsimp only
  split
  · rename_i cv hev
    exact h.insert (hsealed cv hev)
  · split
    · rename_i bp hev p hmine
      obtain ⟨hh, hc, -, -⟩ := hown.mine _ p hmine
      exact h.insert (hh.trans hc.symm)
    · exact h
  · exact h

/-- The parents of a new vertex: the first `need` authors certified at the round before. -/
structure Founded (call : NodeCall) (need : Nat) (v : Vertex) (r : Round) : Prop where
  round : v.round = r + 1
  parents : ∃ certs, call.recorded[r]? = some certs ∧ v.parents = certs.values.take need
  count : v.parents.length = need
  distinct : v.parents.Nodup

theorem rungs_founded {cr : Crypto} {call : NodeCall} {b : VertexBook} {need k : Nat}
    (hapart : VerticesHashApart cr) (hfiled : Filed cr call.recorded)
    (hfoot : Footing cr call b) (hneed : 2 ≤ need) (hq : Quorate b need k) {v : Vertex}
    (hv : v ∈ rungs cr call.ctx need k b) : ∃ r, Founded call need v r := by
  obtain ⟨i, hi, rfl⟩ := List.mem_map.mp hv
  have hcount := hq i (List.mem_range.mp hi)
  rw [certifiedCountAt_eq, hfoot.certified] at hcount
  cases hcerts : call.recorded[b.currentRound + i]? with
  | none =>
    rw [hcerts] at hcount
    simp only [Option.getD_none, Std.TreeMap.size_emptyc] at hcount
    omega
  | some certs =>
    rw [hcerts, Option.getD_some] at hcount
    have hparents : parentsAt b need (b.currentRound + i) = certs.values.take need := by
      unfold parentsAt
      rw [hfoot.certified, hcerts, Option.getD_some]
    refine ⟨b.currentRound + i, rfl, ⟨certs, hcerts, hparents⟩, ?_, ?_⟩
    · change (parentsAt b need (b.currentRound + i)).length = need
      rw [hparents, List.length_take, Maps.length_values]
      exact Nat.min_eq_left hcount
    · change (parentsAt b need (b.currentRound + i)).Nodup
      rw [hparents]
      refine (Maps.values_nodup ?_).sublist (List.take_sublist _ _)
      intro a a' x ha ha'
      obtain ⟨w, -, rfl, hw⟩ := hfiled _ certs a x hcerts ha
      obtain ⟨w', -, rfl, hw'⟩ := hfiled _ certs a' x hcerts ha'
      exact (hapart w w' (hw.trans hw'.symm)).2

/- Whole runs. -/

structure Ladder (cr : Crypto) (hist : List NodeCall) (b : VertexBook) : Prop where
  started : b.started = true
  rounds : (hist.flatMap (NodeCall.built cr)).map (·.round) = List.range (b.currentRound + 1)
  kept : ∀ (x : Hash32) (p : VertexProposal), b.myProposals[x]? = some p →
    ∃ c ∈ hist, ∃ v ∈ c.built cr, p = signedAs c.ctx v

section Ladder
variable {cr : Crypto} {set : ValidatorSet} {hist : List NodeCall} {call : NodeCall}

theorem Ladder.rest {d : VertexBook} (h : Ladder cr hist call.pre.vertices)
    (hbuilt : call.built cr = []) (hsame : SameOwn call.pre.vertices d) :
    Ladder cr (hist ++ [call]) d := by
  refine ⟨hsame.started.trans h.started, ?_, ?_⟩
  · rw [List.flatMap_append, List.map_append, h.rounds, hsame.round]
    simp [hbuilt]
  · intro x p hx
    rw [hsame.mine] at hx
    obtain ⟨c, hc, hv⟩ := h.kept x p hx
    exact ⟨c, List.mem_append_left _ hc, hv⟩

theorem Ladder.climb {need k : Nat} {b d : VertexBook} (h : Ladder cr hist call.pre.vertices)
    (hfoot : Footing cr call b) (hbuilt : call.built cr = rungs cr call.ctx need k b)
    (hstate : d = prune (ascend cr call.pre.cfg call.ctx need k b).state ∨
      d = (ascend cr call.pre.cfg call.ctx need k b).state)
    (hst : d.started = true) : Ladder cr (hist ++ [call]) d := by
  have hround : d.currentRound = call.pre.vertices.currentRound + k := by
    rw [← hfoot.round, ← @ascend_round cr call.pre.cfg call.ctx need k b]
    cases hstate with
    | inl heq => rw [heq]; rfl
    | inr heq => rw [heq]
  have hmine : ∀ (x : Hash32) (p : VertexProposal), d.myProposals[x]? = some p →
      (ascend cr call.pre.cfg call.ctx need k b).state.myProposals[x]? = some p := by
    intro x p hx
    cases hstate with
    | inl heq =>
      rw [heq] at hx
      exact (prune_mine.mp hx).1
    | inr heq => exact heq ▸ hx
  refine ⟨hst, ?_, ?_⟩
  · rw [List.flatMap_append, List.map_append, h.rounds, List.flatMap_singleton, hbuilt,
      rungs_rounds, hfoot.round, hround, Nat.add_right_comm]
    exact List.range_add.symm
  · intro x p hx
    cases ascend_mine k b (hmine x p hx) with
    | inl hold =>
      rw [hfoot.mine] at hold
      obtain ⟨c, hc, hv⟩ := h.kept x p hold
      exact ⟨c, List.mem_append_left _ hc, hv⟩
    | inr hrung =>
      obtain ⟨v, hv, heq⟩ := hrung
      exact ⟨call, by simp, v, hbuilt ▸ hv, heq⟩

theorem built_of_shape {o : Result VertexBook} (h : VertexShape cr set call o) :
    o.signed.filterMap (builtFrom cr) = [] ∧ SameOwn call.pre.vertices o.state ∨
    o.signed.filterMap (builtFrom cr) = [ownVertex cr call.ctx call.pre.vertices 0 []] ∧
      call.pre.vertices.started = false ∨
    ∃ need k b, quorumNeed set = .ok need ∧ Footing cr call b ∧ Quorate b need k ∧
      o.signed.filterMap (builtFrom cr) = rungs cr call.ctx need k b ∧
      (o.state = prune (ascend cr call.pre.cfg call.ctx need k b).state ∨
        o.state = (ascend cr call.pre.cfg call.ctx need k b).state) := by
  cases h with
  | still o h hrest => exact Or.inl ⟨builtFrom_none cr h.unsigned, h.same⟩
  | boot o hev hst ho =>
    refine Or.inr (Or.inl ⟨?_, hst⟩)
    obtain rfl | ⟨e, rfl⟩ := ho
    · exact builtFrom_requests cr call.ctx _ 0 []
    · rw [Outcome.andThen_of_ok rfl]
      simp only [announce, Outcome.fail_signed, List.append_nil]
      exact builtFrom_requests cr call.ctx _ 0 []
  | climb need b first o hneed hfoot hfirst hclimb =>
    obtain ⟨k, hq, hsigned, hstate, -⟩ := hclimb.ascent
    refine Or.inr (Or.inr ⟨need, k, b, hneed, hfoot, hq, ?_, hstate⟩)
    rw [Outcome.andThen_of_ok rfl]
    simp only [Outcome.ok_signed, List.nil_append]
    rw [hsigned, ascend_built]
  | again id delay stalled retries hev again hagain =>
    exact Or.inl ⟨rfl, rfl, rfl, rfl, rfl⟩

theorem ladder_step (hshape : VertexShape cr set call (call.vertexOutcome cr))
    (h : Ladder cr hist call.pre.vertices) :
    Ladder cr (hist ++ [call]) (call.vertexOutcome cr).state := by
  obtain ⟨hbuilt, hsame⟩ | ⟨-, hst⟩ | ⟨need, k, b, -, hfoot, -, hbuilt, hstate⟩ :=
    built_of_shape hshape
  · exact h.rest hbuilt hsame
  · exact absurd (h.started.symm.trans hst) (by decide)
  · exact h.climb hfoot hbuilt hstate (bookSteady_started (vertexOutcome_moves cr call) h.started)

end Ladder

theorem ladder_boot {cr : Crypto} {set : ValidatorSet} {boot : HostContext} (cfg : Config)
    (self : ValidatorId) (hset : activeSet boot = .ok set) (hlen : 4 ≤ set.entries.length)
    (hapart : RoundsHashApart cr) :
    Ladder cr [bootCall cfg self boot] ((bootCall cfg self boot).vertexOutcome cr).state := by
  let call := bootCall cfg self boot
  have hbuilt : call.built cr = [ownVertex cr boot call.pre.vertices 0 []] ∧
      (call.vertexOutcome cr).state =
        seeded cr boot { call.pre.vertices with started := true } 0 [] := by
    obtain heq | ⟨e, -, heq⟩ := @genesisPropose_boot cr call set hset hlen hapart
      (ownBook_new cr self) rfl
    · exact ⟨congrArg (·.signed.filterMap (builtFrom cr)) heq, congrArg (·.state) heq⟩
    · exact ⟨congrArg (·.signed.filterMap (builtFrom cr)) heq, congrArg (·.state) heq⟩
  rw [hbuilt.2]
  refine ⟨rfl, ?_, ?_⟩
  · rw [List.flatMap_singleton, hbuilt.1]
    rfl
  · intro x p hx
    cases Maps.get_of_insert hx with
    | inl hnew => exact ⟨call, by simp [call], _, hbuilt.1 ▸ List.mem_cons_self, hnew.2⟩
    | inr hold => simp [call, bootCall, StateMachine.new, VertexBook.new] at hold

/-- A proposal that is sent again: the one of the current round, when its timer fires. -/
structure Repeated (cr : Crypto) (calls : List NodeCall) (call : NodeCall) (p : VertexProposal) :
    Prop where
  timer : ∃ id, call.event = some (.timerFired id)
  still : (StateMachine.exec cr call.input call.pre).state.vertices.currentRound =
    call.pre.vertices.currentRound
  same : ∃ c ∈ calls, ∃ v ∈ c.built cr, v.round = call.pre.vertices.currentRound ∧
    p = signedAs c.ctx v

/-- A repeated proposal is one that the book keeps for the current round. -/
theorem sent_of_shape {cr : Crypto} {set : ValidatorSet} {call : NodeCall} {o : Result VertexBook}
    (h : VertexShape cr set call o) {p : VertexProposal}
    (hp : Action.broadcastVertexProposal p ∈ o.actions) :
    (∃ v ∈ o.signed.filterMap (builtFrom cr), p = signedAs call.ctx v) ∨
      (∃ id, call.event = some (.timerFired id)) ∧
      o.state.currentRound = call.pre.vertices.currentRound ∧
      ∃ x : Hash32, call.pre.vertices.myProposals[x]? = some p ∧
        p.vertex.round = call.pre.vertices.currentRound := by
  cases h with
  | still o h hrest => exact absurd hp (h.silent p)
  | boot o hev hst ho =>
    obtain rfl | ⟨e, rfl⟩ := ho
    · exact Or.inl ⟨_, List.mem_singleton_self _, ownActions_proposal hp⟩
    · simp [announce, Outcome.andThen_of_ok, Outcome.actions, Except.map] at hp
  | climb need b first o hneed hfoot hfirst hclimb =>
    obtain ⟨k, hq, hsigned, -, hacts⟩ := hclimb.ascent
    have hmem : Action.broadcastVertexProposal p ∈ o.actions := by
      rw [Outcome.andThen_of_ok rfl] at hp
      cases hr : o.result with
      | error e => simp [Outcome.actions, hr, Except.map] at hp
      | ok acts =>
        simp only [Outcome.actions, hr, Except.map] at hp ⊢
        cases List.mem_append.mp hp with
        | inl hl => cases hfirst <;> simp at hl
        | inr hr => exact hr
    obtain ⟨v, hv, heq⟩ := ascend_sent k b (hacts _ hmem)
    refine Or.inl ⟨v, ?_, heq⟩
    rw [Outcome.andThen_of_ok rfl]
    simp only [Outcome.ok_signed, List.nil_append]
    rw [hsigned, ascend_built]
    exact hv
  | again id delay stalled retries hev again hagain =>
    refine Or.inr ⟨⟨id, hev⟩, rfl, ?_⟩
    have hsome : again = some p := by
      simp only [Outcome.ok_actions, List.mem_append, Option.mem_toList,
        Option.map_eq_some_iff] at hp
      obtain ⟨q, hq, heq⟩ | htimer := hp
      · cases heq
        exact hq
      · simp at htimer
    obtain ⟨e, he, rfl⟩ := Option.map_eq_some_iff.mp (hagain.symm.trans hsome)
    obtain ⟨hx, hr⟩ := Maps.find_spec call.pre.vertices.myProposals _ e.1 e.2 he
    exact ⟨e.1, hx, by simpa using hr⟩

section Discipline
variable {cr : Crypto} {cfg : Config} {self : ValidatorId} {set : ValidatorSet}
  {boot : HostContext} {is : List StateMachine.Input}

theorem fixedSet_call {js : List StateMachine.Input} (hset : FixedSet set js) {call : NodeCall}
    (hcall : call ∈ StateMachine.run cr cfg self js) : activeSet call.ctx = .ok set :=
  hset call.input (run_input hcall)

/-- What L1 does in a call of the run, and the own vertices it starts from. -/
theorem shape_run {js : List StateMachine.Input} (hapart : RoundsHashApart cr)
    (hlen : 4 ≤ set.entries.length) (hset : FixedSet set js) {call : NodeCall}
    (hcall : call ∈ StateMachine.run cr cfg self js) :
    VertexShape cr set call (call.vertexOutcome cr) ∧ OwnBook cr self call.pre.vertices := by
  obtain ⟨ks, ls, -, hpre, -⟩ := before_call hcall
  have hown : OwnBook cr self call.pre.vertices := hpre ▸ ownBook_run cr cfg self ks
  exact ⟨vertexOutcome_shape (fixedSet_call hset hcall) hlen hapart hown.of_self, hown⟩

theorem ladder_run (hapart : RoundsHashApart cr) (hlen : 4 ≤ set.entries.length)
    (hset : FixedSet set ((.genesis, boot) :: is)) :
    Ladder cr (StateMachine.run cr cfg self ((.genesis, boot) :: is))
        (StateMachine.reached cr cfg self ((.genesis, boot) :: is)).vertices := by
  have hboot := @ladder_boot cr set boot cfg self (hset _ List.mem_cons_self) hlen hapart
  refine booted_run cr (fun call => VertexShape cr set call (call.vertexOutcome cr))
    (Ladder cr) cfg self boot hboot ?_ is
    (fun call hcall => (shape_run hapart hlen hset hcall).1)
  intro hist call hladder hshape
  exact ladder_step hshape hladder

/-- A call of a bootstrapped run is the bootstrap or comes after it. -/
theorem call_cases {call : NodeCall}
    (hcall : call ∈ StateMachine.run cr cfg self ((.genesis, boot) :: is)) :
    call = bootCall cfg self boot ∨ ∃ js ks, is = js ++ call.input :: ks ∧
      call.pre = StateMachine.reached cr cfg self ((.genesis, boot) :: js) ∧
      ∀ c ∈ StateMachine.run cr cfg self ((.genesis, boot) :: js),
        c ∈ StateMachine.run cr cfg self ((.genesis, boot) :: is) := by
  obtain ⟨js, ks, his, hpre, hsub⟩ := before_call hcall
  cases js with
  | nil =>
    obtain ⟨pre, input⟩ := call
    simp only [List.nil_append, List.cons.injEq] at his
    refine Or.inl ?_
    rw [show pre = StateMachine.new cfg self from hpre, ← his.1]
    rfl
  | cons j js =>
    simp only [List.cons_append, List.cons.injEq] at his
    obtain ⟨rfl, his⟩ := his
    exact Or.inr ⟨js, ks, his, hpre, hsub⟩

theorem built_founded {js : List StateMachine.Input} (hapart : VerticesHashApart cr)
    (hlen : 4 ≤ set.entries.length) (hset : FixedSet set js)
    (hsealed : ∀ call ∈ StateMachine.run cr cfg self js, DeliversSealed cr call) {call : NodeCall}
    (hcall : call ∈ StateMachine.run cr cfg self js) {v : Vertex} (hv : v ∈ call.built cr) :
    v.author = self ∧ (v.round = 0 ∧ v.parents = [] ∨
      ∃ r, Founded call (quorumThreshold set.entries.length) v r) := by
  obtain ⟨hsh, hown⟩ := shape_run hapart.rounds hlen hset hcall
  unfold NodeCall.built at hv
  obtain ⟨hbuilt, -⟩ | ⟨hbuilt, -⟩ | ⟨need, k, b, hneed, hfoot, hq, hbuilt, -⟩ :=
    built_of_shape hsh
  · rw [hbuilt] at hv
    exact absurd hv List.not_mem_nil
  · rw [hbuilt, List.mem_singleton] at hv
    rw [hv]
    exact ⟨hown.selfId, Or.inl ⟨rfl, rfl⟩⟩
  · have hrung : v ∈ rungs cr call.ctx need k b := hbuilt ▸ hv
    have hfiled : Filed cr call.recorded := by
      obtain ⟨ks, ls, -, hpre, hsub⟩ := before_call hcall
      refine filed_recorded (hsealed call hcall) hown ?_
      rw [hpre]
      exact filed_run cr cfg self ks fun c hc => hsealed c (hsub c hc)
    refine ⟨?_, Or.inr ?_⟩
    · obtain ⟨i, -, rfl⟩ := List.mem_map.mp hrung
      exact hfoot.own.selfId.trans hown.selfId
    · rw [← quorumNeed_eq hneed]
      exact rungs_founded hapart hfiled hfoot (two_le_need hlen hneed) hq hrung

theorem sent_repeated (hapart : RoundsHashApart cr) (hlen : 4 ≤ set.entries.length)
    (hset : FixedSet set ((.genesis, boot) :: is)) {call : NodeCall}
    (hcall : call ∈ StateMachine.run cr cfg self ((.genesis, boot) :: is)) {p : VertexProposal}
    (hp : Action.broadcastVertexProposal p ∈ (call.vertexOutcome cr).actions) :
    (∃ v ∈ call.built cr, p = signedAs call.ctx v) ∨
      Repeated cr (StateMachine.run cr cfg self ((.genesis, boot) :: is)) call p := by
  cases sent_of_shape (shape_run hapart hlen hset hcall).1 hp with
  | inl hnew => exact Or.inl hnew
  | inr hold =>
    obtain ⟨hev, hround, x, hx, hp⟩ := hold
    refine Or.inr ⟨hev, ?_, ?_⟩
    · rw [(exec_fromVertices cr call).book]
      exact hround
    · cases call_cases hcall with
      | inl hboot =>
        obtain ⟨id, hid⟩ := hev
        rw [hboot] at hid
        cases hid
      | inr hlater =>
        obtain ⟨js, ks, his, hpre, hsub⟩ := hlater
        have hjs : FixedSet set ((.genesis, boot) :: js) := hset.of_append his
        rw [hpre] at hx hp ⊢
        obtain ⟨c, hc, v, hv, heq⟩ :=
          (@ladder_run cr cfg self set boot js hapart hlen hjs).kept x p hx
        rw [heq] at hp
        exact ⟨c, hsub c hc, v, hv, hp, heq⟩

end Discipline

section Devnet
open Devnet

def slotCrypto : Crypto := { openCrypto with
  blake3WithDst := fun dst msg =>
    match dst, msg with
    | .vertexHash, .vertexBody round author _ _ => ⟨Nat.pair round author.val⟩
    | _, _ => ⟨hash dst msg⟩ }

theorem verticesHashApart : VerticesHashApart slotCrypto := by
  intro v w heq
  have hval : Nat.pair v.round v.author.val = Nat.pair w.round w.author.val :=
    congrArg Hash32.val heq
  rw [Nat.pair_eq_pair] at hval
  exact ⟨hval.1, ValidatorId.val_injective hval.2⟩

def slotVertex (round author : Nat) : CertifiedVertex :=
  { vertexAt round author with vertex := sealHash slotCrypto (vertexAt round author).vertex }

def slotRun : List StateMachine.Input :=
  [slotVertex 0 0, slotVertex 0 1, slotVertex 0 2, slotVertex 1 0, slotVertex 1 1,
    slotVertex 1 2].map fun cv => (.event (.certifiedVertexReceived cv), ports 3 1)

end Devnet
end LuaDag
