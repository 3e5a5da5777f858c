import LuaDag.RoundTimer
import LuaDag.WindowVotes

/-! What a node gets done in L1 as long as its calls return: what it has sent for its own vertices
and for its votes, which votes it holds, and why a round is left behind. -/
namespace LuaDag
open VertexCert

def OwnKey (cr : Crypto) (set : ValidatorSet) (self : ValidatorId) (sign : Dst → Bytes → BlsSig) :
    Prop :=
  ∃ pk, pkFor cr set self = some pk ∧ ∀ dst msg, cr.verify pk dst msg (sign dst msg) = true

def NodeCall.Returns (cr : Crypto) (call : NodeCall) : Prop :=
  ∃ acts, (call.vertexOutcome cr).result = .ok acts

/-- An invariant over the actions of L1 and the vertex book, where every call returns. -/
theorem book_returning (cr : Crypto) (Good : NodeCall → Prop)
    (P : List Action → VertexBook → Prop)
    (hmove : ∀ call, Good call → ∀ acts b sg new d, BookMove cr call b sg new d → P acts b →
      P (acts ++ new) d)
    (cfg : Config) (self : ValidatorId) (hinit : P [] (VertexBook.new self))
    (is : List StateMachine.Input) (hgood : ∀ call ∈ StateMachine.run cr cfg self is,
      Good call ∧ NodeCall.Returns cr call) :
    P (vertexActions cr (StateMachine.run cr cfg self is))
      (StateMachine.reached cr cfg self is).vertices := by
  refine book_run cr (fun call => Good call ∧ call.Returns cr)
    (fun hist b => P (vertexActions cr hist) b) cfg self hinit ?_ is hgood
  rintro hist call hb ⟨hg, as, has⟩
  obtain ⟨new, hpath, hres⟩ := vertexOutcome_moves cr call
  have hinv := hpath.invariant (R := fun _ => True) (P := fun _ acts b => P acts b)
    (fun _ _ _ _ _ _ _ hm hb => hmove call hg _ _ _ _ _ hm hb) (fun _ _ => trivial) [] _ hb
  rw [vertexActions_append, vertexActions_singleton]
  simp only [Outcome.actions, has]
  exact hres as has ▸ hinv

/- Rounds. -/

theorem bookMove_round {cr : Crypto} {me : ValidatorId} {call : NodeCall} {b d : VertexBook}
    {sg : List SignReq} {acts : List Action} (hm : BookMove cr call b sg acts d)
    (hown : OwnBook cr me b) : b.currentRound ≤ d.currentRound := by
  cases hm with
  | genesis hst => exact Nat.le_of_eq (hown.idle hst).1
  | propose set need certs hst hset hready => exact Nat.le_succ _
  | _ => exact Nat.le_refl _

theorem vertexOutcome_round {cr : Crypto} {me : ValidatorId} {call : NodeCall}
    (hown : OwnBook cr me call.pre.vertices) :
    call.pre.vertices.currentRound ≤ (call.vertexOutcome cr).state.currentRound := by
  obtain ⟨acts, hpath, -⟩ := vertexOutcome_moves cr call
  have hkeep := hpath.keeps (P := fun d => OwnBook cr me d ∧
    call.pre.vertices.currentRound ≤ d.currentRound)
    (fun _ _ _ _ hm h => ⟨ownBook_move hm h.1, h.2.trans (bookMove_round hm h.1)⟩)
    ⟨hown, Nat.le_refl _⟩
  exact hkeep.2

/- What has been sent. -/

/-- The own proposals on record are sealed, signed and sent; a certificate that is sent is of such
a proposal; and every vertex that is marked as certified has its certificate sent. -/
structure Announced (cr : Crypto) (set : ValidatorSet) (me : ValidatorId) (acts : List Action)
    (b : VertexBook) : Prop where
  own : OwnBook cr me b
  proposals : ∀ (h : Hash32) (p : VertexProposal), b.myProposals[h]? = some p →
    Action.broadcastVertexProposal p ∈ acts ∧ p.vertex.hash = contentHash cr p.vertex ∧
      verifyProposal cr set p = true
  certificates : ∀ cv, Action.broadcastCertifiedVertex cv ∈ acts →
    ∃ p, Action.broadcastVertexProposal p ∈ acts ∧ p.vertex = cv.vertex
  marked : ∀ h ∈ b.emittedCerts, ∃ cv, Action.broadcastCertifiedVertex cv ∈ acts ∧
    cv.vertex.hash = h ∧ contentHash cr cv.vertex = h

section Announced
variable {cr : Crypto} {set : ValidatorSet} {me : ValidatorId} {acts new : List Action}
  {b d : VertexBook}

/-- Nothing new on record, and no certificate sent. -/
theorem Announced.keep (h : Announced cr set me acts b) (hown : OwnBook cr me d)
    (hmine : ∀ (x : Hash32) (p : VertexProposal), d.myProposals[x]? = some p →
      b.myProposals[x]? = some p)
    (hmarked : d.emittedCerts ⊆ b.emittedCerts)
    (hnew : ∀ cv, Action.broadcastCertifiedVertex cv ∉ new) :
    Announced cr set me (acts ++ new) d := by
  refine ⟨hown, ?_, ?_, ?_⟩
  · intro x p hx
    obtain ⟨hsent, hrest⟩ := h.proposals x p (hmine x p hx)
    exact ⟨List.mem_append_left _ hsent, hrest⟩
  · intro cv hcv
    cases List.mem_append.mp hcv with
    | inl hold =>
      obtain ⟨p, hp, heq⟩ := h.certificates cv hold
      exact ⟨p, List.mem_append_left _ hp, heq⟩
    | inr hin => exact absurd hin (hnew cv)
  · intro x hx
    obtain ⟨cv, hcv, hrest⟩ := h.marked x (hmarked hx)
    exact ⟨cv, List.mem_append_left _ hcv, hrest⟩

theorem not_certificate_own {cfg : Config} {ctx : HostContext} {round : Round}
    {parents : List Hash32} (cv : CertifiedVertex) :
    Action.broadcastCertifiedVertex cv ∉ ownActions cr cfg ctx b round parents := by
  intro hcv
  have hin := mem_certifiedIn.mpr hcv
  rw [certifiedIn_own] at hin
  cases hin

theorem Announced.seed {cfg : Config} {ctx : HostContext} (h : Announced cr set me acts b)
    (hkey : OwnKey cr set me ctx.signBls) {round : Round} {parents : List Hash32}
    {c : VertexBook} (hc : c = b ∨ c = { b with started := true })
    (hown : OwnBook cr me (seeded cr ctx c round parents)) :
    Announced cr set me (acts ++ ownActions cr cfg ctx b round parents)
      (seeded cr ctx c round parents) := by
  have hself : c.selfId = b.selfId := by
    obtain rfl | rfl := hc <;> rfl
  have hmine : c.myProposals = b.myProposals := by
    obtain rfl | rfl := hc <;> rfl
  have hmarked : c.emittedCerts = b.emittedCerts := by
    obtain rfl | rfl := hc <;> rfl
  have hproposal : ownProposal cr ctx c round parents = ownProposal cr ctx b round parents := by
    simp only [ownProposal, ownVertex, hself]
  refine ⟨hown, ?_, ?_, ?_⟩
  · intro x p hx
    cases Maps.get_of_insert hx with
    | inl hnew =>
      obtain ⟨-, rfl⟩ := hnew
      refine ⟨?_, rfl, ?_⟩
      · rw [hproposal]
        exact List.mem_append_right _ (by simp [ownActions])
      · obtain ⟨pk, hpk, hver⟩ := hkey
        have hauthor : c.selfId = me := by rw [hself, h.own.selfId]
        simp only [verifyProposal, ownProposal, ownVertex, sealHash, hauthor, hpk]
        exact hver _ _
    | inr hold =>
      rw [hmine] at hold
      obtain ⟨hsent, hrest⟩ := h.proposals x p hold
      exact ⟨List.mem_append_left _ hsent, hrest⟩
  · intro cv hcv
    cases List.mem_append.mp hcv with
    | inl hold =>
      obtain ⟨p, hp, heq⟩ := h.certificates cv hold
      exact ⟨p, List.mem_append_left _ hp, heq⟩
    | inr hin => exact absurd hin (not_certificate_own cv)
  · intro x hx
    have hx' : x ∈ b.emittedCerts := hmarked ▸ hx
    obtain ⟨cv, hcv, hrest⟩ := h.marked x hx'
    exact ⟨cv, List.mem_append_left _ hcv, hrest⟩

theorem announced_move {call : NodeCall} {sg : List SignReq}
    (hkey : OwnKey cr set me call.ctx.signBls) (hm : BookMove cr call b sg new d)
    (h : Announced cr set me acts b) : Announced cr set me (acts ++ new) d := by
  have hown := ownBook_move hm h.own
  cases hm with
  | certify set' need x p sigs cv hset hneed hnew hmine hsigs hquorum hcv hok =>
    have hvertex := assembleCert_vertex hcv
    obtain ⟨hhash, hcontent, -, -⟩ := h.own.mine x p hmine
    refine ⟨hown, ?_, ?_, ?_⟩
    · intro y q hy
      obtain ⟨hsent, hrest⟩ := h.proposals y q hy
      exact ⟨List.mem_append_left _ hsent, hrest⟩
    · intro cv' hcv'
      cases List.mem_append.mp hcv' with
      | inl hold =>
        obtain ⟨q, hq, heq⟩ := h.certificates cv' hold
        exact ⟨q, List.mem_append_left _ hq, heq⟩
      | inr hin =>
        simp only [List.mem_singleton, Action.broadcastCertifiedVertex.injEq] at hin
        rw [hin]
        exact ⟨p, List.mem_append_left _ (h.proposals x p hmine).1, hvertex.symm⟩
    · intro y hy
      cases Finset.mem_insert.mp hy with
      | inl heq =>
        refine ⟨cv, by simp, ?_, ?_⟩
        · rw [hvertex, heq, hhash]
        · rw [hvertex, heq, hcontent]
      | inr hold =>
        obtain ⟨cv', hcv', hrest⟩ := h.marked y hold
        exact ⟨cv', List.mem_append_left _ hcv', hrest⟩
  | genesis hst => exact h.seed hkey (Or.inr rfl) hown
  | propose set' need certs hst hset hready => exact h.seed hkey (Or.inl rfl) hown
  | prune hst =>
    exact h.keep hown (fun x p hx => (prune_mine.mp hx).1) (Finset.filter_subset _ _) (by simp)
  | rearm id hev stalled retries delay again hagain =>
    refine h.keep hown (fun x p hx => hx) (fun _ hx => hx) ?_
    intro cv hcv
    cases again <;> simp at hcv
  | _ => exact h.keep hown (fun x p hx => hx) (fun _ hx => hx) (by simp)

end Announced

/-- Every slot of another member that is voted has its vote sent: a valid one, for a proposal
that has come in. -/
def VotesSent (cr : Crypto) (set : ValidatorSet) (me : ValidatorId)
    (seen : VertexProposal → Prop) (acts : List Action) (b : VertexBook) : Prop :=
  b.selfId = me ∧ ∀ r a, (r, a) ∈ b.voted → a ≠ me →
    ∃ p sig, seen p ∧ p.vertex.round = r ∧ p.vertex.author = a ∧
      Action.broadcastVertexPartial ⟨p.vertex.hash, r, a, me, sig⟩ ∈ acts ∧
      VoteOn cr set p.vertex me sig

theorem votesSent_move {cr : Crypto} {set : ValidatorSet} {me : ValidatorId}
    {seen : VertexProposal → Prop} {call : NodeCall} {acts new : List Action}
    {b d : VertexBook} {sg : List SignReq} (hkey : OwnKey cr set me call.ctx.signBls)
    (hseen : ∀ p, call.event = some (.vertexProposalReceived p) → seen p)
    (hm : BookMove cr call b sg new d) (h : VotesSent cr set me seen acts b) :
    VotesSent cr set me seen (acts ++ new) d := by
  obtain ⟨hself, hvotes⟩ := h
  have hold : ∀ r a, (r, a) ∈ b.voted → a ≠ me →
      ∃ p sig, seen p ∧ p.vertex.round = r ∧ p.vertex.author = a ∧
        Action.broadcastVertexPartial ⟨p.vertex.hash, r, a, me, sig⟩ ∈ acts ++ new ∧
        VoteOn cr set p.vertex me sig := by
    intro r a hv ha
    obtain ⟨p, sig, hp, hr, hauthor, hsent, hok⟩ := hvotes r a hv ha
    exact ⟨p, sig, hp, hr, hauthor, List.mem_append_left _ hsent, hok⟩
  -- the own slot does not count
  have hseeded : ∀ c : VertexBook, c.selfId = me → c.voted = b.voted → ∀ round parents,
      VotesSent cr set me seen (acts ++ new) (seeded cr call.ctx c round parents) := by
    intro c hc hvoted round parents
    refine ⟨hc, ?_⟩
    intro r a hv ha
    cases Finset.mem_insert.mp hv with
    | inl heq =>
      cases heq
      exact absurd hc ha
    | inr hin => exact hold r a (hvoted ▸ hin) ha
  cases hm with
  | vote set' p hev hset hok hpass hseen' hnew =>
    refine ⟨hself, ?_⟩
    intro r a hv ha
    cases Finset.mem_insert.mp hv with
    | inl heq =>
      cases heq
      obtain ⟨pk, hpk, hver⟩ := hkey
      exact ⟨p, call.ctx.signBls .vertexCert (signingBytes p.vertex), hseen p hev, rfl, rfl,
        by simp [hself], pk, hpk, hver _ _⟩
    | inr hin => exact hold r a hin ha
  | genesis hst => exact hseeded { b with started := true } hself rfl _ _
  | propose set' need certs hst hset hready => exact hseeded b hself rfl _ _
  | prune hst => exact ⟨hself, fun r a hv ha => hold r a (Finset.mem_of_mem_filter _ hv) ha⟩
  | _ => exact ⟨hself, hold⟩

/- Votes for an own vertex. -/

/-- The node has left round `k`, or it is in round `k` and counts the vote of `voter` for its
vertex `h`. -/
def CountsVote (k : Round) (h : Hash32) (p : VertexProposal) (voter : ValidatorId)
    (b : VertexBook) : Prop :=
  b.started = true ∧ (k < b.currentRound ∨ b.currentRound = k ∧ p.vertex.round = k ∧
    b.myProposals[h]? = some p ∧ ((b.collecting[h]?.getD ∅)[voter]?).isSome = true)

section CountsVote
variable {cr : Crypto} {call : NodeCall} {k : Round} {h : Hash32} {p : VertexProposal}
  {voter : ValidatorId} {b d : VertexBook}

theorem countsVote_insert {x : Hash32} {sigs : Std.TreeMap ValidatorId BlsSig}
    (hsigs : ((b.collecting[x]?.getD ∅)[voter]?).isSome = true →
      (sigs[voter]?).isSome = true)
    (hc : ((b.collecting[h]?.getD ∅)[voter]?).isSome = true) :
    (((b.collecting.insert x sigs)[h]?.getD ∅)[voter]?).isSome = true := by
  by_cases hx : x = h
  · subst hx
    simpa using hsigs hc
  · simpa [hx] using hc

theorem isSome_of_insert {sigs : Std.TreeMap ValidatorId BlsSig} (v : ValidatorId) (sig : BlsSig)
    (hs : (sigs[voter]?).isSome = true) : ((sigs.insert v sig)[voter]?).isSome = true := by
  rw [Maps.get_insert]
  split
  · rfl
  · exact hs

theorem countsVote_move {sg : List SignReq} {acts : List Action} (hm : BookMove cr call b sg acts d)
    (hc : CountsVote k h p voter b) : CountsVote k h p voter d := by
  obtain ⟨hst, hcase⟩ := hc
  refine ⟨bookMove_started hm hst, ?_⟩
  cases hcase with
  | inl hpast =>
    refine Or.inl ?_
    cases hm with
    | genesis hst' => exact absurd (hst.symm.trans hst') (by simp)
    | propose set need certs hst' hset hready => exact Nat.lt_succ_of_lt hpast
    | _ => exact hpast
  | inr hnow =>
    obtain ⟨hround, hp, hmine, hvote⟩ := hnow
    cases hm with
    | genesis hst' => exact absurd (hst.symm.trans hst') (by simp)
    | propose set need certs hst' hset hready =>
      exact Or.inl (by rw [← hround]; exact Nat.lt_succ_self _)
    | openSlot x q hmine' =>
      exact Or.inr ⟨hround, hp, hmine, countsVote_insert id hvote⟩
    | collect set bp q hev hset hother hmine' hnew hok =>
      exact Or.inr ⟨hround, hp, hmine, countsVote_insert (isSome_of_insert _ _) hvote⟩
    | prune hst' =>
      have hkept : (prune b).myProposals[h]? = some p :=
        prune_mine.mpr ⟨hmine, by rw [hround, hp]; exact Nat.le_succ k⟩
      refine Or.inr ⟨hround, hp, hkept, ?_⟩
      cases hcoll : b.collecting[h]? with
      | none => simp [hcoll] at hvote
      | some sigs =>
        rw [prune_collecting.mpr ⟨hcoll, p, hkept⟩]
        rwa [hcoll] at hvote
    | _ => exact Or.inr ⟨hround, hp, hmine, hvote⟩

theorem countsVote_call (hc : CountsVote k h p voter call.pre.vertices) :
    CountsVote k h p voter (call.vertexOutcome cr).state := by
  obtain ⟨acts, hpath, -⟩ := vertexOutcome_moves cr call
  exact hpath.keeps (fun _ _ _ _ hm hb => countsVote_move hm hb) hc

/-- A valid vote that arrives in time is counted. -/
theorem onVertexPartial_counts {set : ValidatorSet} {bp : VertexPartial}
    (hset : activeSet call.ctx = .ok set)
    (hst : b.started = true) (hround : b.currentRound = p.vertex.round)
    (hto : bp.author = b.selfId ∧ bp.voter ≠ b.selfId)
    (hmine : b.myProposals[bp.vertexHash]? = some p)
    (hok : verifyPartial cr set bp p.vertex = true) :
    CountsVote p.vertex.round bp.vertexHash p bp.voter
      (onVertexPartial cr call.pre.cfg call.ctx bp b).state := by
  have hcounted : ∀ c : VertexBook, c.started = true → c.currentRound = b.currentRound →
      c.myProposals = b.myProposals →
      ((c.collecting[bp.vertexHash]?.getD ∅)[bp.voter]?).isSome = true →
      CountsVote p.vertex.round bp.vertexHash p bp.voter c := fun c hc hr hm hv =>
    ⟨hc, Or.inr ⟨hr.trans hround, rfl, by rw [hm]; exact hmine, hv⟩⟩
  unfold onVertexPartial
  rw [if_neg (by simp [hto.1, hto.2]), hmine]
  dsimp only
  split
  · rename_i prev hprev
    split
    · refine hcounted _ hst rfl rfl ?_
      simp [hprev]
    · refine hcounted _ hst rfl rfl ?_
      simp [hprev]
  · rw [hset]
    dsimp only
    rw [hok]
    simp only [Bool.not_true, Bool.false_eq_true, if_false]
    obtain ⟨acts, hpath, -⟩ := @tryFinalizeWith_moves cr call _ maybeAdvance_moves bp.vertexHash
      (counting b bp.vertexHash ((b.collecting[bp.vertexHash]?.getD ∅).insert bp.voter bp.sig))
    refine hpath.keeps (fun _ _ _ _ hm hb => countsVote_move hm hb) ?_
    refine hcounted _ hst rfl rfl ?_
    simp [counting]

end CountsVote

def AllCertified (need : Nat) (b : VertexBook) : Prop :=
  ∀ (h : Hash32) (p : VertexProposal), b.myProposals[h]? = some p →
    need ≤ (b.collecting[h]?.getD ∅).size → h ∈ b.emittedCerts

section AllCertified
variable {cr : Crypto} {cfg : Config} {ctx : HostContext} {set : ValidatorSet} {me : ValidatorId}
  {need : Nat} {b d : VertexBook}

theorem AllCertified.same (h : AllCertified need b) (hmine : d.myProposals = b.myProposals)
    (hcoll : d.collecting = b.collecting) (hmarked : d.emittedCerts = b.emittedCerts) :
    AllCertified need d := by
  intro x p hx hsize
  rw [hmine] at hx
  rw [hcoll] at hsize
  rw [hmarked]
  exact h x p hx hsize

theorem AllCertified.seed (h : AllCertified need b) (hapart : RoundsHashApart cr) (htwo : 2 ≤ need)
    {round : Round} (hbelow : HashesBelow cr round b) (parents : List Hash32) :
    AllCertified need (seeded cr ctx b round parents) := by
  intro x p hx hsize
  let v := ownVertex cr ctx b round parents
  have hfresh : b.collecting[v.hash]? = none := by
    by_contra hold
    obtain ⟨w, ha, hlt, hw⟩ := hbelow _ (Or.inr hold)
    have hround : w.round = round := hapart w v ha hw
    exact absurd hround (Nat.ne_of_lt hlt)
  by_cases hv : v.hash = x
  · subst hv
    have hone : ((seeded cr ctx b round parents).collecting[v.hash]?.getD ∅) =
        (∅ : Std.TreeMap ValidatorId BlsSig).insert b.selfId
          (ctx.signBls .vertexCert (signingBytes v)) := by
      simp [seeded, seedProposal, ownProposal, v, hfresh]
    rw [hone, ← Std.TreeMap.length_toList, Maps.toList_singleton] at hsize
    exact absurd (htwo.trans hsize) (by simp)
  · have hx' : b.myProposals[x]? = some p := by
      simpa [seeded, seedProposal, ownProposal, v, hv] using hx
    have hsize' : need ≤ (b.collecting[x]?.getD ∅).size := by
      simpa [seeded, seedProposal, ownProposal, v, hv] using hsize
    exact h x p hx' hsize'

theorem AllCertified.prune (h : AllCertified need b) : AllCertified need (prune b) := by
  intro x p hx hsize
  have hmine := (prune_mine.mp hx).1
  have hsize' : need ≤ (b.collecting[x]?.getD ∅).size := by
    cases hcoll : b.collecting[x]? with
    | none =>
      have hnone : (VertexCert.prune b).collecting[x]? = none := by
        simp [VertexCert.prune, hcoll]
      rwa [hnone] at hsize
    | some sigs =>
      rwa [prune_collecting.mpr ⟨hcoll, p, hx⟩] at hsize
  have hdef : (VertexCert.prune b).emittedCerts =
      b.emittedCerts.filter ((VertexCert.prune b).myProposals.contains ·) := rfl
  rw [hdef, Finset.mem_filter, Std.TreeMap.contains_eq_isSome_getElem?, hx]
  exact ⟨h x p hmine hsize', rfl⟩

theorem AllCertified.ascend (h : AllCertified need b) (hapart : RoundsHashApart cr)
    (htwo : 2 ≤ need) (hown : OwnBook cr me b) (hst : b.started = true) (quorum k : Nat) :
    AllCertified need (ascend cr cfg ctx quorum k b).state := by
  induction k generalizing b with
  | zero => exact h
  | succ k ih =>
    rw [ascend_state]
    exact ih (h.seed hapart htwo hown.below _) (hown.next hst _) hst

theorem AllCertified.climb (h : AllCertified need b) (hapart : RoundsHashApart cr) (htwo : 2 ≤ need)
    (hown : OwnBook cr me b) (hst : b.started = true) {o : Result VertexBook}
    (hclimb : Climbed cr cfg ctx need b o) : AllCertified need o.state := by
  obtain ⟨k, -, -, hstate, -⟩ := hclimb.ascent
  have htop : AllCertified need (VertexCert.ascend cr cfg ctx need k b).state :=
    h.ascend hapart htwo hown hst need k
  cases hstate with
  | inl heq => exact heq ▸ htop.prune
  | inr heq => exact heq ▸ htop

section Calls
variable {call : NodeCall} (hset : activeSet call.ctx = .ok set)
  (hneed : quorumNeed set = .ok need) (htwo : 2 ≤ need) (hapart : RoundsHashApart cr)
include hset hneed htwo hapart

/-- The votes on one vertex have been counted, and it is certified if they are enough. -/
theorem tryFinalize_certified {hash : Hash32} {b : VertexBook} {q : VertexProposal}
    (hq : b.myProposals[hash]? = some q) (hown : OwnBook cr me b)
    (hother : ∀ (x : Hash32) (p : VertexProposal), b.myProposals[x]? = some p → hash ≠ x →
      need ≤ (b.collecting[x]?.getD ∅).size → x ∈ b.emittedCerts)
    {acts : List Action} (hok : (tryFinalize cr call.pre.cfg call.ctx hash b).result = .ok acts) :
    AllCertified need (tryFinalize cr call.pre.cfg call.ctx hash b).state := by
  revert hok
  unfold tryFinalize tryFinalizeWith
  split
  · rename_i hmarked
    intro _ x p hx hsize
    by_cases hx' : hash = x
    · exact hx' ▸ hmarked
    · exact hother x p hx hx' hsize
  rw [hq, hset]
  dsimp only
  rw [hneed]
  dsimp only
  split
  · rename_i hnone
    intro _ x p hx hsize
    by_cases hx' : hash = x
    · subst hx'
      have hsize' : need ≤ (b.collecting[hash]?.getD ∅).size := hsize
      rw [hnone, Option.getD_none, Std.TreeMap.size_emptyc] at hsize'
      exact absurd (htwo.trans hsize') (by simp)
    · exact hother x p hx hx' hsize
  rename_i sigs hsigs
  split
  · rename_i hlow
    intro _ x p hx hsize
    by_cases hx' : hash = x
    · subst hx'
      have hsize' : need ≤ (b.collecting[hash]?.getD ∅).size := hsize
      rw [hsigs, Option.getD_some] at hsize'
      exact absurd hlow (Nat.not_lt.mpr hsize')
    · exact hother x p hx hx' hsize
  split
  · exact fun hok => absurd hok (by simp)
  rename_i cv hcv
  split
  · exact fun hok => absurd hok (by simp)
  intro _
  let certified : VertexBook :=
    recordCert { b with emittedCerts := insert hash b.emittedCerts } cv
  have hcertified : AllCertified need certified := by
    intro x p hx hsize
    by_cases hx' : hash = x
    · exact hx' ▸ Finset.mem_insert_self _ _
    · exact Finset.mem_insert_of_mem (hother x p hx hx' hsize)
  have hown' : OwnBook cr me certified := hown.of_certified hq cv
  have hst : b.started = true := by
    by_contra hst
    simp only [Bool.not_eq_true] at hst
    exact absurd hq (by simp [(hown.idle hst).2.1 hash])
  have hclimb : Climbed cr call.pre.cfg call.ctx need certified
      (maybeAdvance cr call.pre.cfg call.ctx certified) :=
    maybeAdvance_climbed hset hneed htwo hapart hown' hst
  rw [Outcome.andThen_of_ok rfl]
  change AllCertified need (maybeAdvance cr call.pre.cfg call.ctx certified).state
  exact hcertified.climb hapart htwo hown' hst hclimb

/-- The vote that completes a quorum certifies the vertex. -/
theorem AllCertified.vote {b : VertexBook} (h : AllCertified need b) (hown : OwnBook cr me b)
    (bp : VertexPartial) {acts : List Action}
    (hok : (onVertexPartial cr call.pre.cfg call.ctx bp b).result = .ok acts) :
    AllCertified need (onVertexPartial cr call.pre.cfg call.ctx bp b).state := by
  revert hok
  unfold onVertexPartial
  split
  · exact fun _ => h
  split
  · exact fun _ => h
  rename_i q hq
  dsimp only
  have hopen : AllCertified need { b with
      collecting := b.collecting.insert bp.vertexHash (b.collecting[bp.vertexHash]?.getD ∅) } := by
    intro x p hx hsize
    refine h x p hx ?_
    by_cases hx' : bp.vertexHash = x
    · subst hx'
      simpa using hsize
    · simpa [hx'] using hsize
  split
  · split
    · exact fun _ => hopen.same rfl rfl rfl
    · exact fun _ => hopen
  rw [hset]
  dsimp only
  split
  · exact fun _ => hopen.same rfl rfl rfl
  intro hok
  refine tryFinalize_certified hset hneed htwo hapart hq
    ((hown.of_collecting hq _).of_collecting hq _) ?_ hok
  intro x p hx hne hsize
  refine h x p hx ?_
  simpa [hne] using hsize

theorem allCertified_call (h : AllCertified need call.pre.vertices)
    (hown : OwnBook cr me call.pre.vertices) (hret : call.Returns cr) :
    AllCertified need (call.vertexOutcome cr).state := by
  obtain ⟨acts, hok⟩ := hret
  obtain ⟨sm, req, ctx⟩ := call
  cases req with
  | genesis =>
    cases hst : sm.vertices.started with
    | true =>
      simp only [NodeCall.vertexOutcome, genesisPropose, hst, if_true]
      exact h
    | false =>
      have hbelow : HashesBelow cr 0 { sm.vertices with started := true } := (hown.idle hst).2.2
      have heq : genesisPropose cr sm.cfg ctx sm.vertices =
          announce cr sm.cfg ctx 0 [] { sm.vertices with started := true } := by
        unfold genesisPropose
        rw [if_neg (by simp [hst])]
        exact proposeRoundWith_eq hset hneed htwo hapart hbelow
      have hstart : AllCertified need { sm.vertices with started := true } := h.same rfl rfl rfl
      change AllCertified need (genesisPropose cr sm.cfg ctx sm.vertices).state
      rw [heq]
      exact hstart.seed hapart htwo hbelow []
  | event e =>
    cases e with
    | certifiedVertexReceived cv =>
      have hrec : AllCertified need (recordCert sm.vertices cv) := h.same rfl rfl rfl
      have hown' : OwnBook cr me (recordCert sm.vertices cv) :=
        ⟨hown.selfId, hown.idle, hown.mine, hown.single, hown.current, hown.below⟩
      cases hst : sm.vertices.started with
      | false =>
        have heq : onCertifiedVertex cr sm.cfg ctx cv sm.vertices =
            .quiet (recordCert sm.vertices cv) := by
          simp [onCertifiedVertex, maybeAdvance, maybeAdvanceWith, recordCert, hst]
        change AllCertified need (onCertifiedVertex cr sm.cfg ctx cv sm.vertices).state
        rw [heq]
        exact hrec
      | true =>
        exact hrec.climb hapart htwo hown' hst
          (maybeAdvance_climbed hset hneed htwo hapart hown' hst)
    | vertexProposalReceived p =>
      obtain ⟨seen, voted, rejected, heq⟩ := (@onVertexProposal_aside cr p ctx sm.vertices).state
      change AllCertified need (onVertexProposal cr p ctx sm.vertices).state
      rw [heq]
      exact h.same rfl rfl rfl
    | vertexPartialReceived bp =>
      exact h.vote hset hneed htwo hapart hown bp hok
    | timerFired id =>
      simp only [NodeCall.vertexOutcome]
      split
      · exact h
      · simp only [onTimerFired]
        split
        · exact h
        split
        · exact h.same rfl rfl rfl
        split
        · exact h.same rfl rfl rfl
        split
        · exact h.same rfl rfl rfl
        · exact h.same rfl rfl rfl
    | _ => exact h

end Calls
end AllCertified

def OwnCounted (b : VertexBook) : Prop :=
  ∀ (h : Hash32) (p : VertexProposal), b.myProposals[h]? = some p →
    ((b.collecting[h]?.getD ∅)[b.selfId]?).isSome = true

theorem ownCounted_seed {b : VertexBook} (h : OwnCounted b) (round : Round) (p : VertexProposal)
    (sig : BlsSig) : OwnCounted (seedProposal b round p sig) := by
  intro x q hx
  by_cases hp : p.vertex.hash = x
  · subst hp
    simp [seedProposal]
  · simpa [seedProposal, hp] using h x q (by simpa [seedProposal, hp] using hx)

theorem ownCounted_move {cr : Crypto} {call : NodeCall} {b d : VertexBook} {sg : List SignReq}
    {acts : List Action} (hm : BookMove cr call b sg acts d) (h : OwnCounted b) :
    OwnCounted d := by
  cases hm with
  | openSlot x p hmine => exact fun y q hy => countsVote_insert id (h y q hy)
  | collect set bp p hev hset hother hmine hnew hok =>
    exact fun y q hy => countsVote_insert (isSome_of_insert _ _) (h y q hy)
  | genesis hst =>
    have hstarted : OwnCounted { b with started := true } := h
    exact ownCounted_seed hstarted _ _ _
  | propose set need certs hst hset hready => exact ownCounted_seed h _ _ _
  | prune hst =>
    intro x p hx
    have hvote := h x p (prune_mine.mp hx).1
    cases hcoll : b.collecting[x]? with
    | none => simp [hcoll] at hvote
    | some sigs =>
      rw [prune_collecting.mpr ⟨hcoll, p, hx⟩]
      rwa [hcoll] at hvote
  | _ => exact h

/- Rounds that are left behind. -/

def InLog (log : List CertifiedVertex)
    (m : Std.TreeMap Round (Std.TreeMap ValidatorId Hash32)) : Prop :=
  ∀ r a h, (certsAt m r)[a]? = some h →
    ∃ cv ∈ log, cv.vertex.round = r ∧ cv.vertex.author = a ∧ cv.vertex.hash = h

theorem Kept.inLog {log : List CertifiedVertex} {b : VertexBook} (h : Kept log b) :
    InLog log b.certifiedByRound := by
  intro r a x hx
  obtain ⟨cv, hcv, rfl⟩ := Option.map_eq_some_iff.mp ((h r a x).mp hx).2
  have hslot := List.find?_some hcv
  simp only [decide_eq_true_eq] at hslot
  exact ⟨cv, List.mem_reverse.mp (List.mem_of_find?_eq_some hcv), hslot.1, hslot.2, rfl⟩

section InLog
variable {log : List CertifiedVertex} {m : Std.TreeMap Round (Std.TreeMap ValidatorId Hash32)}

theorem InLog.record (h : InLog log m) (cv : CertifiedVertex) :
    InLog (log ++ [cv]) (recordIn m cv.vertex) := by
  intro r a x hx
  rw [recordIn_get] at hx
  split at hx
  · rename_i hslot
    cases hx
    exact ⟨cv, by simp, hslot.1, hslot.2, rfl⟩
  · obtain ⟨w, hw, hrest⟩ := h r a x hx
    exact ⟨w, List.mem_append_left _ hw, hrest⟩

theorem InLog.authors (h : InLog log m) (r : Round) :
    ∃ authors : Finset ValidatorId, authors.card = (certsAt m r).size ∧
      ∀ a ∈ authors, ∃ cv ∈ log, cv.vertex.round = r ∧ cv.vertex.author = a := by
  have hnodup : ((certsAt m r).toList.map (·.1)).Nodup := by
    rw [List.Nodup, List.pairwise_map]
    exact (Maps.keys_lt _).imp ne_of_lt
  refine ⟨((certsAt m r).toList.map (·.1)).toFinset, ?_, ?_⟩
  · rw [List.toFinset_card_of_nodup hnodup, List.length_map, Std.TreeMap.length_toList]
  · intro a ha
    obtain ⟨e, he, rfl⟩ := List.mem_map.mp (List.mem_toFinset.mp ha)
    obtain ⟨cv, hcv, hround, hauthor, -⟩ := h r e.1 e.2 ((Maps.mem_toList _ _ _).mp he)
    exact ⟨cv, hcv, hround, hauthor⟩

theorem InLog.parents (h : InLog log m) {b : VertexBook} (hb : b.certifiedByRound = m)
    {need : Nat} {r : Round} (hquorum : need ≤ b.certifiedCountAt r) :
    (parentsAt b need r).length = need ∧ ∀ x ∈ parentsAt b need r,
      ∃ cv ∈ log, cv.vertex.round = r ∧ cv.vertex.hash = x := by
  have hdef : parentsAt b need r = (certsAt m r).values.take need := by
    rw [← hb]
    rfl
  rw [certifiedCountAt_eq, hb] at hquorum
  constructor
  · rw [hdef, List.length_take, Maps.length_values]
    exact Nat.min_eq_left hquorum
  · intro x hx
    rw [hdef] at hx
    obtain ⟨a, ha⟩ := Maps.mem_values.mp (List.mem_of_mem_take hx)
    obtain ⟨cv, hcv, hround, -, hhash⟩ := h r a x ha
    exact ⟨cv, hcv, hround, hhash⟩

end InLog

/-- A vertex of round 0 has no parents, a later one has `need` of them in the log. -/
def Grounds (log : List CertifiedVertex) (need : Nat) (v : Vertex) : Prop :=
  v.round = 0 ∧ v.parents = [] ∨ 0 < v.round ∧ need ≤ v.parents.length ∧
    ∀ x ∈ v.parents, ∃ cv ∈ log, cv.vertex.round + 1 = v.round ∧ cv.vertex.hash = x

/-- Each round below the current one has certificates of `need` authors in the log, and each own
vertex stands on the log. -/
structure Risen (need : Nat) (log : List CertifiedVertex) (b : VertexBook) : Prop where
  behind : ∀ r < b.currentRound, ∃ authors : Finset ValidatorId, need ≤ authors.card ∧
    ∀ a ∈ authors, ∃ cv ∈ log, cv.vertex.round = r ∧ cv.vertex.author = a
  grounds : ∀ (h : Hash32) (p : VertexProposal), b.myProposals[h]? = some p →
    Grounds log need p.vertex

section Risen
variable {cr : Crypto} {set : ValidatorSet} {need : Nat} {call : NodeCall}
  {log new : List CertifiedVertex} {b d : VertexBook}

theorem Grounds.append {v : Vertex} (h : Grounds log need v) : Grounds (log ++ new) need v := by
  refine h.imp_right fun habove => ⟨habove.1, habove.2.1, ?_⟩
  intro x hx
  obtain ⟨cv, hcv, hrest⟩ := habove.2.2 x hx
  exact ⟨cv, List.mem_append_left _ hcv, hrest⟩

/-- A call that leaves the round and adds no own vertex. -/
theorem Risen.rest (h : Risen need log b) (hround : d.currentRound = b.currentRound)
    (hmine : d.myProposals = b.myProposals) : Risen need (log ++ new) d := by
  refine ⟨?_, ?_⟩
  · intro r hr
    rw [hround] at hr
    obtain ⟨authors, hcard, hall⟩ := h.behind r hr
    refine ⟨authors, hcard, ?_⟩
    intro a ha
    obtain ⟨cv, hcv, hrest⟩ := hall a ha
    exact ⟨cv, List.mem_append_left _ hcv, hrest⟩
  · intro x p hx
    rw [hmine] at hx
    exact (h.grounds x p hx).append

/-- A call that climbs `k` rounds, from a book whose record is in the log by now. -/
theorem Risen.climb {cfg : Config} {ctx : HostContext} {k : Nat} (h : Risen need log b)
    (hlog : InLog log b.certifiedByRound) (hq : Quorate b need k)
    (hround : d.currentRound = b.currentRound + k)
    (hmine : ∀ (x : Hash32) (p : VertexProposal), d.myProposals[x]? = some p →
      (ascend cr cfg ctx need k b).state.myProposals[x]? = some p) : Risen need log d := by
  refine ⟨?_, ?_⟩
  · intro r hr
    by_cases hlow : r < b.currentRound
    · exact h.behind r hlow
    · obtain ⟨i, rfl⟩ := Nat.exists_eq_add_of_le (Nat.le_of_not_lt hlow)
      rw [hround] at hr
      have hcount := hq i (Nat.lt_of_add_lt_add_left hr)
      obtain ⟨authors, hcard, hall⟩ := hlog.authors (b.currentRound + i)
      refine ⟨authors, ?_, hall⟩
      rw [hcard]
      rwa [certifiedCountAt_eq] at hcount
  · intro x p hx
    cases ascend_mine k b (hmine x p hx) with
    | inl hold => exact h.grounds x p hold
    | inr hrung =>
      obtain ⟨v, hv, rfl⟩ := hrung
      obtain ⟨i, hi, rfl⟩ := List.mem_map.mp hv
      obtain ⟨hlen, hall⟩ := hlog.parents rfl (hq i (List.mem_range.mp hi))
      refine Or.inr ⟨Nat.succ_pos _, Nat.le_of_eq hlen.symm, ?_⟩
      intro y hy
      obtain ⟨cv, hcv, hr, hhash⟩ := hall y hy
      exact ⟨cv, hcv, congrArg (· + 1) hr, hhash⟩

/-- The book in which a climb starts, and the one certificate that comes with the climb. -/
theorem climb_inLog {first : List Action} {o : Result VertexBook}
    (hkept : Kept log call.pre.vertices) (hfoot : Footing cr call b)
    (hfirst : Arrives cr set call need b first)
    (hclimb : Climbed cr call.pre.cfg call.ctx need b o) (hret : o.result ≠ .error .overflow) :
    InLog (log ++ call.recordingsOf ((Outcome.ok b first).andThen fun _ => o))
      b.certifiedByRound := by
  obtain ⟨⟨acts, hacts, hown⟩, -, -⟩ := climbed_kept hclimb hret
  rw [hfoot.certified]
  cases hfirst with
  | delivered cv hev hemitted =>
    rw [recordingsOf_delivered hev, recorded_delivered hev]
    exact hkept.inLog.record cv
  | completed bp p cv hev hvote hvertex hemitted =>
    have hone : call.recordingsOf ((Outcome.ok b [.broadcastCertifiedVertex cv]).andThen
        fun _ => o) = [cv] := by
      rw [recordingsOf_own fun cv hcv => by cases hev.symm.trans hcv]
      rw [Outcome.andThen_of_ok rfl]
      simp only [Outcome.actions, hacts, Except.map, certifiedIn_append, hown]
      rfl
    rw [hone, recorded_completed hev hvote.mine, ← hvertex]
    exact hkept.inLog.record cv

theorem risen_of_shape {o : Result VertexBook} (hshape : VertexShape cr set call o)
    (hneed : quorumNeed set = .ok need)
    (hidle : call.pre.vertices.started = false → ∀ x : Hash32,
      call.pre.vertices.myProposals[x]? = none)
    (hret : o.result ≠ .error .overflow) (hkept : Kept log call.pre.vertices)
    (h : Risen need log call.pre.vertices) : Risen need (log ++ call.recordingsOf o) o.state := by
  cases hshape with
  | still o hstill hrest => exact h.rest hstill.same.round hstill.same.mine
  | boot o hev hst ho =>
    have hstate : o.state =
        seeded cr call.ctx { call.pre.vertices with started := true } 0 [] := by
      obtain rfl | ⟨e, rfl⟩ := ho <;> rfl
    rw [hstate]
    refine ⟨fun r hr => absurd hr (Nat.not_lt_zero r), ?_⟩
    intro x p hx
    cases Maps.get_of_insert hx with
    | inl hnew =>
      obtain ⟨-, rfl⟩ := hnew
      exact Or.inl ⟨rfl, rfl⟩
    | inr hold => exact absurd hold (by simp [hidle hst x])
  | climb need' b first o hneed' hfoot hfirst hclimb =>
    cases hneed.symm.trans hneed'
    have hret' : o.result ≠ .error .overflow := by
      intro herror
      exact hret (by simp [Outcome.andThen_of_ok, herror, Except.map])
    have hlog := climb_inLog hkept hfoot hfirst hclimb hret'
    have hb : Risen need (log ++ call.recordingsOf ((Outcome.ok b first).andThen fun _ => o)) b :=
      h.rest hfoot.round hfoot.mine
    obtain ⟨k, hq, -, hstate, -⟩ := hclimb.ascent
    rw [Outcome.andThen_of_ok rfl]
    refine @Risen.climb cr need _ b _ call.pre.cfg call.ctx k hb hlog hq ?_ ?_
    · rw [← @ascend_round cr call.pre.cfg call.ctx need k b]
      cases hstate with
      | inl heq => exact congrArg (·.currentRound) heq
      | inr heq => exact congrArg (·.currentRound) heq
    · intro x p hx
      cases hstate with
      | inl heq => exact (prune_mine.mp (heq ▸ hx)).1
      | inr heq => exact heq ▸ hx
  | again id delay stalled retries hev again hagain => exact h.rest rfl rfl

end Risen

/- Whole runs. -/
section Run
variable {cr : Crypto} {cfg : Config} {self : ValidatorId} {set : ValidatorSet} {need : Nat}
  {is : List StateMachine.Input}

/-- What L1 has achieved in calls that return. -/
structure Busy (cr : Crypto) (set : ValidatorSet) (me : ValidatorId) (need : Nat)
    (seen : VertexProposal → Prop) (calls : List NodeCall) (b : VertexBook) : Prop where
  announced : Announced cr set me (vertexActions cr calls) b
  votes : VotesSent cr set me seen (vertexActions cr calls) b
  certified : AllCertified need b
  own : OwnCounted b
  kept : Kept (recordingsIn cr calls) b
  risen : Risen need (recordingsIn cr calls) b

theorem busy_run (hapart : RoundsHashApart cr) (hlen : 4 ≤ set.entries.length)
    (hneed : quorumNeed set = .ok need) (hset : FixedSet set is)
    {seen : VertexProposal → Prop}
    (hcalls : ∀ call : NodeCall, call ∈ StateMachine.run cr cfg self is →
      OwnKey cr set self call.ctx.signBls ∧
        (∀ p, call.event = some (.vertexProposalReceived p) → seen p) ∧ call.Returns cr) :
    Busy cr set self need seen (StateMachine.run cr cfg self is)
      (StateMachine.reached cr cfg self is).vertices := by
  have hbig : set.entries.length < 2 ^ 32 := by
    by_contra hbig
    simp only [quorumNeed, toU32, if_neg hbig] at hneed
    cases hneed
  have htwo := two_le_need hlen hneed
  have hroom : ∀ {call : NodeCall}, call.Returns cr →
      (call.vertexOutcome cr).result ≠ .error .overflow := by
    rintro call ⟨acts, hacts⟩ herror
    cases hacts.symm.trans herror
  have hsent := book_returning cr (fun call => OwnKey cr set self call.ctx.signBls ∧
      ∀ p, call.event = some (.vertexProposalReceived p) → seen p)
    (fun acts b => Announced cr set self acts b ∧ VotesSent cr set self seen acts b)
    (fun call hg acts b sg new d hm h =>
      ⟨announced_move hg.1 hm h.1, votesSent_move hg.1 hg.2 hm h.2⟩) cfg self
    ⟨⟨ownBook_new cr self, by simp [VertexBook.new], by simp, by simp [VertexBook.new]⟩, rfl,
      by simp [VertexBook.new]⟩ is
    (fun call hcall => ⟨⟨(hcalls call hcall).1, (hcalls call hcall).2.1⟩, (hcalls call hcall).2.2⟩)
  have hcounted := book_run cr (fun call => (VertexShape cr set call (call.vertexOutcome cr) ∧
      OwnBook cr self call.pre.vertices) ∧ activeSet call.ctx = .ok set ∧ call.Returns cr)
    (fun hist b => (AllCertified need b ∧ OwnCounted b) ∧ Kept (recordingsIn cr hist) b ∧
      Risen need (recordingsIn cr hist) b) cfg self ?_ ?_ is ?_
  · exact ⟨hsent.1, hsent.2, hcounted.1.1, hcounted.1.2, hcounted.2.1, hcounted.2.2⟩
  · refine ⟨⟨?_, ?_⟩, ?_, ?_, ?_⟩
    · simp [AllCertified, VertexBook.new]
    · simp [OwnCounted, VertexBook.new]
    · simp [Kept, recordingsIn, lastFor, certsAt, VertexBook.new]
    · simp [VertexBook.new]
    · simp [VertexBook.new]
  · rintro hist call ⟨⟨hcertified, hown⟩, hkept, hrisen⟩ ⟨⟨hshape, hbook⟩, hserved, hret⟩
    have hrec : recordingsIn cr (hist ++ [call]) = recordingsIn cr hist ++ call.recordings cr := by
      rw [recordingsIn, List.flatMap_append, List.flatMap_singleton]
      rfl
    rw [hrec]
    refine ⟨⟨allCertified_call hserved hneed htwo hapart hcertified hbook hret, ?_⟩, ?_, ?_⟩
    · obtain ⟨acts, hpath, -⟩ := vertexOutcome_moves cr call
      exact hpath.keeps (fun _ _ _ _ hm hb => ownCounted_move hm hb) hown
    · exact kept_step hkept
        (record_of_shape hshape (fun hst => (hbook.idle hst).1) hbig (hroom hret))
    · exact risen_of_shape hshape hneed (fun hst => (hbook.idle hst).2.1) (hroom hret) hkept hrisen
  · intro call hcall
    exact ⟨shape_run hapart hlen hset hcall, fixedSet_call hset hcall, (hcalls call hcall).2.2⟩

end Run
end LuaDag
