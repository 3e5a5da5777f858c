import LuaDag.Advancement
import LuaDag.VertexMoves

/-! How a node leaves rounds behind. The proposal of a new round carries the own vote only, so
where a quorum takes two votes `propose_round` never gets past it, and `maybe_advance` is a
plain climb: one proposal for every round in a row that holds a quorum, then pruning. -/
namespace LuaDag
open VertexCert

/-- Every call is served the same set. -/
def FixedSet (set : ValidatorSet) (is : List StateMachine.Input) : Prop :=
  ∀ i ∈ is, activeSet i.2 = .ok set

theorem FixedSet.of_append {set : ValidatorSet} {is js ks : List StateMachine.Input}
    {g i : StateMachine.Input} (h : FixedSet set (g :: is)) (his : is = js ++ i :: ks) :
    FixedSet set (g :: js) := by
  intro j hj
  apply h
  rw [his]
  cases List.mem_cons.mp hj with
  | inl heq => exact heq ▸ List.mem_cons_self
  | inr hmem => exact List.mem_cons_of_mem _ (List.mem_append_left _ hmem)

namespace VertexCert

def announce (cr : Crypto) (cfg : Config) (ctx : HostContext) (round : Round)
    (parents : List Hash32) (book : VertexBook) : Result VertexBook :=
  ⟨seeded cr ctx book round parents, ownRequests cr ctx book round parents,
    .ok (ownActions cr cfg ctx book round parents)⟩

def parentsAt (book : VertexBook) (need : Nat) (r : Round) : List Hash32 :=
  (book.certifiedByRound[r]?.getD ∅).values.take need

def ascend (cr : Crypto) (cfg : Config) (ctx : HostContext) (need : Nat) :
    Nat → VertexBook → Result VertexBook
  | 0, book => .quiet book
  | k + 1, book =>
    (announce cr cfg ctx (book.currentRound + 1) (parentsAt book need book.currentRound)
      book).andThen (ascend cr cfg ctx need k)

def Quorate (book : VertexBook) (need k : Nat) : Prop :=
  ∀ i < k, need ≤ book.certifiedCountAt (book.currentRound + i)

/-- The outcome of a climb from `book`: up to the first round without a quorum, or as far as
the room allows. -/
inductive Climbed (cr : Crypto) (cfg : Config) (ctx : HostContext) (need : Nat)
    (book : VertexBook) : Result VertexBook → Prop
  | done (k : Nat) (hq : Quorate book need k)
      (hend : book.certifiedCountAt (book.currentRound + k) < need) :
      Climbed cr cfg ctx need book
        ((ascend cr cfg ctx need k book).andThen fun b => .quiet (prune b))
  | cut (k : Nat) (hq : Quorate book need k) :
      Climbed cr cfg ctx need book
        ((ascend cr cfg ctx need k book).andThen fun b => .fail b .overflow)

section Ascend
variable {cr : Crypto} {cfg : Config} {ctx : HostContext} {need : Nat}

theorem ascend_succ (k : Nat) (book : VertexBook) :
    ascend cr cfg ctx need (k + 1) book =
      (announce cr cfg ctx (book.currentRound + 1) (parentsAt book need book.currentRound)
        book).andThen (ascend cr cfg ctx need k) := rfl

theorem ascend_result (k : Nat) (book : VertexBook) :
    (ascend cr cfg ctx need k book).result = .ok (ascend cr cfg ctx need k book).actions := by
  induction k generalizing book with
  | zero => rfl
  | succ k ih =>
    rw [ascend_succ, Outcome.andThen_of_ok rfl]
    simp only [Outcome.actions]
    rw [ih]
    rfl

theorem ascend_state (k : Nat) (book : VertexBook) :
    (ascend cr cfg ctx need (k + 1) book).state = (ascend cr cfg ctx need k (seeded cr ctx book
      (book.currentRound + 1) (parentsAt book need book.currentRound))).state := by
  rw [ascend_succ, Outcome.andThen_of_ok rfl]
  rfl

theorem ascend_signed (k : Nat) (book : VertexBook) :
    (ascend cr cfg ctx need (k + 1) book).signed =
      ownRequests cr ctx book (book.currentRound + 1) (parentsAt book need book.currentRound) ++
        (ascend cr cfg ctx need k (seeded cr ctx book (book.currentRound + 1)
          (parentsAt book need book.currentRound))).signed := by
  rw [ascend_succ, Outcome.andThen_of_ok rfl]
  rfl

theorem ascend_actions (k : Nat) (book : VertexBook) :
    (ascend cr cfg ctx need (k + 1) book).actions =
      ownActions cr cfg ctx book (book.currentRound + 1)
          (parentsAt book need book.currentRound) ++
        (ascend cr cfg ctx need k (seeded cr ctx book (book.currentRound + 1)
          (parentsAt book need book.currentRound))).actions := by
  rw [ascend_succ, Outcome.andThen_of_ok rfl]
  simp only [Outcome.actions]
  rw [ascend_result]
  rfl

/-- The certificates on record stay as they are. -/
theorem ascend_certified (k : Nat) (book : VertexBook) :
    (ascend cr cfg ctx need k book).state.certifiedByRound = book.certifiedByRound := by
  induction k generalizing book with
  | zero => rfl
  | succ k ih =>
    rw [ascend_state, ih]
    rfl

theorem ascend_round (k : Nat) (book : VertexBook) :
    (ascend cr cfg ctx need k book).state.currentRound = book.currentRound + k := by
  induction k generalizing book with
  | zero => rfl
  | succ k ih =>
    rw [ascend_state, ih]
    exact Nat.succ_add_eq_add_succ _ _

/-- What the two ends of a climb have in common. -/
theorem Climbed.ascent {book : VertexBook} {o : Result VertexBook}
    (h : Climbed cr cfg ctx need book o) :
    ∃ k, Quorate book need k ∧ o.signed = (ascend cr cfg ctx need k book).signed ∧
      (o.state = prune (ascend cr cfg ctx need k book).state ∨
        o.state = (ascend cr cfg ctx need k book).state) ∧
      ∀ a ∈ o.actions, a ∈ (ascend cr cfg ctx need k book).actions := by
  cases h with
  | done k hq hend =>
    rw [Outcome.andThen_of_ok (ascend_result k book)]
    exact ⟨k, hq, by simp, Or.inl rfl, by simp [Outcome.actions, Except.map]⟩
  | cut k hq =>
    rw [Outcome.andThen_of_ok (ascend_result k book)]
    exact ⟨k, hq, by simp, Or.inr rfl, by simp [Outcome.actions, Except.map]⟩

end Ascend

/- Own vertices on record. -/

/-- Own proposals are sealed, one for each round so far that is still kept, and no hash of a
later round is in use. -/
structure OwnBook (cr : Crypto) (me : ValidatorId) (b : VertexBook) : Prop where
  selfId : b.selfId = me
  idle : b.started = false →
    b.currentRound = 0 ∧ (∀ h : Hash32, b.myProposals[h]? = none) ∧ HashesBelow cr 0 b
  mine : ∀ (h : Hash32) (p : VertexProposal), b.myProposals[h]? = some p →
    p.vertex.hash = h ∧ contentHash cr p.vertex = h ∧ p.vertex.author = me ∧
      p.vertex.round ≤ b.currentRound
  single : ∀ (h h' : Hash32) (p p' : VertexProposal), b.myProposals[h]? = some p →
    b.myProposals[h']? = some p' → p.vertex.round = p'.vertex.round → h = h'
  current : b.started = true →
    ∃ (h : Hash32) (p : VertexProposal), b.myProposals[h]? = some p ∧
      p.vertex.round = b.currentRound
  below : HashesBelow cr (b.currentRound + 1) b

theorem OwnBook.of_self {cr : Crypto} {me : ValidatorId} {b : VertexBook} (h : OwnBook cr me b) :
    OwnBook cr b.selfId b := by
  rw [h.selfId]
  exact h

theorem ownBook_new (cr : Crypto) (self : ValidatorId) : OwnBook cr self (VertexBook.new self) := by
  refine ⟨rfl, fun _ => ⟨rfl, ?_, ?_⟩, ?_, ?_, ?_, ?_⟩ <;> simp [VertexBook.new, HashesBelow]

theorem OwnBook.of_seeded {cr : Crypto} {me : ValidatorId} {ctx : HostContext} {b : VertexBook}
    {round : Round} {parents : List Hash32} (h : OwnBook cr me b)
    (hround : round = b.currentRound + 1 ∨ round = 0 ∧ b.currentRound = 0 ∧
      ∀ h : Hash32, b.myProposals[h]? = none) :
    OwnBook cr me (seeded cr ctx { b with started := true } round parents) := by
  have hle : b.currentRound ≤ round := by
    have harith : ∀ c r : Nat, r = c + 1 ∨ r = 0 ∧ c = 0 → c ≤ r := by omega
    exact harith _ _ (hround.imp id fun h => ⟨h.1, h.2.1⟩)
  have hold : ∀ (x : Hash32) (p : VertexProposal), b.myProposals[x]? = some p →
      p.vertex.round ≠ round := by
    intro x p hx heq
    have hp := (h.mine x p hx).2.2.2
    cases hround with
    | inl hr =>
      rw [heq, hr] at hp
      exact absurd hp (Nat.not_succ_le_self _)
    | inr hr => simp [hr.2.2 x] at hx
  generalize hp : ownProposal cr ctx { b with started := true } round parents = p
  have hpr : p.vertex.round = round ∧ p.vertex.author = me ∧
      p.vertex.hash = contentHash cr p.vertex := by
    subst p
    exact ⟨rfl, h.selfId, rfl⟩
  have hmine : ∀ (x : Hash32) (q : VertexProposal),
      (b.myProposals.insert p.vertex.hash p)[x]? = some q →
      x = p.vertex.hash ∧ q = p ∨ b.myProposals[x]? = some q :=
    fun x q hx => Maps.get_of_insert hx
  unfold seeded
  rw [hp]
  refine ⟨h.selfId, fun hst => by simp [seedProposal] at hst, ?_, ?_, ?_, ?_⟩
  · intro x q hx
    cases hmine x q hx with
    | inl heq =>
      obtain ⟨rfl, rfl⟩ := heq
      exact ⟨rfl, hpr.2.2.symm, hpr.2.1, Nat.le_of_eq hpr.1⟩
    | inr hx =>
      obtain ⟨hh, hc, ha, hr⟩ := h.mine x q hx
      exact ⟨hh, hc, ha, hr.trans hle⟩
  · intro x x' q q' hx hx' hr
    cases hmine x q hx with
    | inl heq =>
      cases hmine x' q' hx' with
      | inl heq' => exact heq.1.trans heq'.1.symm
      | inr hx' => exact absurd ((heq.2 ▸ hr).symm.trans hpr.1) (hold x' q' hx')
    | inr hx =>
      cases hmine x' q' hx' with
      | inl heq' => exact absurd (hr.trans (heq'.2 ▸ hpr.1)) (hold x q hx)
      | inr hx' => exact h.single x x' q q' hx hx' hr
  · intro _
    exact ⟨p.vertex.hash, p, by simp [seedProposal], hpr.1⟩
  · intro x hin
    by_cases hx : p.vertex.hash = x
    · exact ⟨p.vertex, hpr.2.1.trans h.selfId.symm, hpr.1 ▸ Nat.lt_succ_self _, hpr.2.2 ▸ hx⟩
    have hin' : x ∈ b.emittedCerts ∨ b.collecting[x]? ≠ none := by
      simpa [seedProposal, Maps.get_insert, hx] using hin
    obtain ⟨v, ha, hv, hh⟩ := h.below x hin'
    exact ⟨v, ha, Nat.lt_of_lt_of_le hv (Nat.succ_le_succ hle), hh⟩

theorem OwnBook.next {cr : Crypto} {me : ValidatorId} {ctx : HostContext} {book : VertexBook}
    (h : OwnBook cr me book) (hst : book.started = true) (parents : List Hash32) :
    OwnBook cr me (seeded cr ctx book (book.currentRound + 1) parents) := by
  have heq : book = { book with started := true } := by
    cases book
    cases hst
    rfl
  have hseed := @OwnBook.of_seeded cr me ctx book _ parents h (Or.inl rfl)
  rwa [← heq] at hseed

/-- An own proposal that is still kept vouches for the use of its hash. -/
theorem OwnBook.slot {cr : Crypto} {me : ValidatorId} {b : VertexBook} (h : OwnBook cr me b)
    {x : Hash32} {p : VertexProposal} (hx : b.myProposals[x]? = some p) :
    ∃ v : Vertex, v.author = b.selfId ∧ v.round < b.currentRound + 1 ∧ contentHash cr v = x := by
  obtain ⟨-, hc, ha, hr⟩ := h.mine x p hx
  exact ⟨p.vertex, ha.trans h.selfId.symm, Nat.lt_succ_of_le hr, hc⟩

theorem OwnBook.of_collecting {cr : Crypto} {me : ValidatorId} {b : VertexBook}
    (h : OwnBook cr me b) {x : Hash32} {p : VertexProposal} (hx : b.myProposals[x]? = some p)
    (sigs : Std.TreeMap ValidatorId BlsSig) :
    OwnBook cr me { b with collecting := b.collecting.insert x sigs } := by
  refine ⟨h.selfId, ?_, h.mine, h.single, h.current, ?_⟩
  · intro hst
    exact absurd hx (by simp [(h.idle hst).2.1 x])
  intro y hin
  by_cases hxy : x = y
  · exact hxy ▸ h.slot hx
  · exact h.below y (by simpa [hxy] using hin)

theorem OwnBook.of_certified {cr : Crypto} {me : ValidatorId} {b : VertexBook}
    (h : OwnBook cr me b) {x : Hash32} {p : VertexProposal} (hx : b.myProposals[x]? = some p)
    (cv : CertifiedVertex) :
    OwnBook cr me (recordCert { b with emittedCerts := insert x b.emittedCerts } cv) := by
  refine ⟨h.selfId, ?_, h.mine, h.single, h.current, ?_⟩
  · intro hst
    exact absurd hx (by simp [(h.idle hst).2.1 x])
  intro y hin
  by_cases hxy : y = x
  · exact hxy.symm ▸ h.slot hx
  · exact h.below y (by simpa [recordCert, hxy] using hin)

/-- Own proposals that stay: those of the current round and the one before. -/
theorem prune_mine {b : VertexBook} {x : Hash32} {p : VertexProposal} :
    (prune b).myProposals[x]? = some p ↔
      b.myProposals[x]? = some p ∧ b.currentRound ≤ p.vertex.round + 1 := by
  rw [prune, Maps.get_filter_iff, decide_eq_true_eq, Nat.sub_le_iff_le_add]

theorem OwnBook.of_prune {cr : Crypto} {me : ValidatorId} {b : VertexBook} (h : OwnBook cr me b)
    (hst : b.started = true) : OwnBook cr me (prune b) := by
  have hmine : ∀ (x : Hash32) (p : VertexProposal), (prune b).myProposals[x]? = some p →
      b.myProposals[x]? = some p := fun x p hx => (prune_mine.mp hx).1
  refine ⟨h.selfId, ?_, fun x p hx => h.mine x p (hmine x p hx),
    fun x x' p p' hx hx' => h.single x x' p p' (hmine x p hx) (hmine x' p' hx'), ?_, ?_⟩
  · intro hidle
    exact absurd (hst.symm.trans hidle) (by decide)
  · intro _
    obtain ⟨x, p, hx, hr⟩ := h.current hst
    exact ⟨x, p, prune_mine.mpr ⟨hx, hr ▸ Nat.le_succ _⟩, hr⟩
  · intro x hin
    refine h.below x ?_
    cases hin with
    | inl hemitted => exact Or.inl (Finset.mem_of_mem_filter x hemitted)
    | inr hcoll =>
      refine Or.inr ?_
      intro hnone
      apply hcoll
      simp [prune, hnone]

theorem ownBook_move {cr : Crypto} {me : ValidatorId} {call : NodeCall} {b d : VertexBook}
    {sg : List SignReq} {acts : List Action} (hm : BookMove cr call b sg acts d)
    (h : OwnBook cr me b) : OwnBook cr me d := by
  cases hm with
  | openSlot x p hmine => exact h.of_collecting hmine _
  | collect set bp p hev hset hother hmine hnew hok => exact h.of_collecting hmine _
  | certify set need x p sigs cv hset hneed hnew hmine hsigs hquorum hcv hok =>
    exact h.of_certified hmine cv
  | genesis hst =>
    exact h.of_seeded (Or.inr ⟨rfl, (h.idle hst).1, (h.idle hst).2.1⟩)
  | propose set need certs hst hset hready =>
    have heq : b = { b with started := true } := by
      cases b
      cases hst
      rfl
    have hseed := @OwnBook.of_seeded cr me call.ctx b _ (certs.values.take need) h (Or.inl rfl)
    rw [← heq] at hseed
    exact hseed
  | prune hst => exact h.of_prune hst
  | _ => exact ⟨h.selfId, h.idle, h.mine, h.single, h.current, h.below⟩

theorem ownBook_run (cr : Crypto) (cfg : Config) (self : ValidatorId)
    (is : List StateMachine.Input) :
    OwnBook cr self (StateMachine.reached cr cfg self is).vertices :=
  book_invariant cr (fun _ => True) (OwnBook cr self)
    (fun _ _ _ _ _ _ hm h => ownBook_move hm h) cfg self (ownBook_new cr self) is
    (fun _ _ => trivial)

/- The climb. -/

theorem certifiedCountAt_eq (book : VertexBook) (r : Round) :
    book.certifiedCountAt r = (book.certifiedByRound[r]?.getD ∅).size := by
  unfold VertexBook.certifiedCountAt
  cases book.certifiedByRound[r]? with
  | none => simp
  | some certs => rfl

section Climb
variable {cr : Crypto} {cfg : Config} {ctx : HostContext} {set : ValidatorSet} {need : Nat}
  {me : ValidatorId} (hset : activeSet ctx = .ok set) (hneed : quorumNeed set = .ok need)
  (htwo : 2 ≤ need) (hapart : RoundsHashApart cr)
include hset hneed htwo hapart

theorem tryFinalizeWith_seeded {adv : VertexBook → Result VertexBook} {book : VertexBook}
    {round : Round} {parents : List Hash32} (hbelow : HashesBelow cr round book) :
    tryFinalizeWith cr ctx adv (ownVertex cr ctx book round parents).hash
      (seeded cr ctx book round parents) = .quiet (seeded cr ctx book round parents) := by
  have hfresh : book.collecting[(ownVertex cr ctx book round parents).hash]? = none := by
    by_contra hold
    obtain ⟨v, ha, hlt, hv⟩ := hbelow _ (Or.inr hold)
    have hround : v.round = round := hapart v (ownVertex cr ctx book round parents) ha hv
    exact absurd hround (Nat.ne_of_lt hlt)
  have hvotes : (seeded cr ctx book round parents).collecting[(ownVertex cr ctx book round
      parents).hash]? = some ((∅ : Std.TreeMap ValidatorId BlsSig).insert book.selfId
        (ctx.signBls .vertexCert (signingBytes (ownVertex cr ctx book round parents)))) := by
    simp [seeded, seedProposal, ownProposal, hfresh]
  have hsize : ((∅ : Std.TreeMap ValidatorId BlsSig).insert book.selfId (ctx.signBls .vertexCert
      (signingBytes (ownVertex cr ctx book round parents)))).size < need := by
    rw [← Std.TreeMap.length_toList, Maps.toList_singleton]
    exact htwo
  unfold tryFinalizeWith
  split
  · rfl
  split
  · rfl
  simp only [hset, hneed, hvotes, hsize, if_true]

omit hneed htwo hapart in
/-- Without a threshold the proposal is still made. -/
theorem proposeRoundWith_error {adv : VertexBook → Result VertexBook} {book : VertexBook}
    {round : Round} {parents : List Hash32} {e : Error} (herror : quorumNeed set = .error e)
    (hnew : (ownVertex cr ctx book round parents).hash ∉ book.emittedCerts) :
    proposeRoundWith cr cfg ctx adv round parents book =
      (announce cr cfg ctx round parents book).andThen fun b => .fail b e := by
  have hdef : proposeRoundWith cr cfg ctx adv round parents book =
      (announce cr cfg ctx round parents book).andThen
        (tryFinalizeWith cr ctx adv (ownVertex cr ctx book round parents).hash) := rfl
  have hmine : (seeded cr ctx book round parents).myProposals[(ownVertex cr ctx book round
      parents).hash]? = some (ownProposal cr ctx book round parents) := by
    simp [seeded, seedProposal, ownProposal]
  have hnew' : (ownVertex cr ctx book round parents).hash ∉
    (seeded cr ctx book round parents).emittedCerts := hnew
  rw [hdef]
  apply Outcome.andThen_congr
  change tryFinalizeWith cr ctx adv _ (seeded cr ctx book round parents) = _
  simp only [tryFinalizeWith, hnew', hmine, hset, herror, if_false]
  rfl

theorem proposeRoundWith_eq {adv : VertexBook → Result VertexBook} {book : VertexBook}
    {round : Round} {parents : List Hash32} (hbelow : HashesBelow cr round book) :
    proposeRoundWith cr cfg ctx adv round parents book =
      announce cr cfg ctx round parents book := by
  have htry := @tryFinalizeWith_seeded cr ctx set need hset hneed htwo hapart adv book round
    parents hbelow
  have hdef : proposeRoundWith cr cfg ctx adv round parents book =
      (announce cr cfg ctx round parents book).andThen
        (tryFinalizeWith cr ctx adv (ownVertex cr ctx book round parents).hash) := rfl
  rw [hdef]
  exact Outcome.andThen_of_quiet htry

theorem advanceLoop_succ {fuel : Nat} {book : VertexBook} (h : OwnBook cr me book) :
    advanceLoop cr cfg ctx (fuel + 1) need book =
      if book.certifiedCountAt book.currentRound < need then .quiet book
      else (announce cr cfg ctx (book.currentRound + 1)
        (parentsAt book need book.currentRound) book).andThen
          (advanceLoop cr cfg ctx fuel need) := by
  have hcount := certifiedCountAt_eq book book.currentRound
  conv_lhs => unfold advanceLoop
  unfold parentsAt
  split
  · rename_i hnone
    rw [if_pos]
    rw [hcount, hnone]
    simp only [Option.getD_none, Std.TreeMap.size_emptyc]
    omega
  rename_i certs hcerts
  rw [hcount, hcerts]
  simp only [Option.getD_some]
  split
  · rfl
  rw [proposeRoundWith_eq hset hneed htwo hapart h.below]

theorem advanceLoop_climb (fuel : Nat) {book : VertexBook} (h : OwnBook cr me book)
    (hst : book.started = true) :
    ∃ k, Quorate book need k ∧
      (advanceLoop cr cfg ctx fuel need book = ascend cr cfg ctx need k book ∧
          book.certifiedCountAt (book.currentRound + k) < need ∨
        advanceLoop cr cfg ctx fuel need book =
          (ascend cr cfg ctx need k book).andThen fun b => .fail b .overflow) := by
  induction fuel generalizing book with
  | zero => exact ⟨0, fun i hi => absurd hi (Nat.not_lt_zero i), Or.inr rfl⟩
  | succ fuel ih =>
    rw [advanceLoop_succ hset hneed htwo hapart h]
    by_cases hlow : book.certifiedCountAt book.currentRound < need
    · rw [if_pos hlow]
      exact ⟨0, fun i hi => absurd hi (Nat.not_lt_zero i), Or.inl ⟨rfl, hlow⟩⟩
    rw [if_neg hlow]
    obtain ⟨k, hq, hcase⟩ := ih (h.next hst (parentsAt book need book.currentRound)) hst
    have hshift : ∀ i, book.currentRound + (i + 1) = book.currentRound + 1 + i :=
      fun i => by rw [Nat.add_assoc, Nat.add_comm 1 i]
    refine ⟨k + 1, ?_, ?_⟩
    · intro i hi
      cases i with
      | zero => exact Nat.le_of_not_lt hlow
      | succ i =>
        rw [hshift i]
        exact hq i (Nat.lt_of_succ_lt_succ hi)
    · rw [hshift k, ascend_succ]
      cases hcase with
      | inl hdone =>
        exact Or.inl ⟨Outcome.andThen_congr hdone.1, hdone.2⟩
      | inr hcut =>
        refine Or.inr ?_
        rw [Outcome.andThen_assoc]
        exact Outcome.andThen_congr hcut

theorem maybeAdvance_climbed {book : VertexBook} (h : OwnBook cr me book)
    (hst : book.started = true) : Climbed cr cfg ctx need book (maybeAdvance cr cfg ctx book) := by
  have heq : maybeAdvance cr cfg ctx book =
      (advanceLoop cr cfg ctx ctx.fuel need book).andThen fun b => .quiet (prune b) := by
    simp [maybeAdvance, maybeAdvanceWith, hst, hset, hneed]
  obtain ⟨k, hq, hcase⟩ := @advanceLoop_climb cr cfg ctx set need me hset hneed htwo hapart
    ctx.fuel book h hst
  rw [heq]
  cases hcase with
  | inl hdone =>
    rw [hdone.1]
    exact .done k hq hdone.2
  | inr hcut =>
    rw [hcut, Outcome.andThen_assoc]
    exact .cut k hq

end Climb

/- The L1 outcome of a call. -/

/-- The books agree on the own proposals and on which of them are certified. -/
structure SameOwn (b d : VertexBook) : Prop where
  round : d.currentRound = b.currentRound
  started : d.started = b.started
  mine : d.myProposals = b.myProposals
  emitted : d.emittedCerts = b.emittedCerts

structure Still (b : VertexBook) (o : Result VertexBook) : Prop where
  same : SameOwn b o.state
  unsigned : ∀ r ∈ o.signed, r.1 ≠ .vertexProposal
  silent : ∀ p, Action.broadcastVertexProposal p ∉ o.actions
  uncertified : ∀ cv, Action.broadcastCertifiedVertex cv ∉ o.actions

theorem still_quiet {b d : VertexBook} (h : SameOwn b d) : Still b (.quiet d) :=
  ⟨h, by simp, by simp, by simp⟩

theorem still_fail {b d : VertexBook} {e : Error} (h : SameOwn b d) : Still b (.fail d e) :=
  ⟨h, by simp, by simp, by simp⟩

/-- The vote that completes the quorum of an own vertex without a certificate. -/
structure Completes (cr : Crypto) (set : ValidatorSet) (need : Nat) (b : VertexBook)
    (bp : VertexPartial) (p : VertexProposal) : Prop where
  addressed : bp.author = b.selfId ∧ bp.voter ≠ b.selfId
  mine : b.myProposals[bp.vertexHash]? = some p
  fresh : (b.collecting[bp.vertexHash]?.getD ∅)[bp.voter]? = none
  valid : verifyPartial cr set bp p.vertex = true
  pending : bp.vertexHash ∉ b.emittedCerts
  quorum : need ≤ ((b.collecting[bp.vertexHash]?.getD ∅).insert bp.voter bp.sig).size

end VertexCert

/-- The certificates on record once the call has brought its own: the one it delivers, or the
one its vote completes. -/
def NodeCall.recorded (call : NodeCall) :
    Std.TreeMap Round (Std.TreeMap ValidatorId Hash32) :=
  let book := call.pre.vertices
  let record (v : Vertex) := book.certifiedByRound.insert v.round
    ((book.certifiedByRound[v.round]?.getD ∅).insert v.author v.hash)
  match call.event with
  | some (.certifiedVertexReceived cv) => record cv.vertex
  | some (.vertexPartialReceived bp) =>
    match book.myProposals[bp.vertexHash]? with
    | some p => record p.vertex
    | none => book.certifiedByRound
  | _ => book.certifiedByRound

/-- The certificates on record after a call in which nothing is certified. A delivered one is
kept for good if the node is not bootstrapped or the set is too large for a quorum. -/
def Rested (set : ValidatorSet) (call : NodeCall) (d : VertexBook) : Prop :=
  (∀ cv, call.event ≠ some (.certifiedVertexReceived cv)) ∧
      d.certifiedByRound = call.pre.vertices.certifiedByRound ∨
    (∃ cv, call.event = some (.certifiedVertexReceived cv)) ∧
      d.certifiedByRound = call.recorded ∧
      (call.pre.vertices.started = false ∨ ∃ e, quorumNeed set = .error e)

/-- The certificate a climb starts with: one that is delivered, or one that the call's vote
completes and that is sent first. -/
inductive Arrives (cr : Crypto) (set : ValidatorSet) (call : NodeCall) (need : Nat)
    (b : VertexBook) : List Action → Prop
  | delivered (cv : CertifiedVertex) (hev : call.event = some (.certifiedVertexReceived cv))
      (hemitted : b.emittedCerts = call.pre.vertices.emittedCerts) :
      Arrives cr set call need b []
  | completed (bp : VertexPartial) (p : VertexProposal) (cv : CertifiedVertex)
      (hev : call.event = some (.vertexPartialReceived bp))
      (hvote : Completes cr set need call.pre.vertices bp p) (hvertex : cv.vertex = p.vertex)
      (hemitted : b.emittedCerts = insert bp.vertexHash call.pre.vertices.emittedCerts) :
      Arrives cr set call need b [.broadcastCertifiedVertex cv]

/-- The book in which a call starts to climb. -/
structure Footing (cr : Crypto) (call : NodeCall) (b : VertexBook) : Prop where
  own : OwnBook cr call.pre.vertices.selfId b
  started : b.started = true
  was : call.pre.vertices.started = true
  round : b.currentRound = call.pre.vertices.currentRound
  mine : b.myProposals = call.pre.vertices.myProposals
  certified : b.certifiedByRound = call.recorded

inductive VertexShape (cr : Crypto) (set : ValidatorSet) (call : NodeCall) :
    Result VertexBook → Prop
  | still (o : Result VertexBook) (h : Still call.pre.vertices o)
      (hrest : Rested set call o.state) : VertexShape cr set call o
  | boot (o : Result VertexBook) (hev : call.input.1 = .genesis)
      (hst : call.pre.vertices.started = false)
      (ho : o = announce cr call.pre.cfg call.ctx 0 [] { call.pre.vertices with started := true } ∨
        ∃ e, o = (announce cr call.pre.cfg call.ctx 0 []
          { call.pre.vertices with started := true }).andThen fun b => .fail b e) :
      VertexShape cr set call o
  | climb (need : Nat) (b : VertexBook) (first : List Action) (o : Result VertexBook)
      (hneed : quorumNeed set = .ok need) (hfoot : Footing cr call b)
      (hfirst : Arrives cr set call need b first)
      (hclimb : Climbed cr call.pre.cfg call.ctx need b o) :
      VertexShape cr set call ((Outcome.ok b first).andThen fun _ => o)
  | again (id : TimerId) (delay stalled retries : Nat) (hev : call.event = some (.timerFired id))
      (again : Option VertexProposal)
      (hagain : again = (call.pre.vertices.myProposals.toList.find?
        (·.2.vertex.round = call.pre.vertices.currentRound)).map (·.2)) :
      VertexShape cr set call (.ok { call.pre.vertices with
          roundsStalled := stalled
          timerRetries := retries
          timers := call.pre.vertices.timers.allocate.2
          roundTimer := some call.pre.vertices.timers.allocate.1 }
        ((again.map Action.broadcastVertexProposal).toList ++
          [.scheduleTimer call.pre.vertices.timers.allocate.1 delay]))

namespace VertexCert
section Shape
variable {cr : Crypto} {call : NodeCall} {set : ValidatorSet}

theorem shape_quiet {d : VertexBook} (hev : ∀ cv, call.event ≠ some (.certifiedVertexReceived cv))
    (h : SameOwn call.pre.vertices d)
    (hcert : d.certifiedByRound = call.pre.vertices.certifiedByRound) :
    VertexShape cr set call (.quiet d) :=
  .still _ (still_quiet h) (Or.inl ⟨hev, hcert⟩)

theorem shape_fail {d : VertexBook} {e : Error}
    (hev : ∀ cv, call.event ≠ some (.certifiedVertexReceived cv))
    (h : SameOwn call.pre.vertices d)
    (hcert : d.certifiedByRound = call.pre.vertices.certifiedByRound) :
    VertexShape cr set call (.fail d e) :=
  .still _ (still_fail h) (Or.inl ⟨hev, hcert⟩)

/-- What a proposal of somebody else leads to: marks on what is seen and voted, a vote, or
evidence. -/
structure Aside (b : VertexBook) (o : Result VertexBook) : Prop where
  state : ∃ seen voted rejected, o.state = { b with
    proposalsSeen := seen, voted := voted, rejectedCrypto := rejected }
  signed : ∀ r ∈ o.signed, r.1 = .vertexCert
  sent : ∀ a ∈ o.actions, (∃ bp, a = .broadcastVertexPartial bp) ∨
    ∃ offender evidence, a = .emitSlashEvidence offender evidence

theorem aside_quiet {b d : VertexBook} (h : ∃ seen voted rejected, d = { b with
    proposalsSeen := seen, voted := voted, rejectedCrypto := rejected }) : Aside b (.quiet d) :=
  ⟨h, by simp, by simp⟩

theorem vote_aside {p : VertexProposal} {ctx : HostContext} {book b : VertexBook}
    (h : ∃ seen voted rejected, b = { book with
      proposalsSeen := seen, voted := voted, rejectedCrypto := rejected }) :
    Aside book (vote b p ctx) := by
  unfold vote
  dsimp only
  split
  · exact aside_quiet h
  · obtain ⟨seen, voted, rejected, rfl⟩ := h
    exact ⟨⟨seen, _, rejected, rfl⟩, by simp, by simp [Outcome.actions]⟩

theorem checkParentsAndVote_aside {p : VertexProposal} {ctx : HostContext} {book b : VertexBook}
    (h : ∃ seen voted rejected, b = { book with
      proposalsSeen := seen, voted := voted, rejectedCrypto := rejected }) :
    Aside book (checkParentsAndVote set p ctx b) := by
  unfold checkParentsAndVote
  split
  · split
    · exact ⟨h, by simp, by simp⟩
    split
    · exact vote_aside h
    · exact aside_quiet h
  · split
    · exact vote_aside h
    · obtain ⟨seen, voted, rejected, rfl⟩ := h
      exact aside_quiet ⟨seen, voted, _, rfl⟩

theorem onVertexProposal_aside (p : VertexProposal) (ctx : HostContext) (book : VertexBook) :
    Aside book (onVertexProposal cr p ctx book) := by
  have hsame : ∃ seen voted rejected, book = { book with
      proposalsSeen := seen, voted := voted, rejectedCrypto := rejected } :=
    ⟨book.proposalsSeen, book.voted, book.rejectedCrypto, rfl⟩
  unfold onVertexProposal
  dsimp only
  split
  · exact ⟨hsame, by simp, by simp⟩
  split
  · exact aside_quiet ⟨book.proposalsSeen, book.voted, _, rfl⟩
  split
  · exact aside_quiet ⟨book.proposalsSeen, book.voted, _, rfl⟩
  split
  · exact aside_quiet hsame
  split
  · exact aside_quiet hsame
  split
  · split
    · exact ⟨hsame, by simp, by simp⟩
    · exact checkParentsAndVote_aside hsame
  · exact checkParentsAndVote_aside hsame
  · exact checkParentsAndVote_aside ⟨_, book.voted, book.rejectedCrypto, rfl⟩

theorem onVertexProposal_shape (p : VertexProposal)
    (hev : call.event = some (.vertexProposalReceived p)) :
    VertexShape cr set call (onVertexProposal cr p call.ctx call.pre.vertices) := by
  have haside := @onVertexProposal_aside cr p call.ctx call.pre.vertices
  obtain ⟨seen, voted, rejected, heq⟩ := haside.state
  refine .still _ ⟨?_, ?_, ?_, ?_⟩ (Or.inl ⟨?_, ?_⟩)
  · rw [heq]
    exact ⟨rfl, rfl, rfl, rfl⟩
  · intro r hr
    rw [haside.signed r hr]
    decide
  · intro q hq
    obtain ⟨bp, hbp⟩ | ⟨offender, evidence, hev⟩ := haside.sent _ hq
    · cases hbp
    · cases hev
  · intro cv hcv
    obtain ⟨bp, hbp⟩ | ⟨offender, evidence, hev⟩ := haside.sent _ hcv
    · cases hbp
    · cases hev
  · intro cv hcv
    cases hev.symm.trans hcv
  · rw [heq]

theorem quorumNeed_eq {need : Nat} (hneed : quorumNeed set = .ok need) :
    need = quorumThreshold set.entries.length := by
  unfold quorumNeed toU32 at hneed
  split at hneed
  · cases hneed
  rename_i n hn
  split at hn
  · cases hn
    cases hneed
    rfl
  · cases hn

theorem two_le_need (hlen : 4 ≤ set.entries.length) {need : Nat}
    (hneed : quorumNeed set = .ok need) : 2 ≤ need := by
  rw [quorumNeed_eq hneed, quorumThreshold]
  omega

section Fixed
variable (hset : activeSet call.ctx = .ok set) (hlen : 4 ≤ set.entries.length)
  (hapart : RoundsHashApart cr) (hown : OwnBook cr call.pre.vertices.selfId call.pre.vertices)
include hset hlen hapart hown

/-- The bootstrap proposes round 0 and stops there. -/
theorem genesisPropose_boot (hst : call.pre.vertices.started = false) :
    genesisPropose cr call.pre.cfg call.ctx call.pre.vertices =
        announce cr call.pre.cfg call.ctx 0 [] { call.pre.vertices with started := true } ∨
      ∃ e, quorumNeed set = .error e ∧ genesisPropose cr call.pre.cfg call.ctx call.pre.vertices =
        (announce cr call.pre.cfg call.ctx 0 []
          { call.pre.vertices with started := true }).andThen fun b => .fail b e := by
  unfold genesisPropose
  rw [if_neg (by simp [hst])]
  cases hneed : quorumNeed set with
  | ok need =>
    exact Or.inl (proposeRoundWith_eq hset hneed (two_le_need hlen hneed) hapart
      (hown.idle hst).2.2)
  | error e =>
    refine Or.inr ⟨e, rfl, proposeRoundWith_error hset hneed ?_⟩
    intro hin
    obtain ⟨v, -, hv, -⟩ := (hown.idle hst).2.2 _ (Or.inl hin)
    exact absurd hv (Nat.not_lt_zero _)

theorem genesisPropose_shape (hev : call.input.1 = .genesis) :
    VertexShape cr set call
      (genesisPropose cr call.pre.cfg call.ctx call.pre.vertices) := by
  cases hst : call.pre.vertices.started with
  | true =>
    unfold genesisPropose
    rw [if_pos hst]
    refine shape_quiet ?_ ⟨rfl, rfl, rfl, rfl⟩ rfl
    intro cv hcv
    simp [NodeCall.event, hev] at hcv
  | false =>
    refine .boot _ hev hst ?_
    cases genesisPropose_boot hset hlen hapart hown hst with
    | inl hok => exact Or.inl hok
    | inr herror =>
      obtain ⟨e, -, heq⟩ := herror
      exact Or.inr ⟨e, heq⟩

theorem onCertifiedVertex_shape (cv : CertifiedVertex)
    (hev : call.event = some (.certifiedVertexReceived cv)) :
    VertexShape cr set call
      (onCertifiedVertex cr call.pre.cfg call.ctx cv call.pre.vertices) := by
  have hrec : (recordCert call.pre.vertices cv).certifiedByRound = call.recorded := by
    simp only [NodeCall.recorded, hev]
    rfl
  cases hst : call.pre.vertices.started with
  | false =>
    have heq : onCertifiedVertex cr call.pre.cfg call.ctx cv call.pre.vertices =
        .quiet (recordCert call.pre.vertices cv) := by
      simp [onCertifiedVertex, maybeAdvance, maybeAdvanceWith, recordCert, hst]
    rw [heq]
    exact .still _ (still_quiet ⟨rfl, rfl, rfl, rfl⟩) (Or.inr ⟨⟨cv, hev⟩, hrec, Or.inl hst⟩)
  | true =>
    have hown' : OwnBook cr call.pre.vertices.selfId (recordCert call.pre.vertices cv) :=
      ⟨rfl, hown.idle, hown.mine, hown.single, hown.current, hown.below⟩
    cases hneed : quorumNeed set with
    | error e =>
      have heq : onCertifiedVertex cr call.pre.cfg call.ctx cv call.pre.vertices =
          .fail (recordCert call.pre.vertices cv) e := by
        simp [onCertifiedVertex, maybeAdvance, maybeAdvanceWith, recordCert, hst, hset, hneed]
      rw [heq]
      exact .still _ (still_fail ⟨rfl, rfl, rfl, rfl⟩)
        (Or.inr ⟨⟨cv, hev⟩, hrec, Or.inr ⟨e, hneed⟩⟩)
    | ok need =>
      have hclimb := @maybeAdvance_climbed cr call.pre.cfg call.ctx set need _ hset hneed
        (two_le_need hlen hneed) hapart (recordCert call.pre.vertices cv) hown' hst
      have hshape := VertexShape.climb need (recordCert call.pre.vertices cv) [] _ hneed
        ⟨hown', hst, hst, rfl, rfl, hrec⟩ (.delivered cv hev rfl) hclimb
      rwa [show (Outcome.ok (recordCert call.pre.vertices cv) [] : Result VertexBook) =
        .quiet (recordCert call.pre.vertices cv) from rfl, Outcome.quiet_andThen] at hshape

def counting (b : VertexBook) (h : Hash32) (sigs : Std.TreeMap ValidatorId BlsSig) :
    VertexBook :=
  { b with collecting := (b.collecting.insert h (b.collecting[h]?.getD ∅)).insert h sigs }

/-- The last vote certifies the vertex: it is marked, its certificate goes on record, and the
climb starts from there. -/
theorem completed_shape {bp : VertexPartial} {p : VertexProposal} {need : Nat}
    {cv : CertifiedVertex} {sigs : Std.TreeMap ValidatorId BlsSig}
    (hev : call.event = some (.vertexPartialReceived bp)) (hneed : quorumNeed set = .ok need)
    (hvote : Completes cr set need call.pre.vertices bp p) (hvertex : cv.vertex = p.vertex) :
    let counted := counting call.pre.vertices bp.vertexHash sigs
    let certified := recordCert
      { counted with emittedCerts := insert bp.vertexHash counted.emittedCerts } cv
    VertexShape cr set call ((Outcome.ok certified [.broadcastCertifiedVertex cv]).andThen
      (maybeAdvance cr call.pre.cfg call.ctx)) := by
  intro counted certified
  have hmine := hvote.mine
  have hst : call.pre.vertices.started = true := by
    by_contra hst
    simp only [Bool.not_eq_true] at hst
    exact absurd hmine (by simp [(hown.idle hst).2.1 bp.vertexHash])
  have hown' : OwnBook cr call.pre.vertices.selfId certified := by
    have hcounted := (hown.of_collecting hmine
      (call.pre.vertices.collecting[bp.vertexHash]?.getD ∅)).of_collecting hmine sigs
    exact hcounted.of_certified hmine cv
  have hrec : certified.certifiedByRound = call.recorded := by
    simp only [NodeCall.recorded, hev, hmine, ← hvertex]
    rfl
  have hclimb := @maybeAdvance_climbed cr call.pre.cfg call.ctx set need _ hset hneed
    (two_le_need hlen hneed) hapart certified hown' hst
  exact .climb need certified [.broadcastCertifiedVertex cv] _ hneed
    ⟨hown', hst, hst, rfl, rfl, hrec⟩ (.completed bp p cv hev hvote hvertex rfl) hclimb

theorem onVertexPartial_shape (bp : VertexPartial)
    (hev : call.event = some (.vertexPartialReceived bp)) :
    VertexShape cr set call
      (onVertexPartial cr call.pre.cfg call.ctx bp call.pre.vertices) := by
  have hno : ∀ cv, call.event ≠ some (.certifiedVertexReceived cv) := by
    intro cv hcv
    cases hev.symm.trans hcv
  unfold onVertexPartial
  split
  · exact shape_quiet hno ⟨rfl, rfl, rfl, rfl⟩ rfl
  rename_i hwho
  split
  · exact shape_quiet hno ⟨rfl, rfl, rfl, rfl⟩ rfl
  rename_i p hmine
  dsimp only
  split
  · split
    · exact shape_quiet hno ⟨rfl, rfl, rfl, rfl⟩ rfl
    · exact shape_quiet hno ⟨rfl, rfl, rfl, rfl⟩ rfl
  rename_i hfresh
  rw [hset]
  dsimp only
  split
  · exact shape_quiet hno ⟨rfl, rfl, rfl, rfl⟩ rfl
  rename_i hvalid
  generalize hsigs : (call.pre.vertices.collecting[bp.vertexHash]?.getD ∅).insert bp.voter bp.sig =
    sigs
  unfold tryFinalize tryFinalizeWith
  split
  · exact shape_quiet hno ⟨rfl, rfl, rfl, rfl⟩ rfl
  rename_i hpending
  rw [show (call.pre.vertices.myProposals[bp.vertexHash]?) = some p from hmine]
  dsimp only
  rw [hset]
  dsimp only
  split
  · exact shape_fail hno ⟨rfl, rfl, rfl, rfl⟩ rfl
  rename_i need hneed
  split
  · exact shape_quiet hno ⟨rfl, rfl, rfl, rfl⟩ rfl
  rename_i sigs' hsigs'
  split
  · exact shape_quiet hno ⟨rfl, rfl, rfl, rfl⟩ rfl
  rename_i hsize
  split
  · exact shape_fail hno ⟨rfl, rfl, rfl, rfl⟩ rfl
  rename_i cv hcv
  split
  · exact shape_fail hno ⟨rfl, rfl, rfl, rfl⟩ rfl
  have hvote : Completes cr set need call.pre.vertices bp p := by
    refine ⟨⟨by simpa using fun h => hwho (Or.inl h), fun h => hwho (Or.inr h)⟩, hmine, hfresh,
      by simpa using hvalid, hpending, ?_⟩
    have heq : sigs = sigs' := by simpa using hsigs'
    rw [hsigs, heq]
    exact Nat.le_of_not_lt hsize
  exact completed_shape hset hlen hapart hown hev hneed hvote (assembleCert_vertex hcv)

omit hlen hapart hown in
theorem onTimerFired_shape (id : TimerId) (hev : call.event = some (.timerFired id)) :
    VertexShape cr set call
      (onTimerFired call.pre.cfg call.ctx id call.pre.vertices) := by
  have hno : ∀ cv, call.event ≠ some (.certifiedVertexReceived cv) := by
    intro cv hcv
    cases hev.symm.trans hcv
  unfold onTimerFired
  split
  · exact shape_quiet hno ⟨rfl, rfl, rfl, rfl⟩ rfl
  rw [hset]
  dsimp only
  split
  · exact shape_fail hno ⟨rfl, rfl, rfl, rfl⟩ rfl
  split
  · exact shape_quiet hno ⟨rfl, rfl, rfl, rfl⟩ rfl
  have hagain := @VertexShape.again cr set call id
    (roundDelayNanos call.pre.cfg (min (call.pre.vertices.timerRetries + 1) 8))
    (call.pre.vertices.roundsStalled + 1) (min (call.pre.vertices.timerRetries + 1) 8) hev _ rfl
  rwa [Option.map_map] at hagain

/-- The shape of a call under a fixed set of four or more. -/
theorem vertexOutcome_shape : VertexShape cr set call (call.vertexOutcome cr) := by
  obtain ⟨sm, req, ctx⟩ := call
  cases req with
  | genesis => exact genesisPropose_shape hset hlen hapart hown rfl
  | event e =>
    cases e with
    | certifiedVertexReceived cv => exact onCertifiedVertex_shape hset hlen hapart hown cv rfl
    | vertexProposalReceived p => exact onVertexProposal_shape p rfl
    | vertexPartialReceived bp => exact onVertexPartial_shape hset hlen hapart hown bp rfl
    | timerFired id =>
      simp only [NodeCall.vertexOutcome]
      split
      · exact shape_quiet (by simp [NodeCall.event]) ⟨rfl, rfl, rfl, rfl⟩ rfl
      · exact onTimerFired_shape hset id rfl
    | _ => exact shape_quiet (by simp [NodeCall.event]) ⟨rfl, rfl, rfl, rfl⟩ rfl

end Fixed
end Shape
end VertexCert
end LuaDag
