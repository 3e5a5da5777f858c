import LuaDag.CertProduction
import Mathlib.Order.Interval.Finset.Nat

/-! What an L1 book can grow to. Under a fixed set all proposals seen, votes and own vertices
are of members and of rounds next to the current one, whatever is sent to the node. -/
namespace LuaDag
open VertexCert

/-- Everything on record is of a member and of a round from `low - 1` to one above the current
one; own vertices are of rounds up to the current one. -/
structure Within (set : ValidatorSet) (low : Round) (b : VertexBook) : Prop where
  seen : ∀ (k : Round ×ₗ ValidatorId) (ps : List VertexProposal), b.proposalsSeen[k]? = some ps →
    low ≤ (ofLex k).1 + 1 ∧ (ofLex k).1 ≤ b.currentRound + 1 ∧
      (ofLex k).2 ∈ set.entries.map (·.id) ∧ ps.length ≤ 1
  voted : ∀ k ∈ b.voted, low ≤ k.1 + 1 ∧ k.1 ≤ b.currentRound + 1 ∧
    k.2 ∈ set.entries.map (·.id)
  mine : ∀ (h : Hash32) (p : VertexProposal), b.myProposals[h]? = some p →
    p.vertex.author = b.selfId ∧ low ≤ p.vertex.round + 1 ∧ p.vertex.round ≤ b.currentRound
  collecting : ∀ (h : Hash32) (sigs : Std.TreeMap ValidatorId BlsSig),
    b.collecting[h]? = some sigs → (∃ p : VertexProposal, b.myProposals[h]? = some p) ∧
      ∀ (voter : ValidatorId) (sig : BlsSig), sigs[voter]? = some sig →
        voter ∈ set.entries.map (·.id)
  emitted : ∀ h ∈ b.emittedCerts, ∃ p : VertexProposal, b.myProposals[h]? = some p

/-- The same up to the bounds that hold while a call climbs: own rounds start at `low`, and no
own vertex of a later round is seen yet. -/
structure Climbing (set : ValidatorSet) (low : Round) (b : VertexBook) : Prop where
  within : Within set low b
  reached : low ≤ b.currentRound
  ahead : ∀ (r : Round) (ps : List VertexProposal),
    b.proposalsSeen[toLex (r, b.selfId)]? = some ps → b.started = true ∧ r ≤ b.currentRound

theorem mem_of_pkFor {cr : Crypto} {set : ValidatorSet} {id : ValidatorId} {pk : PublicKey}
    (h : pkFor cr set id = some pk) : id ∈ set.entries.map (·.id) := by
  obtain ⟨e, he, -⟩ := Option.bind_eq_some_iff.mp h
  have hid := List.find?_some he
  simp only [decide_eq_true_eq] at hid
  exact List.mem_map.mpr ⟨e, List.mem_of_find?_eq_some he, hid⟩

theorem verifyProposal_member {cr : Crypto} {set : ValidatorSet} {p : VertexProposal}
    (h : verifyProposal cr set p = true) : p.vertex.author ∈ set.entries.map (·.id) := by
  unfold verifyProposal at h
  split at h
  · cases h
  · rename_i pk hpk
    exact mem_of_pkFor hpk

section Moves
variable {cr : Crypto} {set : ValidatorSet} {low : Round}

theorem within_new (set : ValidatorSet) (self : ValidatorId) :
    Within set 0 (VertexBook.new self) := by
  refine ⟨?_, ?_, ?_, ?_, ?_⟩ <;> simp [VertexBook.new]

theorem prune_emitted {b : VertexBook} {x : Hash32} (h : x ∈ (prune b).emittedCerts) :
    ∃ p : VertexProposal, (prune b).myProposals[x]? = some p := by
  have hdef : (prune b).emittedCerts =
      b.emittedCerts.filter ((prune b).myProposals.contains ·) := rfl
  rw [hdef, Finset.mem_filter, Std.TreeMap.contains_eq_isSome_getElem?] at h
  exact Option.isSome_iff_exists.mp h.2

/-- A slot for a kept own vertex, with votes of members. -/
theorem Within.of_slot {b : VertexBook} (h : Within set low b) {x : Hash32} {p : VertexProposal}
    (hx : b.myProposals[x]? = some p) {sigs : Std.TreeMap ValidatorId BlsSig}
    (hsigs : ∀ (voter : ValidatorId) (sig : BlsSig), sigs[voter]? = some sig →
      voter ∈ set.entries.map (·.id)) :
    Within set low { b with collecting := b.collecting.insert x sigs } := by
  refine ⟨h.seen, h.voted, h.mine, ?_, h.emitted⟩
  intro y sigs' hy
  cases Maps.get_of_insert hy with
  | inl hnew =>
    obtain ⟨rfl, rfl⟩ := hnew
    exact ⟨⟨p, hx⟩, hsigs⟩
  | inr hold => exact h.collecting y sigs' hold

theorem Within.old {b : VertexBook} (h : Within set low b) {x : Hash32} (voter : ValidatorId)
    (sig : BlsSig) (hsig : (b.collecting[x]?.getD ∅)[voter]? = some sig) :
    voter ∈ set.entries.map (·.id) := by
  cases hc : b.collecting[x]? with
  | none => simp [hc] at hsig
  | some sigs =>
    simp only [hc, Option.getD_some] at hsig
    exact (h.collecting x sigs hc).2 voter sig hsig

/-- The proposal of the next round, or of round 0. -/
theorem Climbing.of_seeded {ctx : HostContext} {b : VertexBook} (h : Climbing set low b)
    (hst : b.started = true) (hself : b.selfId ∈ set.entries.map (·.id)) {round : Round}
    (hround : b.currentRound ≤ round)
    (hfresh : b.proposalsSeen[toLex (round, b.selfId)]? = none) (parents : List Hash32) :
    Climbing set low (seeded cr ctx b round parents) := by
  let p := ownProposal cr ctx b round parents
  have hlow : low ≤ round + 1 := h.reached.trans (Nat.le_succ_of_le hround)
  have hup : ∀ r : Round, r ≤ b.currentRound + 1 → r ≤ round + 1 :=
    fun r hr => hr.trans (Nat.succ_le_succ hround)
  have hseen : (seeded cr ctx b round parents).proposalsSeen =
      b.proposalsSeen.insert (toLex (round, b.selfId)) [p] := by
    simp [seeded, seedProposal, p, hfresh]
  have hmine : ∀ (x : Hash32) (q : VertexProposal), b.myProposals[x]? = some q →
      ∃ q' : VertexProposal, (seeded cr ctx b round parents).myProposals[x]? = some q' := by
    intro x q hx
    by_cases heq : p.vertex.hash = x
    · exact ⟨p, by simp [seeded, seedProposal, p, ← heq]⟩
    · exact ⟨q, by simpa [seeded, seedProposal, p, heq] using hx⟩
  refine ⟨⟨?_, ?_, ?_, ?_, ?_⟩, h.reached.trans hround, ?_⟩
  · intro k ps hk
    rw [hseen] at hk
    cases Maps.get_of_insert hk with
    | inl hnew =>
      obtain ⟨rfl, rfl⟩ := hnew
      exact ⟨hlow, Nat.le_succ round, hself, Nat.le_refl 1⟩
    | inr hold =>
      obtain ⟨hl, hu, ha, hlen⟩ := h.within.seen k ps hold
      exact ⟨hl, hup _ hu, ha, hlen⟩
  · intro k hk
    cases Finset.mem_insert.mp hk with
    | inl hnew =>
      rw [hnew]
      exact ⟨hlow, Nat.le_succ round, hself⟩
    | inr hold =>
      obtain ⟨hl, hu, ha⟩ := h.within.voted k hold
      exact ⟨hl, hup _ hu, ha⟩
  · intro x q hx
    cases Maps.get_of_insert hx with
    | inl hnew =>
      obtain ⟨rfl, rfl⟩ := hnew
      exact ⟨rfl, hlow, Nat.le_refl round⟩
    | inr hold =>
      obtain ⟨ha, hl, hu⟩ := h.within.mine x q hold
      exact ⟨ha, hl, hu.trans hround⟩
  · intro x sigs hx
    cases Maps.get_of_insert hx with
    | inl hnew =>
      obtain ⟨rfl, rfl⟩ := hnew
      refine ⟨⟨p, by simp [seeded, seedProposal, p]⟩, ?_⟩
      intro voter sig hsig
      cases Maps.get_of_insert hsig with
      | inl hown => exact hown.1 ▸ hself
      | inr hold => exact h.within.old voter sig hold
    | inr hold =>
      obtain ⟨⟨q, hq⟩, hvoters⟩ := h.within.collecting x sigs hold
      exact ⟨hmine x q hq, hvoters⟩
  · intro x hx
    obtain ⟨q, hq⟩ := h.within.emitted x hx
    exact hmine x q hq
  · intro r ps hk
    rw [hseen] at hk
    refine ⟨hst, ?_⟩
    cases Maps.get_of_insert hk with
    | inl hnew =>
      have hr : r = round := congrArg (fun k => (ofLex k).1) hnew.1
      exact Nat.le_of_eq hr
    | inr hold => exact (h.ahead r ps hold).2.trans hround

theorem Climbing.of_prune {b : VertexBook} (h : Climbing set low b) :
    Climbing set low (prune b) := by
  refine ⟨⟨?_, ?_, ?_, ?_, ?_⟩, h.reached, ?_⟩
  · exact fun k ps hk => h.within.seen k ps (Maps.get_of_filter hk)
  · exact fun k hk => h.within.voted k (Finset.mem_of_mem_filter k hk)
  · exact fun x p hx => h.within.mine x p (prune_mine.mp hx).1
  · intro x sigs hx
    obtain ⟨hold, hkept⟩ := prune_collecting.mp hx
    exact ⟨hkept, (h.within.collecting x sigs hold).2⟩
  · exact fun x hx => prune_emitted hx
  · exact fun r ps hk => h.ahead r ps (Maps.get_of_filter hk)

/-- Pruning lifts the lower bound to the current round. -/
theorem Within.lift {b : VertexBook} (h : Within set low (prune b)) :
    Within set b.currentRound (prune b) := by
  refine ⟨?_, ?_, ?_, h.collecting, h.emitted⟩
  · intro k ps hk
    obtain ⟨-, hu, ha, hlen⟩ := h.seen k ps hk
    have hkeep := (Maps.get_filter_iff.mp hk).2
    exact ⟨by simpa using hkeep, hu, ha, hlen⟩
  · intro k hk
    obtain ⟨-, hu, ha⟩ := h.voted k hk
    have hkeep := (Finset.mem_filter.mp hk).2
    exact ⟨by simpa using hkeep, hu, ha⟩
  · intro x p hx
    obtain ⟨ha, -, hu⟩ := h.mine x p hx
    exact ⟨ha, (prune_mine.mp hx).2, hu⟩

theorem climbing_move {me : ValidatorId} {call : NodeCall} {b d : VertexBook} {sg : List SignReq}
    {acts : List Action} (hset : activeSet call.ctx = .ok set)
    (hself : me ∈ set.entries.map (·.id)) (hm : BookMove cr call b sg acts d)
    (hown : OwnBook cr me b) (h : Climbing set low b) : Climbing set low d := by
  have hself' : b.selfId ∈ set.entries.map (·.id) := hown.selfId ▸ hself
  have hw := h.within
  cases hm with
  | see set' p hev hset' hok hnew =>
    cases hset.symm.trans hset'
    refine ⟨⟨?_, hw.voted, hw.mine, hw.collecting, hw.emitted⟩, h.reached, ?_⟩
    · intro k ps hk
      cases Maps.get_of_insert hk with
      | inl hseen =>
        obtain ⟨rfl, rfl⟩ := hseen
        exact ⟨h.reached.trans hok.window.1, hok.window.2, verifyProposal_member hok.signed,
          Nat.le_refl 1⟩
      | inr hold => exact hw.seen k ps hold
    · intro r ps hk
      cases Maps.get_of_insert hk with
      | inl hseen =>
        have hauthor : b.selfId = p.vertex.author := congrArg (fun k => (ofLex k).2) hseen.1
        exact absurd hauthor.symm hok.foreign
      | inr hold => exact h.ahead r ps hold
  | vote set' p hev hset' hok hpass hseen hnew =>
    cases hset.symm.trans hset'
    refine ⟨⟨hw.seen, ?_, hw.mine, hw.collecting, hw.emitted⟩, h.reached, h.ahead⟩
    intro k hk
    cases Finset.mem_insert.mp hk with
    | inl heq =>
      rw [heq]
      exact ⟨h.reached.trans hok.window.1, hok.window.2, verifyProposal_member hok.signed⟩
    | inr hold => exact hw.voted k hold
  | openSlot x p hmine => exact ⟨hw.of_slot hmine hw.old, h.reached, h.ahead⟩
  | collect set' bp p hev hset' hother hmine hnew hok =>
    cases hset.symm.trans hset'
    refine ⟨hw.of_slot hmine ?_, h.reached, h.ahead⟩
    intro voter sig hsig
    cases Maps.get_of_insert hsig with
    | inl hvote =>
      obtain ⟨pk, hpk, -⟩ := verifyPartial_vote hok
      exact hvote.1 ▸ mem_of_pkFor hpk
    | inr hold => exact hw.old voter sig hold
  | certify set' need x p sigs cv hset' hneed hnew hmine hsigs hquorum hcv hok =>
    refine ⟨⟨hw.seen, hw.voted, hw.mine, hw.collecting, ?_⟩, h.reached, h.ahead⟩
    intro y hy
    cases Finset.mem_insert.mp hy with
    | inl heq => exact ⟨p, heq.symm ▸ hmine⟩
    | inr hold => exact hw.emitted y hold
  | genesis hst =>
    have hstarted : Climbing set low { b with started := true } :=
      ⟨⟨hw.seen, hw.voted, hw.mine, hw.collecting, hw.emitted⟩, h.reached,
        fun r ps hk => ⟨rfl, (h.ahead r ps hk).2⟩⟩
    refine hstarted.of_seeded rfl hself' (Nat.le_of_eq (hown.idle hst).1) ?_ []
    cases hk : b.proposalsSeen[toLex ((0 : Round), b.selfId)]? with
    | none => rfl
    | some ps => exact absurd ((h.ahead 0 ps hk).1.symm.trans hst) (by decide)
  | propose set' need certs hst hset' hready =>
    refine h.of_seeded hst hself' (Nat.le_succ _) ?_ _
    cases hk : b.proposalsSeen[toLex (b.currentRound + 1, b.selfId)]? with
    | none => rfl
    | some ps => exact absurd (h.ahead _ ps hk).2 (Nat.not_succ_le_self _)
  | prune hst => exact h.of_prune
  | _ => exact ⟨⟨hw.seen, hw.voted, hw.mine, hw.collecting, hw.emitted⟩, h.reached, h.ahead⟩

end Moves

/- Whole runs. -/

/-- A call that does not run out of room stays in its round or ends with pruning. -/
theorem settled_of_shape {cr : Crypto} {set : ValidatorSet} {call : NodeCall}
    {o : Result VertexBook} (h : VertexShape cr set call o)
    (hidle : call.pre.vertices.started = false → call.pre.vertices.currentRound = 0)
    (hret : o.result ≠ .error .overflow) :
    o.state.currentRound = call.pre.vertices.currentRound ∨ ∃ d, o.state = prune d := by
  cases h with
  | still o h hrest => exact Or.inl h.same.round
  | boot o hev hst ho =>
    rw [hidle hst]
    obtain rfl | ⟨e, rfl⟩ := ho
    · exact Or.inl rfl
    · exact Or.inl rfl
  | climb need b first o hneed hfoot hfirst hclimb =>
    refine Or.inr ?_
    cases hclimb with
    | done k hq hend =>
      refine ⟨(ascend cr call.pre.cfg call.ctx need k b).state, ?_⟩
      rw [Outcome.andThen_of_ok rfl, Outcome.andThen_of_ok (ascend_result k b)]
      rfl
    | cut k hq =>
      rw [Outcome.andThen_of_ok rfl, Outcome.andThen_of_ok (ascend_result k b)] at hret
      exact absurd rfl hret
  | again id delay stalled retries hev again hagain => exact Or.inl rfl

structure InWindow (set : ValidatorSet) (b : VertexBook) : Prop where
  within : Within set b.currentRound b
  ahead : ∀ (r : Round) (ps : List VertexProposal),
    b.proposalsSeen[toLex (r, b.selfId)]? = some ps → b.started = true ∧ r ≤ b.currentRound

theorem inWindow_step {cr : Crypto} {set : ValidatorSet} {me : ValidatorId} {call : NodeCall}
    (hset : activeSet call.ctx = .ok set) (hself : me ∈ set.entries.map (·.id))
    (hshape : VertexShape cr set call (call.vertexOutcome cr))
    (hown : OwnBook cr me call.pre.vertices) (h : InWindow set call.pre.vertices)
    (hret : (call.vertexOutcome cr).result ≠ .error .overflow) :
    InWindow set (call.vertexOutcome cr).state := by
  have hpath : OwnBook cr me (call.vertexOutcome cr).state ∧
      Climbing set call.pre.vertices.currentRound (call.vertexOutcome cr).state := by
    obtain ⟨acts, hmoves, -⟩ := vertexOutcome_moves cr call
    exact hmoves.keeps (P := fun b => OwnBook cr me b ∧
      Climbing set call.pre.vertices.currentRound b)
      (fun _ _ _ _ hm hb => ⟨ownBook_move hm hb.1, climbing_move hset hself hm hb.1 hb.2⟩)
      ⟨hown, h.within, Nat.le_refl _, h.ahead⟩
  have hend := hpath.2
  refine ⟨?_, hend.ahead⟩
  cases settled_of_shape hshape (fun hst => (hown.idle hst).1) hret with
  | inl hsame =>
    rw [hsame]
    exact hend.within
  | inr hpruned =>
    obtain ⟨d, hd⟩ := hpruned
    rw [hd] at hend ⊢
    exact hend.within.lift

theorem room_of_all {cr : Crypto} {calls : List NodeCall}
    (h : calls.all (fun call => (NodeCall.vertexOutcome cr call).result.isOk) = true) :
    ∀ call ∈ calls, (NodeCall.vertexOutcome cr call).result ≠ .error .overflow := by
  intro call hcall herror
  have hok := List.all_eq_true.mp h call hcall
  rw [herror] at hok
  cases hok

section Sizes
variable {cr : Crypto} {set : ValidatorSet} {me : ValidatorId} {b : VertexBook}

def window (set : ValidatorSet) (c : Round) : Finset (Round × ValidatorId) :=
  Finset.Icc (c - 1) (c + 1) ×ˢ (set.entries.map (·.id)).toFinset

theorem window_card (set : ValidatorSet) (c : Round) :
    (window set c).card ≤ 3 * set.entries.length := by
  have hrounds : (Finset.Icc (c - 1) (c + 1)).card ≤ 3 := by
    rw [Nat.card_Icc]
    have harith : ∀ k : Nat, k + 1 + 1 - (k - 1) ≤ 3 := by omega
    exact harith c
  have hids : (set.entries.map (·.id)).toFinset.card ≤ set.entries.length :=
    (List.toFinset_card_le _).trans_eq (List.length_map _)
  rw [window, Finset.card_product]
  exact Nat.mul_le_mul hrounds hids

theorem mem_window {c r : Round} {id : ValidatorId} (hlow : c ≤ r + 1) (hhigh : r ≤ c + 1)
    (hid : id ∈ set.entries.map (·.id)) : (r, id) ∈ window set c := by
  rw [window, Finset.mem_product, Finset.mem_Icc, List.mem_toFinset]
  exact ⟨⟨Nat.sub_le_of_le_add hlow, hhigh⟩, hid⟩

theorem seen_size (h : Within set b.currentRound b) :
    b.proposalsSeen.size ≤ 3 * set.entries.length := by
  refine (Maps.size_le_card b.proposalsSeen (window set b.currentRound) ofLex ?_ ?_).trans
    (window_card set b.currentRound)
  · intro k ps hk
    obtain ⟨hl, hu, ha, -⟩ := h.seen k ps hk
    exact mem_window hl hu ha
  · exact fun k k' _ _ _ _ heq => ofLex.injective heq

theorem voted_card (h : Within set b.currentRound b) :
    b.voted.card ≤ 3 * set.entries.length := by
  refine (Finset.card_le_card ?_).trans (window_card set b.currentRound)
  intro k hk
  obtain ⟨hl, hu, ha⟩ := h.voted k hk
  exact mem_window hl hu ha

def ownRounds (c : Round) : Finset Round := Finset.Icc (c - 1) c

theorem ownRounds_card (c : Round) : (ownRounds c).card ≤ 2 := by
  rw [ownRounds, Nat.card_Icc]
  have harith : ∀ k : Nat, k + 1 - (k - 1) ≤ 2 := by omega
  exact harith c

def roundOf (b : VertexBook) (h : Hash32) : Round :=
  (b.myProposals[h]?.map (·.vertex.round)).getD 0

theorem roundOf_mem (h : Within set b.currentRound b) {x : Hash32}
    (hx : ∃ p : VertexProposal, b.myProposals[x]? = some p) :
    roundOf b x ∈ ownRounds b.currentRound := by
  obtain ⟨p, hp⟩ := hx
  obtain ⟨-, hl, hu⟩ := h.mine x p hp
  rw [roundOf, hp, ownRounds, Finset.mem_Icc]
  exact ⟨Nat.sub_le_of_le_add hl, hu⟩

theorem roundOf_injective (hown : OwnBook cr me b) {x y : Hash32}
    (hx : ∃ p : VertexProposal, b.myProposals[x]? = some p)
    (hy : ∃ p : VertexProposal, b.myProposals[y]? = some p) (heq : roundOf b x = roundOf b y) :
    x = y := by
  obtain ⟨p, hp⟩ := hx
  obtain ⟨q, hq⟩ := hy
  rw [roundOf, roundOf, hp, hq] at heq
  exact hown.single x y p q hp hq heq

theorem mine_size (h : Within set b.currentRound b) (hown : OwnBook cr me b) :
    b.myProposals.size ≤ 2 := by
  refine (Maps.size_le_card b.myProposals (ownRounds b.currentRound) (roundOf b) ?_ ?_).trans
    (ownRounds_card b.currentRound)
  · exact fun x p hx => roundOf_mem h ⟨p, hx⟩
  · exact fun x y p q hx hy heq => roundOf_injective hown ⟨p, hx⟩ ⟨q, hy⟩ heq

theorem collecting_size (h : Within set b.currentRound b) (hown : OwnBook cr me b) :
    b.collecting.size ≤ 2 := by
  refine (Maps.size_le_card b.collecting (ownRounds b.currentRound) (roundOf b) ?_ ?_).trans
    (ownRounds_card b.currentRound)
  · exact fun x sigs hx => roundOf_mem h (h.collecting x sigs hx).1
  · exact fun x y sigs sigs' hx hy heq =>
      roundOf_injective hown (h.collecting x sigs hx).1 (h.collecting y sigs' hy).1 heq

theorem votes_size (h : Within set b.currentRound b) {x : Hash32}
    {sigs : Std.TreeMap ValidatorId BlsSig} (hx : b.collecting[x]? = some sigs) :
    sigs.size ≤ set.entries.length := by
  refine (Maps.size_le_card sigs (set.entries.map (·.id)).toFinset id ?_ ?_).trans ?_
  · exact fun voter sig hsig => List.mem_toFinset.mpr ((h.collecting x sigs hx).2 voter sig hsig)
  · exact fun k k' _ _ _ _ heq => heq
  · exact (List.toFinset_card_le _).trans_eq (List.length_map _)

theorem emitted_card (h : Within set b.currentRound b) (hown : OwnBook cr me b) :
    b.emittedCerts.card ≤ 2 := by
  refine (Finset.card_le_card_of_injOn (roundOf b) ?_ ?_).trans (ownRounds_card b.currentRound)
  · exact fun x hx => roundOf_mem h (h.emitted x hx)
  · exact fun x hx y hy heq => roundOf_injective hown (h.emitted x hx) (h.emitted y hy) heq

end Sizes

/-- L1 memory bound. Under a fixed set of four or more members, the node among them, every call
that does not run out of room leaves a book whose entries are of members and of rounds next to
the current one, one proposal for each slot, with own vertices of the current round and the one
before; so the maps stay linear in the size of the set. -/
theorem vertex_memory_bound (cr : Crypto) (hapart : RoundsHashApart cr) (cfg : Config)
    (self : ValidatorId) (set : ValidatorSet) (hlen : 4 ≤ set.entries.length)
    (hself : self ∈ set.entries.map (·.id)) (is : List StateMachine.Input)
    (hset : FixedSet set is)
    (hret : ∀ call : NodeCall, call ∈ StateMachine.run cr cfg self is →
      (call.vertexOutcome cr).result ≠ .error .overflow) :
    let b := (StateMachine.reached cr cfg self is).vertices
    b.selfId = self ∧ Within set b.currentRound b ∧
      b.proposalsSeen.size ≤ 3 * set.entries.length ∧ b.voted.card ≤ 3 * set.entries.length ∧
      b.myProposals.size ≤ 2 ∧ b.collecting.size ≤ 2 ∧ b.emittedCerts.card ≤ 2 ∧
      ∀ (h : Hash32) (sigs : Std.TreeMap ValidatorId BlsSig), b.collecting[h]? = some sigs →
        sigs.size ≤ set.entries.length := by
  intro b
  have hown := ownBook_run cr cfg self is
  have hin := book_run cr (fun call => (VertexShape cr set call (call.vertexOutcome cr) ∧
    OwnBook cr self call.pre.vertices) ∧ activeSet call.ctx = .ok set ∧
    (call.vertexOutcome cr).result ≠ .error .overflow) (fun _ b => InWindow set b) cfg self
    ⟨within_new set self, by simp [VertexBook.new]⟩
    (by
      rintro hist call hin ⟨⟨hshape, hown⟩, hserved, hr⟩
      exact inWindow_step hserved hself hshape hown hin hr) is
    (fun call hcall => ⟨shape_run hapart hlen hset hcall, fixedSet_call hset hcall,
      hret call hcall⟩)
  have hw : Within set b.currentRound b := hin.within
  exact ⟨hown.selfId, hw, seen_size hw, voted_card hw, mine_size hw hown, collecting_size hw hown,
    emitted_card hw hown, fun h sigs hx => votes_size hw hx⟩

section Devnet
open Devnet

def spammedRun : List StateMachine.Input :=
  (.genesis, ports 3 0) :: script 3
    ([(0, .vertexProposalReceived ⟨(vertexAt 0 0).vertex, sigOf ⟨1⟩⟩),
      (0, .vertexProposalReceived ⟨(vertexAt 9 0).vertex, sigOf ⟨0⟩⟩)] ++
      [vertexAt 0 0, vertexAt 0 1, vertexAt 0 2].map fun cv => (0, .certifiedVertexReceived cv))

theorem vertex_memory_bound_devnet :
    let b := (StateMachine.reached openCrypto config ⟨3⟩ spammedRun).vertices
    b.currentRound = 1 ∧ b.proposalsSeen.size ≤ 12 ∧ b.myProposals.size ≤ 2 := by
  have hall : (StateMachine.run openCrypto config ⟨3⟩ spammedRun).all
      (fun call => (NodeCall.vertexOutcome openCrypto call).result.isOk) = true := by
    decide +kernel
  have hbound := vertex_memory_bound openCrypto (roundsHashApart _) config ⟨3⟩ validators
    (by decide) (by decide) spammedRun (fixedSet_script rfl 3 _) (room_of_all hall)
  exact ⟨by decide +kernel, hbound.2.2.1, hbound.2.2.2.2.1⟩

end Devnet
end LuaDag
