import LuaDag.RoundTimer
import Mathlib.Data.List.Perm.Subperm

/-! Certificates of own vertices: a quorum of collected votes always assembles to a certificate
that verifies, each own vertex is certified once, and no L1 handler fails on the way. -/
namespace LuaDag
open VertexCert

/- Votes by position. -/

def VoteOn (cr : Crypto) (set : ValidatorSet) (v : Vertex) (voter : ValidatorId) (sig : BlsSig) :
    Prop :=
  ∃ pk, pkFor cr set voter = some pk ∧ cr.verify pk .vertexCert (signingBytes v) sig = true

theorem verifyPartial_vote {cr : Crypto} {set : ValidatorSet} {bp : VertexPartial} {v : Vertex}
    (h : verifyPartial cr set bp v = true) : VoteOn cr set v bp.voter bp.sig := by
  unfold verifyPartial at h
  split at h
  · cases h
  split at h
  · cases h
  · rename_i pk hpk
    exact ⟨pk, hpk, h⟩

def keyAt (cr : Crypto) (set : ValidatorSet) (i : Nat) : Option PublicKey :=
  set.entries[i]?.bind fun e => cr.pkFromBytes e.blsPubkey

section Votes
variable {cr : Crypto} {set : ValidatorSet}

theorem pkFor_eq (id : ValidatorId) : pkFor cr set id = (indexOf set id).bind (keyAt cr set) := by
  have hbind : entryFor set id = (indexOf set id).bind (set.entries[·]?) :=
    List.find?_eq_bind_findIdx?_getElem?
  rw [pkFor, hbind]
  cases indexOf set id <;> rfl

theorem indexOf_injective {id id' : ValidatorId} {i : Nat} (h : indexOf set id = some i)
    (h' : indexOf set id' = some i) : id = id' := by
  obtain ⟨hlt, hid, -⟩ := List.findIdx?_eq_some_iff_getElem.mp h
  obtain ⟨hlt', hid', -⟩ := List.findIdx?_eq_some_iff_getElem.mp h'
  simp only [decide_eq_true_eq] at hid hid'
  exact hid.symm.trans hid'

theorem certKeys_eq {L : List Nat} {key : Nat → PublicKey}
    (h : ∀ i ∈ L, keyAt cr set i = some (key i)) : certKeys cr set L = .ok (L.map key) := by
  induction L with
  | nil => rfl
  | cons i L ih =>
    have hi := h i List.mem_cons_self
    obtain ⟨e, he, hkey⟩ := Option.bind_eq_some_iff.mp hi
    simp only [certKeys, he, hkey, ih fun j hj => h j (List.mem_cons_of_mem _ hj), List.map_cons]
    rfl

theorem contributors_eq {sigs : Std.TreeMap ValidatorId BlsSig} {position : ValidatorId → Nat}
    (h : ∀ (voter : ValidatorId) (sig : BlsSig), sigs[voter]? = some sig →
      indexOf set voter = some (position voter)) :
    contributors set sigs = sigs.toList.map fun e => (position e.1, e.2) := by
  unfold contributors
  rw [← List.filterMap_eq_map]
  apply List.filterMap_congr
  intro e he
  simp [h e.1 e.2 ((Maps.mem_toList sigs e.1 e.2).mp he)]

theorem positions_nodup {sigs : Std.TreeMap ValidatorId BlsSig} {position : ValidatorId → Nat}
    (h : ∀ (voter : ValidatorId) (sig : BlsSig), sigs[voter]? = some sig →
      indexOf set voter = some (position voter)) :
    (sigs.toList.map fun e => position e.1).Nodup := by
  rw [List.Nodup, List.pairwise_map]
  refine (Maps.keys_lt sigs).imp_of_mem ?_
  intro a b ha hb hlt heq
  have hia := h a.1 a.2 ((Maps.mem_toList sigs a.1 a.2).mp ha)
  have hib := h b.1 b.2 ((Maps.mem_toList sigs b.1 b.2).mp hb)
  rw [← heq] at hib
  exact absurd (indexOf_injective hia hib) (ne_of_lt hlt)

theorem toU32_of_lt {n : Nat} (h : n < 2 ^ 32) : toU32 n = some n := by
  unfold toU32
  rw [if_pos h]

theorem assembleCert_ok {v : Vertex} {votes : List (Nat × BlsSig)} {agg : BlsSig}
    (hbig : set.entries.length < 2 ^ 32) (hlong : votes.length < 2 ^ 32)
    (hquorum : quorumThreshold set.entries.length ≤ votes.length)
    (hidx : ∀ vote ∈ votes, vote.1 < set.entries.length)
    (hagg : cr.aggregateSigs (votes.map (·.2)) = some agg) :
    assembleCert cr v set votes = .ok ⟨v, ⟨agg,
      Bitmap.setAll (Bitmap.zeros set.entries.length) (votes.map (·.1))⟩⟩ := by
  have hfind : (votes.find? fun c => set.entries.length ≤ c.1) = none := by
    rw [List.find?_eq_none]
    intro c hc
    simpa using hidx c hc
  simp only [assembleCert, toU32_of_lt hbig, toU32_of_lt hlong, Option.getD_some,
    if_neg (Nat.not_lt_of_le hquorum), hfind, hagg]

theorem verifyCertifiedVertex_ok {cv : CertifiedVertex} {bits : List Nat} {pks : List PublicKey}
    (hbig : set.entries.length < 2 ^ 32) (hhash : cv.vertex.hash = contentHash cr cv.vertex)
    (hbits : bitmapIndices cv.certificate.bitmap set.entries.length = .ok bits)
    (hlen : bits.length ≤ set.entries.length)
    (hquorum : quorumThreshold set.entries.length ≤ bits.length)
    (hkeys : certKeys cr set bits = .ok pks)
    (hver : cr.verifyAggregate pks .vertexCert (signingBytes cv.vertex) cv.certificate.sig = true) :
    verifyCertifiedVertex cr cv set = .ok () := by
  simp only [verifyCertifiedVertex, hhash, ne_eq, not_true_eq_false, if_false, toU32_of_lt hbig,
    hbits, toU32_of_lt (Nat.lt_of_le_of_lt hlen hbig), Option.getD_some,
    if_neg (Nat.not_lt_of_le hquorum), hkeys, hver, if_true]

theorem bitmapIndices_setAll {n : Nat} {idxs : List Nat} (h : ∀ i ∈ idxs, i < n) :
    bitmapIndices (Bitmap.setAll (Bitmap.zeros n) idxs) n =
      .ok ((List.range n).filter fun i => decide (i ∈ idxs)) := by
  have htest : Bitmap.test (Bitmap.setAll (Bitmap.zeros n) idxs) = fun i => decide (i ∈ idxs) := by
    funext i
    exact Bitmap.test_setAll_zeros n i idxs h
  simp [bitmapIndices, htest]

/-- A valid vote under the key of its position. -/
def VoteAt (cr : Crypto) (set : ValidatorSet) (v : Vertex) (vote : Nat × BlsSig) : Prop :=
  ∃ pk, keyAt cr set vote.1 = some pk ∧ cr.verify pk .vertexCert (signingBytes v) vote.2 = true

theorem keyAt_lt {i : Nat} {pk : PublicKey} (h : keyAt cr set i = some pk) :
    i < set.entries.length := by
  obtain ⟨e, he, -⟩ := Option.bind_eq_some_iff.mp h
  exact (List.getElem?_eq_some_iff.mp he).1

/-- A quorum of valid votes from distinct positions makes a certificate that verifies. -/
theorem certificate_of_distinct (hany : AggregatesAnyOrder cr)
    (hbig : set.entries.length < 2 ^ 32) {v : Vertex} (hhash : v.hash = contentHash cr v)
    {votes : List (Nat × BlsSig)} (hvotes : ∀ vote ∈ votes, VoteAt cr set v vote)
    (hnodup : (votes.map (·.1)).Nodup)
    (hquorum : quorumThreshold set.entries.length ≤ votes.length) :
    ∃ cv, assembleCert cr v set votes = .ok cv ∧ verifyCertifiedVertex cr cv set = .ok () := by
  let key : Nat → PublicKey := fun i => (keyAt cr set i).getD ⟨0⟩
  have hkey : ∀ vote ∈ votes, keyAt cr set vote.1 = some (key vote.1) ∧
      cr.verify (key vote.1) .vertexCert (signingBytes v) vote.2 = true := by
    intro vote hvote
    obtain ⟨pk, hpk, hver⟩ := hvotes vote hvote
    have heq : key vote.1 = pk := by simp [key, hpk]
    rw [heq]
    exact ⟨hpk, hver⟩
  have hidx : ∀ i ∈ votes.map (·.1), i < set.entries.length ∧ keyAt cr set i = some (key i) := by
    intro i hi
    obtain ⟨vote, hvote, rfl⟩ := List.mem_map.mp hi
    exact ⟨keyAt_lt (hkey vote hvote).1, (hkey vote hvote).1⟩
  have hlen : votes.length ≤ set.entries.length := by
    have hsub : votes.map (·.1) ⊆ List.range set.entries.length :=
      fun i hi => List.mem_range.mpr (hidx i hi).1
    rw [← List.length_map (·.1)]
    exact (hnodup.subperm hsub).length_le.trans_eq List.length_range
  have hne : votes ≠ [] := by
    intro hnil
    rw [hnil] at hquorum
    exact absurd hquorum (Nat.not_succ_le_zero _)
  -- the bitmap lists the same positions, in order
  let bits := (List.range set.entries.length).filter fun i => decide (i ∈ votes.map (·.1))
  have hbits : bits.Perm (votes.map (·.1)) := by
    refine (List.perm_ext_iff_of_nodup (List.nodup_range.filter _) hnodup).mpr ?_
    intro i
    rw [List.mem_filter, List.mem_range, decide_eq_true_eq]
    exact ⟨fun hi => hi.2, fun hi => ⟨(hidx i hi).1, hi⟩⟩
  have hcount : bits.length = votes.length := by
    rw [hbits.length_eq, List.length_map]
  obtain ⟨agg, hagg, hver⟩ := hany (votes.map fun vote => (key vote.1, vote.2))
    (bits.map key) .vertexCert (signingBytes v) (by simpa using hne)
    (by
      intro w hw
      obtain ⟨vote, hvote, rfl⟩ := List.mem_map.mp hw
      exact (hkey vote hvote).2)
    (by simpa [Function.comp_def] using hbits.map key)
  have hkeys : certKeys cr set bits = .ok (bits.map key) :=
    certKeys_eq fun i hi => (hidx i (hbits.mem_iff.mp hi)).2
  refine ⟨⟨v, ⟨agg, Bitmap.setAll (Bitmap.zeros set.entries.length) (votes.map (·.1))⟩⟩,
    assembleCert_ok hbig (Nat.lt_of_le_of_lt hlen hbig) hquorum ?_ ?_, ?_⟩
  · exact fun vote hvote => (hidx vote.1 (List.mem_map_of_mem hvote)).1
  · simpa [Function.comp_def] using hagg
  · exact verifyCertifiedVertex_ok hbig hhash (bitmapIndices_setAll fun i hi => (hidx i hi).1)
      (hcount ▸ hlen) (hcount ▸ hquorum) hkeys hver

/-- A quorum of valid votes on a sealed vertex makes a certificate that verifies. -/
theorem certificate_of_votes (hany : AggregatesAnyOrder cr) (hbig : set.entries.length < 2 ^ 32)
    {v : Vertex} (hhash : v.hash = contentHash cr v) {sigs : Std.TreeMap ValidatorId BlsSig}
    (hvotes : ∀ (voter : ValidatorId) (sig : BlsSig), sigs[voter]? = some sig →
      VoteOn cr set v voter sig)
    (hquorum : quorumThreshold set.entries.length ≤ sigs.size) :
    ∃ cv, assembleCert cr v set (contributors set sigs) = .ok cv ∧
      verifyCertifiedVertex cr cv set = .ok () := by
  let position : ValidatorId → Nat := fun voter => (indexOf set voter).getD 0
  have hpos : ∀ (voter : ValidatorId) (sig : BlsSig), sigs[voter]? = some sig →
      indexOf set voter = some (position voter) ∧ VoteAt cr set v (position voter, sig) := by
    intro voter sig hsig
    obtain ⟨pk, hpk, hver⟩ := hvotes voter sig hsig
    rw [pkFor_eq] at hpk
    obtain ⟨i, hi, hk⟩ := Option.bind_eq_some_iff.mp hpk
    have hp : position voter = i := by simp [position, hi]
    rw [hp]
    exact ⟨hi, pk, hk, hver⟩
  have hnodup := positions_nodup fun voter sig h => (hpos voter sig h).1
  rw [contributors_eq fun voter sig h => (hpos voter sig h).1]
  refine certificate_of_distinct hany hbig hhash ?_ ?_ ?_
  · intro vote hvote
    obtain ⟨e, he, rfl⟩ := List.mem_map.mp hvote
    exact (hpos e.1 e.2 ((Maps.mem_toList sigs e.1 e.2).mp he)).2
  · simpa [Function.comp_def] using hnodup
  · simpa [Std.TreeMap.length_toList] using hquorum

end Votes

/- What a run collects. -/

/-- Votes are collected for the kept own vertices, and all of them are valid. -/
structure Collected (cr : Crypto) (set : ValidatorSet) (b : VertexBook) : Prop where
  keys : ∀ h : Hash32, b.collecting[h]? = none ↔ b.myProposals[h]? = none
  votes : ∀ (h : Hash32) (p : VertexProposal) (sigs : Std.TreeMap ValidatorId BlsSig)
    (voter : ValidatorId) (sig : BlsSig), b.myProposals[h]? = some p →
    b.collecting[h]? = some sigs → sigs[voter]? = some sig → VoteOn cr set p.vertex voter sig

def KeyedPorts (cr : Crypto) (set : ValidatorSet) (self : ValidatorId) (call : NodeCall) : Prop :=
  activeSet call.ctx = .ok set ∧ HoldsKey cr set self call.ctx.signBls

section Collect
variable {cr : Crypto} {set : ValidatorSet} {me : ValidatorId}

theorem Collected.of_slot {b : VertexBook} (h : Collected cr set b) {x : Hash32}
    {p : VertexProposal} (hx : b.myProposals[x]? = some p)
    {sigs : Std.TreeMap ValidatorId BlsSig}
    (hsigs : ∀ (voter : ValidatorId) (sig : BlsSig), sigs[voter]? = some sig →
      VoteOn cr set p.vertex voter sig) :
    Collected cr set { b with collecting := b.collecting.insert x sigs } := by
  refine ⟨?_, ?_⟩
  · intro y
    by_cases hxy : x = y
    · subst hxy
      simp [hx]
    · simpa [hxy] using h.keys y
  · intro y q sigs' voter sig hy hcoll hsig
    cases Maps.get_of_insert hcoll with
    | inl heq =>
      obtain ⟨rfl, rfl⟩ := heq
      cases hx.symm.trans hy
      exact hsigs voter sig hsig
    | inr hold => exact h.votes y q sigs' voter sig hy hold hsig

theorem Collected.old {b : VertexBook} (h : Collected cr set b) {x : Hash32} {p : VertexProposal}
    (hx : b.myProposals[x]? = some p) (voter : ValidatorId) (sig : BlsSig)
    (hsig : (b.collecting[x]?.getD ∅)[voter]? = some sig) : VoteOn cr set p.vertex voter sig := by
  cases hc : b.collecting[x]? with
  | none => simp [hc] at hsig
  | some sigs =>
    simp only [hc, Option.getD_some] at hsig
    exact h.votes x p sigs voter sig hx hc hsig

theorem Collected.of_seeded {ctx : HostContext} {b : VertexBook} (h : Collected cr set b)
    (hapart : RoundsHashApart cr) (hkey : HoldsKey cr set b.selfId ctx.signBls) {round : Round}
    (hbelow : HashesBelow cr round b) (parents : List Hash32) :
    Collected cr set (seeded cr ctx b round parents) := by
  let v := ownVertex cr ctx b round parents
  have hfresh : b.collecting[v.hash]? = none := by
    by_contra hold
    obtain ⟨w, ha, hlt, hw⟩ := hbelow _ (Or.inr hold)
    have hround : w.round = round := hapart w v ha hw
    exact absurd hround (Nat.ne_of_lt hlt)
  refine ⟨?_, ?_⟩
  · intro y
    by_cases hy : v.hash = y
    · simp [seeded, seedProposal, ownProposal, v, ← hy]
    · have hold := h.keys y
      simpa [seeded, seedProposal, ownProposal, v, hy] using hold
  · intro y q sigs voter sig hy hcoll hsig
    cases Maps.get_of_insert hy with
    | inl hnew =>
      obtain ⟨rfl, rfl⟩ := hnew
      have hsigs : sigs = (∅ : Std.TreeMap ValidatorId BlsSig).insert b.selfId
          (ctx.signBls .vertexCert (signingBytes v)) := by
        have hslot : some sigs = some ((b.collecting[v.hash]?.getD ∅).insert b.selfId
            (ctx.signBls .vertexCert (signingBytes v))) := by
          rw [← hcoll]
          simp [seeded, seedProposal, ownProposal, v]
        rw [hfresh] at hslot
        exact Option.some.inj hslot
      rw [hsigs] at hsig
      cases Maps.get_of_insert hsig with
      | inl hown =>
        obtain ⟨rfl, rfl⟩ := hown
        obtain ⟨pk, hpk, hver⟩ := hkey
        exact ⟨pk, hpk, hver _⟩
      | inr hnone => simp at hnone
    | inr hold =>
      have hne : v.hash ≠ y := by
        intro heq
        have hnone := (h.keys y).mp (heq ▸ hfresh)
        exact absurd (hnone.symm.trans hold) (by simp)
      have hcoll' : b.collecting[y]? = some sigs := by
        simpa [seeded, seedProposal, ownProposal, v, hne] using hcoll
      exact h.votes y q sigs voter sig hold hcoll' hsig

theorem prune_collecting {b : VertexBook} {x : Hash32}
    {sigs : Std.TreeMap ValidatorId BlsSig} :
    (prune b).collecting[x]? = some sigs ↔
      b.collecting[x]? = some sigs ∧ ∃ p : VertexProposal, (prune b).myProposals[x]? = some p := by
  have hdef : (prune b).collecting =
      b.collecting.filter fun h _ => (prune b).myProposals.contains h := rfl
  rw [hdef, Maps.get_filter_iff, Std.TreeMap.contains_eq_isSome_getElem?,
    Option.isSome_iff_exists]

theorem Collected.of_prune {b : VertexBook} (h : Collected cr set b) :
    Collected cr set (prune b) := by
  refine ⟨?_, ?_⟩
  · intro y
    cases hy : (prune b).myProposals[y]? with
    | none =>
      simp only [iff_true]
      cases hc : (prune b).collecting[y]? with
      | none => rfl
      | some sigs =>
        obtain ⟨-, p, hp⟩ := prune_collecting.mp hc
        exact absurd (hy.symm.trans hp) (by simp)
    | some p =>
      have hmine : b.myProposals[y]? ≠ none := by simp [(prune_mine.mp hy).1]
      obtain ⟨sigs, hsigs⟩ := Option.ne_none_iff_exists'.mp (mt (h.keys y).mp hmine)
      simp [prune_collecting.mpr ⟨hsigs, p, hy⟩]
  · intro y q sigs voter sig hy hcoll hsig
    exact h.votes y q sigs voter sig (prune_mine.mp hy).1 (Maps.get_of_filter hcoll) hsig

theorem collected_move {call : NodeCall} {b d : VertexBook} {sg : List SignReq}
    {acts : List Action} (hapart : RoundsHashApart cr) (hports : KeyedPorts cr set me call)
    (hm : BookMove cr call b sg acts d) (hown : OwnBook cr me b) (h : Collected cr set b) :
    Collected cr set d := by
  have hkey : HoldsKey cr set b.selfId call.ctx.signBls := hown.selfId ▸ hports.2
  cases hm with
  | openSlot x p hmine => exact h.of_slot hmine (h.old hmine)
  | collect set' bp p hev hset hother hmine hnew hok =>
    cases hports.1.symm.trans hset
    refine h.of_slot hmine ?_
    intro voter sig hsig
    cases Maps.get_of_insert hsig with
    | inr hold => exact h.old hmine voter sig hold
    | inl hvote =>
      obtain ⟨rfl, rfl⟩ := hvote
      exact verifyPartial_vote hok
  | genesis hst =>
    have hbelow : HashesBelow cr 0 { b with started := true } := (hown.idle hst).2.2
    exact Collected.of_seeded (b := { b with started := true }) ⟨h.keys, h.votes⟩ hapart hkey
      hbelow []
  | propose set' need certs hst hset hready =>
    exact h.of_seeded hapart hkey hown.below _
  | prune hst => exact h.of_prune
  | _ => exact ⟨h.keys, h.votes⟩

end Collect

/- What a run certifies. -/

def certOf : Action → Option CertifiedVertex
  | .broadcastCertifiedVertex cv => some cv
  | _ => none

def certifiedIn (acts : List Action) : List CertifiedVertex := acts.filterMap certOf

@[simp] theorem certifiedIn_append (as bs : List Action) :
    certifiedIn (as ++ bs) = certifiedIn as ++ certifiedIn bs := by
  simp [certifiedIn]

theorem mem_certifiedIn {acts : List Action} {cv : CertifiedVertex} :
    cv ∈ certifiedIn acts ↔ Action.broadcastCertifiedVertex cv ∈ acts := by
  unfold certifiedIn
  rw [List.mem_filterMap]
  constructor
  · rintro ⟨a, ha, hcv⟩
    cases a <;> simp_all [certOf]
  · exact fun h => ⟨_, h, rfl⟩

theorem certifiedIn_own (cr : Crypto) (cfg : Config) (ctx : HostContext) (b : VertexBook)
    (round : Round) (parents : List Hash32) :
    certifiedIn (ownActions cr cfg ctx b round parents) = [] := by
  unfold ownActions
  cases b.roundTimer <;> rfl

/-- A hash whose certificate is out: it stays marked as long as its vertex is kept, and the
vertex is of a round so far. -/
def Spent (b : VertexBook) (v : Vertex) : Prop :=
  (v.hash ∈ b.emittedCerts ∨ b.myProposals[v.hash]? = none) ∧ v.round < b.currentRound + 1

structure Production (cr : Crypto) (set : ValidatorSet) (me : ValidatorId) (acts : List Action)
    (b : VertexBook) : Prop where
  own : OwnBook cr me b
  collected : Collected cr set b
  sound : ∀ cv ∈ certifiedIn acts,
    verifyCertifiedVertex cr cv set = .ok () ∧ cv.vertex.author = me
  once : ((certifiedIn acts).map (·.vertex.hash)).Nodup
  spent : ∀ cv ∈ certifiedIn acts, Spent b cv.vertex
  idle : b.started = false → certifiedIn acts = []

section Produce
variable {cr : Crypto} {set : ValidatorSet} {me : ValidatorId}

theorem production_new (cr : Crypto) (set : ValidatorSet) (self : ValidatorId) :
    Production cr set self [] (VertexBook.new self) := by
  refine ⟨ownBook_new cr self, ⟨fun h => by simp [VertexBook.new], ?_⟩, ?_, ?_, ?_, ?_⟩ <;>
    simp [VertexBook.new, certifiedIn]

theorem Production.lose {acts new : List Action} {b : VertexBook}
    (h : Production cr set me (acts ++ new) b) : Production cr set me acts b := by
  have hsub : ∀ cv ∈ certifiedIn acts, cv ∈ certifiedIn (acts ++ new) := by
    intro cv hcv
    rw [certifiedIn_append]
    exact List.mem_append_left _ hcv
  have honce := h.once
  rw [certifiedIn_append, List.map_append] at honce
  refine ⟨h.own, h.collected, fun cv hcv => h.sound cv (hsub cv hcv), honce.of_append_left,
    fun cv hcv => h.spent cv (hsub cv hcv), ?_⟩
  intro hst
  have hidle := h.idle hst
  rw [certifiedIn_append] at hidle
  exact (List.append_eq_nil_iff.mp hidle).1

theorem Production.keep {acts new : List Action} {b d : VertexBook}
    (h : Production cr set me acts b) (hown : OwnBook cr me d) (hcoll : Collected cr set d)
    (hnew : certifiedIn new = []) (hspent : ∀ cv ∈ certifiedIn acts, Spent d cv.vertex)
    (hst : d.started = false → b.started = false) : Production cr set me (acts ++ new) d := by
  have heq : certifiedIn (acts ++ new) = certifiedIn acts := by
    rw [certifiedIn_append, hnew, List.append_nil]
  refine ⟨hown, hcoll, ?_, ?_, ?_, ?_⟩
  · rw [heq]
    exact h.sound
  · rw [heq]
    exact h.once
  · rw [heq]
    exact hspent
  · rw [heq]
    exact fun hidle => h.idle (hst hidle)

/-- A vertex of a later round does not take the hash of an earlier one. -/
theorem Spent.seeded {ctx : HostContext} {b : VertexBook} {v : Vertex} (h : Spent b v)
    (hapart : RoundsHashApart cr) (hhash : v.hash = contentHash cr v)
    (hauthor : v.author = b.selfId) (parents : List Hash32) :
    Spent (seeded cr ctx b (b.currentRound + 1) parents) v := by
  have hne : (ownVertex cr ctx b (b.currentRound + 1) parents).hash ≠ v.hash := by
    intro heq
    have hround : v.round = b.currentRound + 1 := hapart v
      (ownVertex cr ctx b (b.currentRound + 1) parents) hauthor (hhash.symm.trans heq.symm)
    exact absurd hround (Nat.ne_of_lt h.2)
  refine ⟨?_, Nat.lt_succ_of_lt h.2⟩
  simpa [LuaDag.seeded, seedProposal, ownProposal, hne] using h.1

theorem Spent.prune {b : VertexBook} {v : Vertex} (h : Spent b v) :
    Spent (prune b) v := by
  refine ⟨?_, h.2⟩
  cases hx : (VertexCert.prune b).myProposals[v.hash]? with
  | none => exact Or.inr rfl
  | some p =>
    refine Or.inl ?_
    have hmine := (prune_mine.mp hx).1
    have hmarked : v.hash ∈ b.emittedCerts := h.1.resolve_right (by simp [hmine])
    have hdef : (VertexCert.prune b).emittedCerts =
        b.emittedCerts.filter ((VertexCert.prune b).myProposals.contains ·) := rfl
    rw [hdef, Finset.mem_filter, Std.TreeMap.contains_eq_isSome_getElem?, hx]
    exact ⟨hmarked, rfl⟩

theorem production_move {call : NodeCall} {acts new : List Action} {b d : VertexBook}
    {sg : List SignReq} (hapart : RoundsHashApart cr) (hports : KeyedPorts cr set me call)
    (hm : BookMove cr call b sg new d) (h : Production cr set me acts b) :
    Production cr set me (acts ++ new) d := by
  have hown := ownBook_move hm h.own
  have hcoll := collected_move hapart hports hm h.own h.collected
  cases hm with
  | genesis hst =>
    refine h.keep hown hcoll (certifiedIn_own cr _ _ _ _ _) ?_ (fun hidle => by cases hidle)
    intro cv hcv
    rw [h.idle hst] at hcv
    exact absurd hcv List.not_mem_nil
  | propose set' need certs hst hset hready =>
    refine h.keep hown hcoll (certifiedIn_own cr _ _ _ _ _) ?_ (fun hidle => hidle)
    intro cv hcv
    obtain ⟨hver, hauthor⟩ := h.sound cv hcv
    exact (h.spent cv hcv).seeded hapart (verified_sealed hver)
      (hauthor.trans h.own.selfId.symm) _
  | prune hst =>
    exact h.keep hown hcoll rfl (fun cv hcv => (h.spent cv hcv).prune) (fun hidle => hidle)
  | certify set' need x p sigs cv hset hneed hnew hmine hsigs hquorum hcv hok =>
    cases hports.1.symm.trans hset
    obtain ⟨hx, hc, ha, hr⟩ := h.own.mine x p hmine
    have hvertex : cv.vertex = p.vertex := assembleCert_vertex hcv
    have hhash : cv.vertex.hash = x := hvertex ▸ hx
    -- a spent hash of a kept vertex is marked, and this one is not
    have hfirst : ∀ old ∈ certifiedIn acts, old.vertex.hash ≠ cv.vertex.hash := by
      intro old hold heq
      cases (h.spent old hold).1 with
      | inl hmarked => exact hnew (hhash ▸ heq ▸ hmarked)
      | inr hnone =>
        rw [heq, hhash] at hnone
        exact absurd (hnone.symm.trans hmine) (by simp)
    have heq : certifiedIn (acts ++ [.broadcastCertifiedVertex cv]) = certifiedIn acts ++ [cv] :=
      certifiedIn_append _ _
    refine ⟨hown, hcoll, ?_, ?_, ?_, ?_⟩
    · rw [heq]
      intro old hold
      cases List.mem_append.mp hold with
      | inl hl => exact h.sound old hl
      | inr hr =>
        rw [List.mem_singleton.mp hr]
        exact ⟨hok, hvertex ▸ ha⟩
    · rw [heq, List.map_append, List.map_singleton, List.nodup_append]
      refine ⟨h.once, List.nodup_singleton _, ?_⟩
      intro y hy z hz
      obtain ⟨old, hold, rfl⟩ := List.mem_map.mp hy
      rw [List.mem_singleton.mp hz]
      exact hfirst old hold
    · rw [heq]
      intro old hold
      cases List.mem_append.mp hold with
      | inl hl =>
        obtain ⟨hmark, hround⟩ := h.spent old hl
        exact ⟨hmark.imp (Finset.mem_insert_of_mem ·) id, hround⟩
      | inr hr' =>
        rw [List.mem_singleton.mp hr']
        refine ⟨Or.inl ?_, hvertex ▸ Nat.lt_succ_of_le hr⟩
        rw [hhash]
        exact Finset.mem_insert_self _ _
    · intro hst
      exact absurd hmine (by simp [(h.own.idle hst).2.1 x])
  | rearm timer hev stalled retries delay again hagain =>
    refine h.keep hown hcoll ?_ h.spent (fun hidle => hidle)
    cases again <;> rfl
  | _ => exact h.keep hown hcoll rfl h.spent (fun hidle => hidle)

end Produce

/- No handler fails. -/

def NodeCall.withFuel (call : NodeCall) (k : Nat) : NodeCall :=
  ⟨call.pre, call.input.1, call.ctx.withFuel k⟩

/-- An error other than the lack of room. -/
def Fails (o : Result VertexBook) : Prop := ∃ e, o.result = .error e ∧ e ≠ .overflow

section Errors
variable {cr : Crypto} {set : ValidatorSet} {call : NodeCall}

theorem climbed_not_fails {cfg : Config} {ctx : HostContext} {need : Nat} {b : VertexBook}
    {o : Result VertexBook} (h : Climbed cr cfg ctx need b o) : ¬ Fails o := by
  rintro ⟨e, he, hne⟩
  cases h with
  | done k hq hend =>
    rw [Outcome.andThen_of_ok (ascend_result k b)] at he
    simp [Except.map] at he
  | cut k hq =>
    rw [Outcome.andThen_of_ok (ascend_result k b)] at he
    simp only [Outcome.fail_result, Except.map, Except.error.injEq] at he
    exact hne he.symm

theorem ok_not_fails {o : Result VertexBook} {acts : List Action} (h : o.result = .ok acts) :
    ¬ Fails o := by
  rintro ⟨e, he, -⟩
  exact absurd (h.symm.trans he) (by simp)

theorem andThen_not_fails {b : VertexBook} {acts : List Action}
    {k : VertexBook → Result VertexBook} (h : ¬ Fails (k b)) :
    ¬ Fails ((Outcome.ok b acts).andThen k) := by
  rintro ⟨e, he, hne⟩
  rw [Outcome.andThen_error_iff] at he
  obtain hfirst | ⟨_, _, hrest⟩ := he
  · cases hfirst
  · exact h ⟨e, hrest, hne⟩

section Fixed
variable (hset : activeSet call.ctx = .ok set) (hlen : 4 ≤ set.entries.length)
  (hbig : set.entries.length < 2 ^ 32) (hapart : RoundsHashApart cr)
  (hown : OwnBook cr call.pre.vertices.selfId call.pre.vertices)
include hset hlen hbig hapart hown

omit hset hlen hapart hown in
theorem quorumNeed_of_lt :
    quorumNeed set = .ok (quorumThreshold set.entries.length) := by
  simp only [quorumNeed, toU32_of_lt hbig]

omit hown in
theorem maybeAdvance_not_fails {b : VertexBook} (hb : OwnBook cr call.pre.vertices.selfId b) :
    ¬ Fails (maybeAdvance cr call.pre.cfg call.ctx b) := by
  by_cases hst : b.started = true
  · have hneed := quorumNeed_of_lt hbig
    exact climbed_not_fails (maybeAdvance_climbed hset hneed (two_le_need hlen hneed) hapart hb hst)
  · refine @ok_not_fails _ [] ?_
    simp [maybeAdvance, maybeAdvanceWith, hst]

theorem genesisPropose_not_fails :
    ¬ Fails (genesisPropose cr call.pre.cfg call.ctx call.pre.vertices) := by
  cases hst : call.pre.vertices.started with
  | true =>
    refine @ok_not_fails _ [] ?_
    rw [genesisPropose, if_pos hst]
    rfl
  | false =>
    obtain heq | ⟨e, herror, -⟩ := genesisPropose_boot hset hlen hapart hown hst
    · rw [heq]
      exact ok_not_fails rfl
    · exact absurd (herror.symm.trans (quorumNeed_of_lt hbig)) (by simp)

omit hlen hapart hown in
theorem onVertexProposal_ok (p : VertexProposal) :
    ∃ acts, (onVertexProposal cr p call.ctx call.pre.vertices).result = .ok acts := by
  have hcheck : ∀ b, ∃ acts, (checkParentsAndVote set p call.ctx b).result = .ok acts := by
    intro b
    have hvote : ∃ acts, (vote b p call.ctx).result = .ok acts := by
      unfold vote
      dsimp only
      split
      · exact ⟨_, rfl⟩
      · exact ⟨_, rfl⟩
    unfold checkParentsAndVote
    rw [quorumNeed_of_lt hbig]
    dsimp only
    split
    · split
      · exact hvote
      · exact ⟨_, rfl⟩
    · split
      · exact hvote
      · exact ⟨_, rfl⟩
  unfold onVertexProposal
  rw [hset]
  dsimp only
  split
  · exact ⟨_, rfl⟩
  split
  · exact ⟨_, rfl⟩
  split
  · exact ⟨_, rfl⟩
  split
  · exact ⟨_, rfl⟩
  split
  · split
    · exact ⟨_, rfl⟩
    · exact hcheck _
  · exact hcheck _
  · exact hcheck _

/-- The votes that make a quorum always assemble, and the certificate passes its own check. -/
theorem onVertexPartial_not_fails (hany : AggregatesAnyOrder cr)
    (hcoll : Collected cr set call.pre.vertices) (bp : VertexPartial) :
    ¬ Fails (onVertexPartial cr call.pre.cfg call.ctx bp call.pre.vertices) := by
  unfold onVertexPartial
  split
  · exact ok_not_fails rfl
  split
  · exact ok_not_fails rfl
  rename_i p hmine
  dsimp only
  split
  · split
    · exact ok_not_fails rfl
    · exact ok_not_fails rfl
  rw [hset]
  dsimp only
  split
  · exact ok_not_fails rfl
  rename_i hver
  let sigs := (call.pre.vertices.collecting[bp.vertexHash]?.getD ∅).insert bp.voter bp.sig
  have hvotes : ∀ (voter : ValidatorId) (sig : BlsSig), sigs[voter]? = some sig →
      VoteOn cr set p.vertex voter sig := by
    intro voter sig hsig
    cases Maps.get_of_insert hsig with
    | inr hold => exact hcoll.old hmine voter sig hold
    | inl hvote =>
      obtain ⟨rfl, rfl⟩ := hvote
      exact verifyPartial_vote (by simpa using hver)
  have hslots := hown.of_collecting hmine (call.pre.vertices.collecting[bp.vertexHash]?.getD ∅)
  have hcounted := hslots.of_collecting hmine sigs
  unfold tryFinalize tryFinalizeWith
  split
  · exact ok_not_fails rfl
  rw [show (call.pre.vertices.myProposals[bp.vertexHash]?) = some p from hmine, hset]
  dsimp only
  rw [quorumNeed_of_lt hbig]
  dsimp only
  rw [show ((call.pre.vertices.collecting.insert bp.vertexHash
    (call.pre.vertices.collecting[bp.vertexHash]?.getD ∅)).insert bp.vertexHash
      sigs)[bp.vertexHash]? = some sigs by simp]
  dsimp only
  split
  · exact ok_not_fails rfl
  rename_i hsize
  obtain ⟨hhash, hc, -, -⟩ := hown.mine _ p hmine
  obtain ⟨cv, hcv, hok⟩ := certificate_of_votes hany hbig (hhash.trans hc.symm) hvotes
    (Nat.le_of_not_lt hsize)
  rw [hcv]
  dsimp only
  rw [hok]
  dsimp only
  exact andThen_not_fails (maybeAdvance_not_fails hset hlen hbig hapart
    (hcounted.of_certified hmine cv))

omit hlen hapart hown in
theorem onTimerFired_ok (id : TimerId) :
    ∃ acts, (onTimerFired call.pre.cfg call.ctx id call.pre.vertices).result = .ok acts := by
  unfold onTimerFired
  rw [hset]
  dsimp only
  rw [quorumNeed_of_lt hbig]
  dsimp only
  split
  · exact ⟨_, rfl⟩
  split
  · exact ⟨_, rfl⟩
  · exact ⟨_, rfl⟩

theorem vertexOutcome_not_fails (hany : AggregatesAnyOrder cr)
    (hcoll : Collected cr set call.pre.vertices) : ¬ Fails (call.vertexOutcome cr) := by
  obtain ⟨sm, req, ctx⟩ := call
  cases req with
  | genesis => exact genesisPropose_not_fails hset hlen hbig hapart hown
  | event e =>
    cases e with
    | certifiedVertexReceived cv =>
      exact maybeAdvance_not_fails hset hlen hbig hapart
        ⟨rfl, hown.idle, hown.mine, hown.single, hown.current, hown.below⟩
    | vertexProposalReceived p =>
      obtain ⟨acts, hok⟩ := @onVertexProposal_ok cr set
        ⟨sm, .event (.vertexProposalReceived p), ctx⟩ hset hbig p
      exact ok_not_fails hok
    | vertexPartialReceived bp =>
      exact onVertexPartial_not_fails hset hlen hbig hapart hown hany hcoll bp
    | timerFired id =>
      simp only [NodeCall.vertexOutcome]
      split
      · exact ok_not_fails rfl
      · obtain ⟨acts, hok⟩ := @onTimerFired_ok set ⟨sm, .event (.timerFired id), ctx⟩ hset hbig id
        exact ok_not_fails hok
    | _ => exact ok_not_fails rfl

omit hapart hown in
theorem vertexOutcome_returns :
    ∃ n, ∀ k, n ≤ k → ((call.withFuel k).vertexOutcome cr).result ≠ .error .overflow := by
  have hquorum : ∀ need, quorumNeed set = .ok need → 2 ≤ need := fun _ => two_le_need hlen
  have hterm : ∀ f : Nat → Result VertexBook, Terminates f →
      ∃ n, ∀ k, n ≤ k → (f k).result ≠ .error .overflow := by
    rintro f ⟨n, hret, hsame⟩
    exact ⟨n, fun k hk => hsame k hk ▸ hret⟩
  have hconst : (∀ k, ∃ acts, ((call.withFuel k).vertexOutcome cr).result = .ok acts) →
      ∃ n, ∀ k, n ≤ k → ((call.withFuel k).vertexOutcome cr).result ≠ .error .overflow := by
    intro hok
    refine ⟨0, fun k _ => ?_⟩
    obtain ⟨acts, hacts⟩ := hok k
    simp [hacts]
  obtain ⟨sm, req, ctx⟩ := call
  cases req with
  | genesis =>
    exact hterm (fun k => genesisPropose cr sm.cfg (ctx.withFuel k) sm.vertices)
      (@genesisPropose_terminates cr sm.cfg ctx set hset hquorum sm.vertices)
  | event e =>
    cases e with
    | certifiedVertexReceived cv =>
      exact hterm (fun k => onCertifiedVertex cr sm.cfg (ctx.withFuel k) cv sm.vertices)
        (@onCertifiedVertex_terminates cr sm.cfg ctx set hset hquorum cv sm.vertices)
    | vertexPartialReceived bp =>
      exact hterm (fun k => onVertexPartial cr sm.cfg (ctx.withFuel k) bp sm.vertices)
        (@onVertexPartial_terminates cr sm.cfg ctx set hset hquorum bp sm.vertices)
    | vertexProposalReceived p =>
      exact hconst fun k => @onVertexProposal_ok cr set
        ⟨sm, .event (.vertexProposalReceived p), ctx.withFuel k⟩ hset hbig p
    | timerFired id =>
      refine hconst fun k => ?_
      simp only [NodeCall.withFuel, NodeCall.vertexOutcome]
      split
      · exact ⟨_, rfl⟩
      · exact @onTimerFired_ok set ⟨sm, .event (.timerFired id), ctx.withFuel k⟩ hset hbig id
    | _ => exact hconst fun _ => ⟨_, rfl⟩

end Fixed
end Errors

/- Whole runs. -/

/-- L1 certificate production. Under a fixed set of four or more that lists the node with its
own key, no L1 handler fails in any run, given room for its nested calls and a set whose size
fits the wire; the certificates that are sent verify, are for own vertices and are sent once for
each hash; and the collected votes are valid ones on the vertices that are kept. -/
theorem certificate_production (cr : Crypto) (hany : AggregatesAnyOrder cr)
    (hapart : RoundsHashApart cr) (cfg : Config) (self : ValidatorId) (set : ValidatorSet)
    (hlen : 4 ≤ set.entries.length) (is : List StateMachine.Input) (hset : FixedSet set is)
    (hkey : ∀ i ∈ is, HoldsKey cr set self i.2.signBls) :
    let calls : List NodeCall := StateMachine.run cr cfg self is
    (set.entries.length < 2 ^ 32 → ∀ call ∈ calls, ¬ Fails (call.vertexOutcome cr) ∧
        ∃ n, ∀ k, n ≤ k → ∃ acts, ((call.withFuel k).vertexOutcome cr).result = .ok acts) ∧
      (∀ cv, Action.broadcastCertifiedVertex cv ∈ vertexActions cr calls →
        verifyCertifiedVertex cr cv set = .ok () ∧ cv.vertex.author = self) ∧
      ((certifiedIn (vertexActions cr calls)).map (·.vertex.hash)).Nodup ∧
      Collected cr set (StateMachine.reached cr cfg self is).vertices := by
  intro calls
  have hports : ∀ js, (∀ i ∈ js, i ∈ is) → ∀ call ∈ StateMachine.run cr cfg self js,
      KeyedPorts cr set self call := by
    intro js hjs call hcall
    have hin := hjs _ (run_input hcall)
    exact ⟨hset _ hin, hkey _ hin⟩
  have hrun : ∀ js, (∀ i ∈ js, i ∈ is) →
      Production cr set self (vertexActions cr (StateMachine.run cr cfg self js))
        (StateMachine.reached cr cfg self js).vertices := by
    intro js hjs
    exact book_history cr (KeyedPorts cr set self) (Production cr set self)
      (fun _ _ _ h => h.lose) (fun _ hg _ _ _ _ _ hm h => production_move hapart hg hm h)
      cfg self (production_new cr set self) js (hports js hjs)
  have hend := hrun is fun _ h => h
  refine ⟨?_, ?_, hend.once, hend.collected⟩
  · intro hbig call hcall
    obtain ⟨js, ks, his, hpre, -⟩ := before_call hcall
    have hprod := hrun js fun i hi => his ▸ List.mem_append_left _ hi
    rw [← hpre] at hprod
    have hown := hprod.own.of_self
    have hserved := fixedSet_call hset hcall
    refine ⟨vertexOutcome_not_fails hserved hlen hbig hapart hown hany hprod.collected, ?_⟩
    obtain ⟨n, hn⟩ := @vertexOutcome_returns cr set call hserved hlen hbig
    refine ⟨n, fun k hk => ?_⟩
    have hnot := @vertexOutcome_not_fails cr set (call.withFuel k) hserved hlen hbig hapart hown
      hany hprod.collected
    cases hr : ((call.withFuel k).vertexOutcome cr).result with
    | ok acts => exact ⟨acts, rfl⟩
    | error e =>
      refine absurd ⟨e, hr, ?_⟩ hnot
      rintro rfl
      exact hn k hk hr
  · intro cv hcv
    exact hend.sound cv (mem_certifiedIn.mpr hcv)

section Devnet
open Devnet

theorem aggregatesAnyOrder (recorded : Nat → Dst → Bytes → Bool) :
    AggregatesAnyOrder (crypto recorded) := by
  intro votes pks dst msg hne hver hperm
  have hvote : ∀ vote ∈ votes, vote.2 = sigOf vote.1 ∧ recorded vote.1.val dst msg = true := by
    intro vote hin
    simpa [crypto] using hver vote hin
  have hsigs : votes.map (·.2) = (votes.map (·.1)).map sigOf := by
    rw [List.map_map]
    exact List.map_congr_left fun vote hin => (hvote vote hin).1
  have hsum : sumSigs (votes.map (·.2)) = sumSigs (pks.map sigOf) := by
    rw [hsigs]
    exact congrArg BlsSig.mk (((hperm.symm.map sigOf).map (·.val)).sum_nat)
  refine ⟨sumSigs (votes.map (·.2)), ?_, ?_⟩
  · simp [crypto, hne]
  · simp only [crypto, hsum, decide_true, Bool.true_and, List.all_eq_true]
    intro pk hpk
    obtain ⟨vote, hin, rfl⟩ := List.mem_map.mp (hperm.mem_iff.mp hpk)
    exact (hvote vote hin).2

def votedRun : List StateMachine.Input :=
  (.genesis, ports 0 0) :: script 0 ([1, 2].map fun i =>
    (0, .vertexPartialReceived ⟨vertexHash 0 0, 0, ⟨0⟩, ⟨i⟩, sigOf ⟨i⟩⟩))

theorem certificate_production_devnet :
    (certifiedIn (vertexActions openCrypto
        (StateMachine.run openCrypto config ⟨0⟩ votedRun))).map (·.vertex.hash) =
      [vertexHash 0 0] ∧
      Collected openCrypto validators
        (StateMachine.reached openCrypto config ⟨0⟩ votedRun).vertices := by
  have hkey : ∀ i ∈ votedRun, HoldsKey openCrypto validators ⟨0⟩ i.2.signBls := by
    intro i hi
    cases List.mem_cons.mp hi with
    | inl h => exact h ▸ holdsKey_devnet rfl
    | inr h =>
      obtain ⟨e, -, rfl⟩ := List.mem_map.mp h
      exact holdsKey_devnet rfl
  exact ⟨by decide, (certificate_production openCrypto (aggregatesAnyOrder _)
    (roundsHashApart _) config ⟨0⟩ validators (by decide) votedRun
    (fixedSet_script rfl 0 _) hkey).2.2.2⟩

end Devnet
end LuaDag
