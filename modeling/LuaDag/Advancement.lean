import LuaDag.VertexVotes
import Mathlib.Tactic.IntervalCases

/-! Termination of L1 advancement. `propose_round`, `try_finalize` and `maybe_advance` call
each other; every round that is left behind had certificates of a quorum. If a quorum
needs more than the own certificate, somebody else's certificate was recorded for each of
these rounds before the call, so that there are finitely many. If the own one is enough,
the calls never end. -/
namespace LuaDag

def HostContext.withFuel (ctx : HostContext) (k : Nat) : HostContext := { ctx with fuel := k }

@[simp] theorem activeSet_withFuel (ctx : HostContext) (k : Nat) :
    activeSet (ctx.withFuel k) = activeSet ctx := rfl

/-- From some point on, more room does not change the outcome, and it is no overflow. -/
def Terminates (f : Nat → Result VertexBook) : Prop :=
  ∃ n, (f n).result ≠ .error .overflow ∧ ∀ k, n ≤ k → f k = f n

namespace VertexCert
section Advance
variable {cr : Crypto} {cfg : Config} {ctx : HostContext}

/- More room. -/

def Extends (adv adv' : VertexBook → Result VertexBook) : Prop :=
  ∀ book, (adv book).result ≠ .error .overflow → adv' book = adv book

theorem tryFinalizeWith_extends {adv adv' : VertexBook → Result VertexBook}
    (h : Extends adv adv') (hash : Hash32) :
    Extends (tryFinalizeWith cr ctx adv hash) (tryFinalizeWith cr ctx adv' hash) := by
  intro book hret
  unfold tryFinalizeWith at hret ⊢
  split
  · rfl
  rename_i hnew
  split
  · rfl
  rename_i proposal hmine
  split
  · rfl
  rename_i set hset
  split
  · rfl
  rename_i need hneed
  split
  · rfl
  rename_i sigs hsigs
  split
  · rfl
  rename_i hsize
  split
  · rfl
  rename_i cv hcv
  split
  · rfl
  rename_i hver
  simp only [hnew, hmine, hset, hneed, hsigs, hsize, hcv, hver, if_false] at hret
  rw [ne_eq, Outcome.andThen_error_iff, not_or] at hret
  rw [Outcome.andThen_of_ok rfl, Outcome.andThen_of_ok rfl, h]
  intro hover
  exact hret.2 ⟨_, rfl, hover⟩

theorem proposeRoundWith_extends {adv adv' : VertexBook → Result VertexBook}
    (h : Extends adv adv') (round : Round) (parents : List Hash32) :
    Extends (proposeRoundWith cr cfg ctx adv round parents)
      (proposeRoundWith cr cfg ctx adv' round parents) := by
  intro book hret
  unfold proposeRoundWith at hret ⊢
  dsimp only at hret ⊢
  rw [ne_eq, Outcome.andThen_error_iff, not_or] at hret
  rw [Outcome.andThen_of_ok rfl, Outcome.andThen_of_ok rfl, tryFinalizeWith_extends h]
  intro hover
  exact hret.2 ⟨_, rfl, hover⟩

theorem maybeAdvanceWith_extends {loop loop' : Nat → VertexBook → Result VertexBook}
    (h : ∀ need, Extends (loop need) (loop' need)) :
    Extends (maybeAdvanceWith ctx loop) (maybeAdvanceWith ctx loop') := by
  intro book hret
  unfold maybeAdvanceWith at hret ⊢
  split
  · rfl
  rename_i hst
  split
  · rfl
  rename_i set hset
  split
  · rfl
  rename_i need hneed
  simp only [hst, hset, hneed] at hret
  rw [ne_eq, if_neg (by simp), Outcome.andThen_error_iff, not_or] at hret
  rw [h need book hret.1]

theorem advanceLoop_extends (fuel need : Nat) :
    Extends (advanceLoop cr cfg ctx fuel need) (advanceLoop cr cfg ctx (fuel + 1) need) := by
  induction fuel generalizing need with
  | zero =>
    intro book hret
    exact absurd rfl hret
  | succ fuel ih =>
    intro book hret
    unfold advanceLoop at hret ⊢
    split
    · rfl
    rename_i certs hcerts
    split
    · rfl
    rename_i hsize
    simp only [hcerts, hsize, if_false] at hret
    rw [ne_eq, Outcome.andThen_error_iff, not_or] at hret
    rw [proposeRoundWith_extends (maybeAdvanceWith_extends ih) _ _ book hret.1]
    cases hr : (proposeRoundWith cr cfg ctx (maybeAdvanceWith ctx (advanceLoop cr cfg ctx fuel))
        (book.currentRound + 1) (certs.values.take need) book).result with
    | error e => rw [Outcome.andThen_of_error hr, Outcome.andThen_of_error hr]
    | ok acts =>
      rw [Outcome.andThen_of_ok hr, Outcome.andThen_of_ok hr, ih need]
      intro hover
      exact hret.2 ⟨acts, hr, hover⟩

/- The room does not enter but as a bound. -/

theorem advanceLoop_withFuel (k fuel : Nat) :
    advanceLoop cr cfg (ctx.withFuel k) fuel = advanceLoop cr cfg ctx fuel := by
  induction fuel with
  | zero => rfl
  | succ fuel ih =>
    funext need book
    unfold advanceLoop
    rw [ih]
    rfl

theorem maybeAdvance_withFuel (k : Nat) :
    maybeAdvance cr cfg (ctx.withFuel k) = maybeAdvanceWith ctx (advanceLoop cr cfg ctx k) := by
  funext book
  unfold maybeAdvance
  rw [advanceLoop_withFuel]
  rfl

/-- A handler that calls `maybe_advance` returns with any room above one it returns with. -/
theorem terminates_of_return (f : (VertexBook → Result VertexBook) → Result VertexBook)
    (hf : ∀ adv adv', Extends adv adv' → (f adv).result ≠ .error .overflow → f adv' = f adv)
    (n : Nat) (hret : (f (maybeAdvanceWith ctx (advanceLoop cr cfg ctx n))).result ≠
      .error .overflow) :
    Terminates fun k => f (maybeAdvanceWith ctx (advanceLoop cr cfg ctx k)) := by
  refine ⟨n, hret, ?_⟩
  intro k hk
  induction k, hk using Nat.le_induction with
  | base => rfl
  | succ k _ ih =>
    dsimp only at ih ⊢
    rw [← ih]
    refine hf _ _ (maybeAdvanceWith_extends fun need => advanceLoop_extends k need) ?_
    rw [ih]
    exact hret

/- Rounds ahead. -/

def OthersBelow (b : Round) (book : VertexBook) : Prop :=
  ∀ (r : Round) (certs : Std.TreeMap ValidatorId Hash32) (a : ValidatorId) (h : Hash32),
    book.certifiedByRound[r]? = some certs → certs[a]? = some h → a ≠ book.selfId → r < b

theorem exists_othersBelow (book : VertexBook) (r : Round) : ∃ b, OthersBelow b book ∧ r < b := by
  obtain ⟨n, hn⟩ := Maps.exists_bound book.certifiedByRound
  refine ⟨max n (r + 1), ?_, Nat.lt_of_lt_of_le (Nat.lt_succ_self r) (Nat.le_max_right _ _)⟩
  intro r' certs _ _ hr _ _
  exact Nat.lt_of_lt_of_le (hn r' certs hr) (Nat.le_max_left _ _)

/-- The call has returned, at round `cur` or later, and learned of no certificate of others
at `b` or above. -/
structure Settled (b cur : Round) (o : Result VertexBook) : Prop where
  returned : o.result ≠ .error .overflow
  others : OthersBelow b o.state
  reached : cur ≤ o.state.currentRound

theorem Settled.mono {b cur cur' : Round} {o : Result VertexBook} (h : Settled b cur o)
    (hle : cur' ≤ cur) : Settled b cur' o :=
  ⟨h.returned, h.others, hle.trans h.reached⟩

theorem Settled.andThen {b cur : Round} {o : Result VertexBook}
    {k : VertexBook → Result VertexBook} (h : Settled b cur o)
    (hk : ∀ acts, o.result = .ok acts → Settled b cur (k o.state)) :
    Settled b cur (o.andThen k) := by
  cases hr : o.result with
  | error e => rwa [Outcome.andThen_of_error hr]
  | ok acts =>
    have hnext := hk acts hr
    refine ⟨?_, ?_, ?_⟩
    · rw [ne_eq, Outcome.andThen_error_iff, not_or]
      refine ⟨h.returned, ?_⟩
      rintro ⟨_, _, hover⟩
      exact hnext.returned hover
    · rw [Outcome.andThen_of_ok hr]
      exact hnext.others
    · rw [Outcome.andThen_of_ok hr]
      exact hnext.reached

def Settles (b cur : Round) (adv : VertexBook → Result VertexBook) : Prop :=
  ∀ book, OthersBelow b book → cur ≤ book.currentRound → Settled b cur (adv book)

theorem quorumNeed_error {set : ValidatorSet} {e : Error} (h : quorumNeed set = .error e) :
    e ≠ .overflow := by
  unfold quorumNeed at h
  split at h
  · cases h
    simp
  · cases h

theorem assembleCert_vertex {vertex : Vertex} {set : ValidatorSet}
    {contributors : List (Nat × BlsSig)} {cv : CertifiedVertex}
    (h : assembleCert cr vertex set contributors = .ok cv) : cv.vertex = vertex := by
  unfold assembleCert at h
  split at h
  · cases h
  dsimp only at h
  split at h
  · cases h
  split at h
  · cases h
  split at h
  · cases h
  · cases h
    rfl

theorem recordCert_others {b : Round} {book : VertexBook} {cv : CertifiedVertex}
    (h : OthersBelow b book) (hcv : cv.vertex.author = book.selfId ∨ cv.vertex.round < b) :
    OthersBelow b (recordCert book cv) := by
  intro r certs a x hr ha hne
  simp only [recordCert, Maps.get_insert] at hr
  split at hr
  · rename_i heq
    cases hr
    rw [Maps.get_insert] at ha
    split at ha
    · rename_i hauthor
      cases hcv with
      | inl hself => exact absurd (hauthor.symm.trans hself) hne
      | inr hlt => exact heq ▸ hlt
    · cases hold : book.certifiedByRound[cv.vertex.round]? with
      | none => simp [hold] at ha
      | some old =>
        simp only [hold, Option.getD_some] at ha
        exact heq ▸ h _ old a x hold ha hne
  · exact h r certs a x hr ha hne

theorem prune_others {b : Round} {book : VertexBook} (h : OthersBelow b book) :
    OthersBelow b (prune book) := by
  intro r certs a x hr ha hne
  exact h r certs a x (Maps.get_of_filter hr) ha hne

theorem settled_quiet {b cur : Round} {book : VertexBook} (h : OthersBelow b book)
    (hcur : cur ≤ book.currentRound) : Settled b cur (.quiet book) :=
  ⟨by simp, h, hcur⟩

section Settle
variable {set : ValidatorSet} (hset : activeSet ctx = .ok set)
include hset

theorem tryFinalizeWith_settled {b cur : Round} {adv : VertexBook → Result VertexBook}
    (hadv : Settles b cur adv) {hash : Hash32} {book : VertexBook} (h : OthersBelow b book)
    (hcur : cur ≤ book.currentRound)
    (hmine : ∀ p : VertexProposal, book.myProposals[hash]? = some p →
      p.vertex.author = book.selfId ∨ p.vertex.round < b) :
    Settled b cur (tryFinalizeWith cr ctx adv hash book) := by
  unfold tryFinalizeWith
  rw [hset]
  split
  · exact settled_quiet h hcur
  split
  · exact settled_quiet h hcur
  rename_i proposal hp
  dsimp only
  split
  · rename_i e hneed
    exact ⟨by simpa using quorumNeed_error hneed, h, hcur⟩
  split
  · exact settled_quiet h hcur
  split
  · exact settled_quiet h hcur
  split
  · exact ⟨by simp, h, hcur⟩
  rename_i cv hcv
  split
  · exact ⟨by simp, h, hcur⟩
  have hrec : OthersBelow b (recordCert
      { book with emittedCerts := insert hash book.emittedCerts } cv) := by
    refine recordCert_others h ?_
    rw [assembleCert_vertex hcv]
    exact hmine proposal hp
  exact Settled.andThen ⟨by simp, hrec, hcur⟩ fun _ _ => hadv _ hrec hcur

theorem proposeRoundWith_settled {b round : Round} {adv : VertexBook → Result VertexBook}
    (hadv : Settles b round adv) (parents : List Hash32) {book : VertexBook}
    (h : OthersBelow b book) :
    Settled b round (proposeRoundWith cr cfg ctx adv round parents book) := by
  unfold proposeRoundWith
  dsimp only
  refine Settled.andThen ⟨by simp, h, Nat.le_refl _⟩ ?_
  intro _ _
  refine tryFinalizeWith_settled hset hadv h (Nat.le_refl _) ?_
  intro p hp
  simp only [seedProposal, Maps.get_insert, if_pos] at hp
  cases hp
  exact Or.inl rfl

theorem maybeAdvanceWith_settles {b cur : Round} {loop : Nat → VertexBook → Result VertexBook}
    (hloop : ∀ need, quorumNeed set = .ok need → Settles b cur (loop need)) :
    Settles b cur (maybeAdvanceWith ctx loop) := by
  intro book h hcur
  unfold maybeAdvanceWith
  rw [hset]
  split
  · exact settled_quiet h hcur
  dsimp only
  split
  · rename_i e hneed
    exact ⟨by simpa using quorumNeed_error hneed, h, hcur⟩
  rename_i need hneed
  have hl := hloop need hneed book h hcur
  exact hl.andThen fun _ _ => settled_quiet (prune_others hl.others) hl.reached

/-- Every round the loop leaves behind has a certificate of somebody else. -/
theorem advanceLoop_settles (hquorum : ∀ need, quorumNeed set = .ok need → 2 ≤ need) {b : Nat}
    (fuel need : Nat) (hneed : 2 ≤ need) (cur : Nat) (hroom : b - cur < fuel) :
    Settles b cur (advanceLoop cr cfg ctx fuel need) := by
  induction fuel generalizing need cur with
  | zero => exact absurd hroom (Nat.not_lt_zero _)
  | succ fuel ih =>
    intro book h hcur
    unfold advanceLoop
    split
    · exact settled_quiet h hcur
    rename_i certs hcerts
    split
    · exact settled_quiet h hcur
    rename_i hsize
    -- a quorum of two needs a certificate of another author, and those end below `b`
    have htwo : 2 ≤ certs.size := hneed.trans (Nat.le_of_not_lt hsize)
    obtain ⟨a, x, ha, hne⟩ := Maps.exists_other certs book.selfId htwo
    have hahead : book.currentRound < b := h _ certs a x hcerts ha hne
    have hleft : b - (book.currentRound + 1) < fuel := by
      have harith : ∀ r : Nat, cur ≤ r → r < b → b - (r + 1) < fuel := by omega
      exact harith _ hcur hahead
    have hadv : Settles b (book.currentRound + 1)
        (maybeAdvanceWith ctx (advanceLoop cr cfg ctx fuel)) :=
      maybeAdvanceWith_settles hset fun need' hneed' => ih need' (hquorum need' hneed') _ hleft
    have hprop := @proposeRoundWith_settled cr cfg ctx set hset b _ _ hadv
      (certs.values.take need) book h
    refine (hprop.andThen fun _ _ => ?_).mono (Nat.le_succ_of_le hcur)
    exact ih need hneed _ hleft _ hprop.others hprop.reached

/-- The quorum needs more than one: from any book, a large enough room is enough. -/
theorem maybeAdvance_returns (hquorum : ∀ need, quorumNeed set = .ok need → 2 ≤ need)
    (book : VertexBook) (r : Round) :
    ∃ b n, OthersBelow b book ∧ r < b ∧
      Settles b 0 (maybeAdvanceWith ctx (advanceLoop cr cfg ctx n)) := by
  obtain ⟨b, hb, hr⟩ := exists_othersBelow book r
  refine ⟨b, b + 1, hb, hr, maybeAdvanceWith_settles hset ?_⟩
  intro need hneed
  exact advanceLoop_settles hset hquorum (b + 1) need (hquorum need hneed) 0 (Nat.lt_succ_self b)

theorem genesisPropose_terminates (hquorum : ∀ need, quorumNeed set = .ok need → 2 ≤ need)
    (book : VertexBook) : Terminates fun k => genesisPropose cr cfg (ctx.withFuel k) book := by
  by_cases hst : book.started
  · simp only [genesisPropose, hst, if_true]
    exact ⟨0, by simp, fun _ _ => rfl⟩
  obtain ⟨b, n, hb, -, hadv⟩ :=
    @maybeAdvance_returns cr cfg ctx set hset hquorum { book with started := true } 0
  have heq : ∀ k, genesisPropose cr cfg (ctx.withFuel k) book = proposeRoundWith cr cfg ctx
      (maybeAdvanceWith ctx (advanceLoop cr cfg ctx k)) 0 [] { book with started := true } := by
    intro k
    rw [genesisPropose, if_neg hst, proposeRound, maybeAdvance_withFuel]
    rfl
  simp only [heq]
  refine terminates_of_return (fun adv => proposeRoundWith cr cfg ctx adv 0 [] _) ?_ n ?_
  · intro adv adv' hext hret
    exact proposeRoundWith_extends hext 0 [] _ hret
  · exact (proposeRoundWith_settled hset hadv [] hb).returned

theorem onVertexPartial_cases (bp : VertexPartial) (book : VertexBook) :
    (∃ o : Result VertexBook, o.result ≠ .error .overflow ∧
      ∀ k, onVertexPartial cr cfg (ctx.withFuel k) bp book = o) ∨
    ∃ (collecting : Std.TreeMap Hash32 (Std.TreeMap ValidatorId BlsSig)),
      ∀ k, onVertexPartial cr cfg (ctx.withFuel k) bp book =
        tryFinalizeWith cr ctx (maybeAdvanceWith ctx (advanceLoop cr cfg ctx k)) bp.vertexHash
          { book with collecting := collecting } := by
  by_cases hmine : bp.author ≠ book.selfId ∨ bp.voter = book.selfId
  · exact Or.inl ⟨.quiet book, by simp, fun k => by rw [onVertexPartial, if_pos hmine]⟩
  cases hp : book.myProposals[bp.vertexHash]? with
  | none =>
    exact Or.inl ⟨.quiet book, by simp, fun k => by simp [onVertexPartial, hmine, hp]⟩
  | some proposal =>
    cases hslot : (book.collecting[bp.vertexHash]?.getD ∅)[bp.voter]? with
    | some prev =>
      refine Or.inl ⟨onVertexPartial cr cfg ctx bp book, ?_, ?_⟩
      · simp only [onVertexPartial, if_neg hmine, hp, hslot]
        split <;> simp
      · intro k
        simp only [onVertexPartial, if_neg hmine, hp, hslot]
    | none =>
      by_cases hver : verifyPartial cr set bp proposal.vertex
      · refine Or.inr ⟨(book.collecting.insert bp.vertexHash
          (book.collecting[bp.vertexHash]?.getD ∅)).insert bp.vertexHash
          ((book.collecting[bp.vertexHash]?.getD ∅).insert bp.voter bp.sig), ?_⟩
        intro k
        simp only [onVertexPartial, if_neg hmine, hp, hslot, activeSet_withFuel, hset, hver,
          Bool.not_true, tryFinalize, maybeAdvance_withFuel]
        rfl
      · refine Or.inl ⟨onVertexPartial cr cfg ctx bp book, ?_, ?_⟩
        · simp [onVertexPartial, if_neg hmine, hp, hslot, hset, hver]
        · intro k
          simp only [onVertexPartial, if_neg hmine, hp, hslot, activeSet_withFuel, hset, hver]
          rfl

theorem onVertexPartial_terminates (hquorum : ∀ need, quorumNeed set = .ok need → 2 ≤ need)
    (bp : VertexPartial) (book : VertexBook) :
    Terminates fun k => onVertexPartial cr cfg (ctx.withFuel k) bp book := by
  cases @onVertexPartial_cases cr cfg ctx set hset bp book with
  | inl hconst =>
    obtain ⟨o, hret, heq⟩ := hconst
    simp only [heq]
    exact ⟨0, hret, fun _ _ => rfl⟩
  | inr hcall =>
    obtain ⟨collecting, heq⟩ := hcall
    simp only [heq]
    have hround : ∃ r, ∀ p : VertexProposal, book.myProposals[bp.vertexHash]? = some p →
        p.vertex.round ≤ r := by
      cases book.myProposals[bp.vertexHash]? with
      | none => exact ⟨0, fun p hp => by cases hp⟩
      | some p => exact ⟨p.vertex.round, fun q hq => by cases hq; exact Nat.le_refl _⟩
    obtain ⟨r, hr⟩ := hround
    obtain ⟨b, n, hb, hlt, hadv⟩ := @maybeAdvance_returns cr cfg ctx set hset hquorum
      { book with collecting := collecting } r
    refine terminates_of_return (fun adv => tryFinalizeWith cr ctx adv bp.vertexHash _) ?_ n ?_
    · intro adv adv' hext hret
      exact tryFinalizeWith_extends hext _ _ hret
    · refine (tryFinalizeWith_settled hset hadv hb (Nat.zero_le _) ?_).returned
      intro p hp
      exact Or.inr (Nat.lt_of_le_of_lt (hr p hp) hlt)

theorem onCertifiedVertex_terminates (hquorum : ∀ need, quorumNeed set = .ok need → 2 ≤ need)
    (cv : CertifiedVertex) (book : VertexBook) :
    Terminates fun k => onCertifiedVertex cr cfg (ctx.withFuel k) cv book := by
  obtain ⟨b, n, hb, -, hadv⟩ :=
    @maybeAdvance_returns cr cfg ctx set hset hquorum (recordCert book cv) 0
  simp only [onCertifiedVertex, maybeAdvance_withFuel]
  refine terminates_of_return (fun adv => adv (recordCert book cv)) ?_ n ?_
  · intro adv adv' hext hret
    exact hext _ hret
  · exact (hadv _ hb (Nat.zero_le _)).returned

end Settle

/- Alone. -/

/-- What this node signs verifies under the key of its entry. -/
def HoldsKey (cr : Crypto) (set : ValidatorSet) (self : ValidatorId)
    (sign : Dst → Bytes → BlsSig) : Prop :=
  ∃ pk, pkFor cr set self = some pk ∧
    ∀ msg, cr.verify pk .vertexCert msg (sign .vertexCert msg) = true

def HashesBelow (cr : Crypto) (round : Round) (book : VertexBook) : Prop :=
  ∀ h : Hash32, (h ∈ book.emittedCerts ∨ book.collecting[h]? ≠ none) →
    ∃ v : Vertex, v.author = book.selfId ∧ v.round < round ∧ contentHash cr v = h

structure Ahead (cr : Crypto) (me : ValidatorId) (book : VertexBook) : Prop where
  started : book.started = true
  selfId : book.selfId = me
  below : HashesBelow cr (book.currentRound + 1) book
  certified : ∃ certs, book.certifiedByRound[book.currentRound]? = some certs ∧ 1 ≤ certs.size

structure Alone (set : ValidatorSet) (me : ValidatorId) : Prop where
  listed : me ∈ set.entries.map (·.id)
  small : set.entries.length ≤ 3

theorem Alone.length {set : ValidatorSet} {me : ValidatorId} (h : Alone set me) :
    toU32 set.entries.length = some set.entries.length := by
  have hlen := h.small
  simp only [toU32, ite_eq_left_iff]
  omega

theorem Alone.threshold {set : ValidatorSet} {me : ValidatorId} (h : Alone set me) :
    quorumThreshold set.entries.length = 1 := by
  have hlen := h.small
  unfold quorumThreshold
  omega

theorem Alone.quorumNeed {set : ValidatorSet} {me : ValidatorId} (h : Alone set me) :
    VertexCert.quorumNeed set = .ok 1 := by
  simp only [VertexCert.quorumNeed, h.length, h.threshold]

theorem Alone.index {set : ValidatorSet} {me : ValidatorId} (h : Alone set me) :
    ∃ i e, indexOf set me = some i ∧ i < set.entries.length ∧ set.entries[i]? = some e ∧
      entryFor set me = some e := by
  obtain ⟨e, he, hid⟩ := List.mem_map.mp h.listed
  have hidx : (indexOf set me).isSome := by
    rw [indexOf, List.findIdx?_isSome, List.any_eq_true]
    exact ⟨e, he, by simpa using hid⟩
  obtain ⟨i, hi⟩ := Option.isSome_iff_exists.mp hidx
  have hlt : i < set.entries.length := (List.findIdx?_eq_some_iff_findIdx_eq.mp hi).1
  refine ⟨i, set.entries[i], hi, hlt, List.getElem?_eq_getElem hlt, ?_⟩
  have hbind : entryFor set me = (indexOf set me).bind (set.entries[·]?) :=
    List.find?_eq_bind_findIdx?_getElem?
  rw [hbind, hi, Option.bind_some, List.getElem?_eq_getElem hlt]

theorem filter_range_single {n i : Nat} (hi : i < n) (hn : n ≤ 3) :
    (List.range n).filter (fun j => decide (j ∈ [i])) = [i] := by
  interval_cases n <;> interval_cases i <;> decide

/-- The own signature alone makes a certificate that verifies. -/
theorem Alone.certificate {set : ValidatorSet} {me : ValidatorId} (h : Alone set me)
    (hcomplete : CompleteAggregates cr) (hsingle : AggregatesSingle cr) {pk : PublicKey}
    {sig : BlsSig} {v : Vertex} (hpk : pkFor cr set me = some pk)
    (hsig : cr.verify pk .vertexCert (signingBytes v) sig = true)
    (hhash : v.hash = contentHash cr v) {sigs : Std.TreeMap ValidatorId BlsSig}
    (hsigs : sigs.toList = [(me, sig)]) :
    ∃ cv, assembleCert cr v set (contributors set sigs) = .ok cv ∧
      verifyCertifiedVertex cr cv set = .ok () := by
  obtain ⟨i, e, hi, hlt, he, hentry⟩ := h.index
  obtain ⟨agg, hagg⟩ := hsingle pk _ _ _ hsig
  have hkey : cr.pkFromBytes e.blsPubkey = some pk := by
    simpa [pkFor, hentry] using hpk
  have hcon : contributors set sigs = [(i, sig)] := by
    simp [contributors, hsigs, hi]
  have hbad : ¬ set.entries.length ≤ i := Nat.not_le_of_lt hlt
  have hone : toU32 1 = some 1 := by decide
  refine ⟨⟨v, ⟨agg, Bitmap.setAll (Bitmap.zeros set.entries.length) [i]⟩⟩, ?_, ?_⟩
  · simp [assembleCert, h.length, h.threshold, hcon, hbad, hagg, hone]
  · have hverify : cr.verifyAggregate [pk] .vertexCert (signingBytes v) agg = true :=
      hcomplete [pk] [sig] _ _ _ (by simp) (by simpa using hsig) hagg
    have hbits : (List.range set.entries.length).filter
        (Bitmap.test (Bitmap.setAll (Bitmap.zeros set.entries.length) [i])) = [i] := by
      have htest : Bitmap.test (Bitmap.setAll (Bitmap.zeros set.entries.length) [i]) =
          fun j => decide (j ∈ [i]) := by
        funext j
        exact Bitmap.test_setAll_zeros _ j [i] (by simpa using hlt)
      rw [htest]
      exact filter_range_single hlt h.small
    simp [verifyCertifiedVertex, hhash, h.length, h.threshold, bitmapIndices, hbits, certKeys, he,
      hkey, hverify, hone, Except.map]

theorem seedProposal_below {round : Round} {book : VertexBook} {p : VertexProposal}
    (hbelow : HashesBelow cr round book) (hhash : p.vertex.hash = contentHash cr p.vertex)
    (hauthor : p.vertex.author = book.selfId) (hround : p.vertex.round = round) (sig : BlsSig) :
    HashesBelow cr (round + 1) { seedProposal book round p sig with
      emittedCerts := insert p.vertex.hash book.emittedCerts } := by
  have hlt : p.vertex.round < round + 1 := hround ▸ Nat.lt_succ_self _
  have hold : ∀ h : Hash32, h ∈ book.emittedCerts ∨ book.collecting[h]? ≠ none →
      ∃ v : Vertex, v.author = book.selfId ∧ v.round < round + 1 ∧ contentHash cr v = h := by
    intro h hin
    obtain ⟨v, ha, hv, hvh⟩ := hbelow h hin
    exact ⟨v, ha, Nat.lt_succ_of_lt hv, hvh⟩
  intro h hin
  by_cases heq : p.vertex.hash = h
  · exact ⟨p.vertex, hauthor, hlt, heq ▸ hhash.symm⟩
  apply hold
  cases hin with
  | inl hemitted =>
    simp only [Finset.mem_insert] at hemitted
    exact Or.inl (hemitted.resolve_left fun h' => heq h'.symm)
  | inr hcoll =>
    simp only [seedProposal, Maps.get_insert, if_neg heq] at hcoll
    exact Or.inr hcoll

theorem recordCert_ahead {me : ValidatorId} {book : VertexBook} {cv : CertifiedVertex}
    (hst : book.started = true) (hself : book.selfId = me)
    (hbelow : HashesBelow cr (book.currentRound + 1) book)
    (hround : cv.vertex.round = book.currentRound) : Ahead cr me (recordCert book cv) := by
  refine ⟨hst, hself, hbelow, (book.certifiedByRound[cv.vertex.round]?.getD ∅).insert
    cv.vertex.author cv.vertex.hash, ?_, ?_⟩
  · simp [recordCert, hround]
  · exact Maps.one_le_size_insert _ _ _

section Diverge
variable {set : ValidatorSet} {me : ValidatorId} (halone : Alone set me)
  (hset : activeSet ctx = .ok set) (hapart : RoundsHashApart cr)
  (hcomplete : CompleteAggregates cr) (hsingle : AggregatesSingle cr)
  (hkey : HoldsKey cr set me ctx.signBls)

include halone hset hcomplete hsingle in
theorem tryFinalizeWith_own {adv : VertexBook → Result VertexBook} {book : VertexBook}
    {p : VertexProposal} {sigs : Std.TreeMap ValidatorId BlsSig} {pk : PublicKey} {sig : BlsSig}
    (hnew : p.vertex.hash ∉ book.emittedCerts)
    (hmine : book.myProposals[p.vertex.hash]? = some p)
    (hcoll : book.collecting[p.vertex.hash]? = some sigs) (hsigs : sigs.toList = [(me, sig)])
    (hpk : pkFor cr set me = some pk)
    (hsig : cr.verify pk .vertexCert (signingBytes p.vertex) sig = true)
    (hhash : p.vertex.hash = contentHash cr p.vertex) :
    ∃ cv : CertifiedVertex, cv.vertex = p.vertex ∧
      tryFinalizeWith cr ctx adv p.vertex.hash book =
        (Outcome.ok (recordCert
          { book with emittedCerts := insert p.vertex.hash book.emittedCerts } cv)
          [.broadcastCertifiedVertex cv]).andThen adv := by
  obtain ⟨cv, hcv, hver⟩ := halone.certificate hcomplete hsingle hpk hsig hhash hsigs
  have hsize : ¬ sigs.size < 1 := by
    rw [← Std.TreeMap.length_toList, hsigs]
    simp
  refine ⟨cv, assembleCert_vertex hcv, ?_⟩
  simp only [tryFinalizeWith, if_neg hnew, hmine, hset, halone.quorumNeed, hcoll, if_neg hsize,
    hcv, hver]

include halone hset in
theorem maybeAdvanceWith_overflow {loop : Nat → VertexBook → Result VertexBook}
    (hloop : ∀ book, Ahead cr me book → (loop 1 book).result = .error .overflow)
    {book : VertexBook} (h : Ahead cr me book) :
    (maybeAdvanceWith ctx loop book).result = .error .overflow := by
  simp only [maybeAdvanceWith, h.started, hset, halone.quorumNeed, Bool.not_true]
  rw [if_neg (by simp), Outcome.andThen_error_iff]
  exact Or.inl (hloop book h)

include halone hset hapart hcomplete hsingle hkey

/-- The own proposal is certified at once, and the next call is made in a round ahead. -/
theorem proposeRoundWith_overflow {adv : VertexBook → Result VertexBook}
    (hadv : ∀ book, Ahead cr me book → (adv book).result = .error .overflow) (round : Round)
    (parents : List Hash32) {book : VertexBook} (hst : book.started = true)
    (hself : book.selfId = me) (hbelow : HashesBelow cr round book) :
    (proposeRoundWith cr cfg ctx adv round parents book).result = .error .overflow := by
  obtain ⟨pk, hpk, hver⟩ := hkey
  have hnew : ¬ ((ownVertex cr ctx book round parents).hash ∈ book.emittedCerts ∨
      book.collecting[(ownVertex cr ctx book round parents).hash]? ≠ none) := by
    intro hold
    obtain ⟨v, ha, hlt, hv⟩ := hbelow _ hold
    have hround : v.round = round := hapart v (ownVertex cr ctx book round parents) ha hv
    exact absurd hround (Nat.ne_of_lt hlt)
  rw [not_or, not_not] at hnew
  unfold proposeRoundWith
  dsimp only
  generalize hv : ownVertex cr ctx book round parents = v at hnew ⊢
  have hhash : v.hash = contentHash cr v := by rw [← hv]; rfl
  have hround : v.round = round := by rw [← hv]; rfl
  have hauthor : v.author = book.selfId := by rw [← hv]; rfl
  generalize hp : VertexProposal.mk v (ctx.signBls .vertexProposal (signingBytes v)) = p
  have hpv : p.vertex = v := by rw [← hp]
  rw [← hpv] at hnew hhash hround hauthor ⊢
  have hcoll : (seedProposal book round p (ctx.signBls .vertexCert
      (signingBytes p.vertex))).collecting[p.vertex.hash]? =
      some ((∅ : Std.TreeMap ValidatorId BlsSig).insert me
        (ctx.signBls .vertexCert (signingBytes p.vertex))) := by
    simp [seedProposal, hnew.2, hself]
  obtain ⟨cv, hcv, heq⟩ := @tryFinalizeWith_own cr ctx set me halone hset hcomplete hsingle adv
    (seedProposal book round p (ctx.signBls .vertexCert (signingBytes p.vertex))) p _ pk _
    hnew.1 (by simp [seedProposal]) hcoll (Maps.toList_singleton _ _) hpk (hver _) hhash
  rw [Outcome.andThen_error_iff]
  refine Or.inr ⟨_, rfl, ?_⟩
  dsimp only
  rw [heq, Outcome.andThen_error_iff]
  refine Or.inr ⟨_, rfl, hadv _ (recordCert_ahead hst hself ?_ ?_)⟩
  · exact seedProposal_below hbelow hhash hauthor hround _
  · rw [hcv]
    exact hround

theorem advanceLoop_overflow (fuel : Nat) {book : VertexBook} (h : Ahead cr me book) :
    (advanceLoop cr cfg ctx fuel 1 book).result = .error .overflow := by
  induction fuel generalizing book with
  | zero => rfl
  | succ fuel ih =>
    obtain ⟨certs, hcerts, hsize⟩ := h.certified
    -- the proposal certifies itself, and the book is `Ahead` again, one round later
    have hadv : ∀ book, Ahead cr me book →
        (maybeAdvanceWith ctx (advanceLoop cr cfg ctx fuel) book).result = .error .overflow :=
      fun book hbook => maybeAdvanceWith_overflow halone hset (fun _ => ih) hbook
    simp only [advanceLoop, hcerts, if_neg (Nat.not_lt_of_le hsize)]
    rw [Outcome.andThen_error_iff]
    exact Or.inl (proposeRoundWith_overflow halone hset hapart hcomplete hsingle hkey hadv _ _
      h.started h.selfId h.below)

theorem genesisPropose_overflow (k : Nat) :
    (genesisPropose cr cfg (ctx.withFuel k) (VertexBook.new me)).result = .error .overflow := by
  have heq : genesisPropose cr cfg (ctx.withFuel k) (VertexBook.new me) =
      proposeRoundWith cr cfg ctx (maybeAdvanceWith ctx (advanceLoop cr cfg ctx k)) 0 []
        { VertexBook.new me with started := true } := by
    rw [genesisPropose, if_neg (by simp [VertexBook.new]), proposeRound, maybeAdvance_withFuel]
    rfl
  rw [heq]
  refine proposeRoundWith_overflow halone hset hapart hcomplete hsingle hkey ?_ 0 [] rfl rfl ?_
  · intro book hbook
    refine maybeAdvanceWith_overflow halone hset ?_ hbook
    intro book hbook
    exact advanceLoop_overflow halone hset hapart hcomplete hsingle hkey k hbook
  · intro h hin
    simp [VertexBook.new] at hin

end Diverge
end Advance
end VertexCert

open VertexCert

/-- In every reachable state, the three entry points of L1 return under this set. -/
def AdvancementTerminates (cr : Crypto) (self : ValidatorId) (set : ValidatorSet)
    (sign : Dst → Bytes → BlsSig) : Prop :=
  ∀ (cfg : Config) (is : List StateMachine.Input) (ctx : HostContext), activeSet ctx = .ok set →
    ctx.signBls = sign →
    (Terminates fun k => genesisPropose cr cfg (ctx.withFuel k)
      (StateMachine.reached cr cfg self is).vertices) ∧
    (∀ bp, Terminates fun k => onVertexPartial cr cfg (ctx.withFuel k) bp
      (StateMachine.reached cr cfg self is).vertices) ∧
    ∀ cv, Terminates fun k => onCertifiedVertex cr cfg (ctx.withFuel k) cv
      (StateMachine.reached cr cfg self is).vertices

theorem terminates_of_four {set : ValidatorSet} (hlen : 4 ≤ set.entries.length) (cr : Crypto)
    (self : ValidatorId) (sign : Dst → Bytes → BlsSig) :
    AdvancementTerminates cr self set sign := by
  intro cfg is ctx hset _
  have hquorum : ∀ need, quorumNeed set = .ok need → 2 ≤ need := by
    intro need hneed
    unfold quorumNeed toU32 quorumThreshold at hneed
    split at hneed
    · cases hneed
    rename_i n hn
    split at hn
    · cases hn
      cases hneed
      omega
    · cases hn
  exact ⟨genesisPropose_terminates hset hquorum _,
    fun bp => onVertexPartial_terminates hset hquorum bp _,
    fun cv => onCertifiedVertex_terminates hset hquorum cv _⟩

theorem not_terminates_alone {cr : Crypto} {self : ValidatorId} {set : ValidatorSet}
    {sign : Dst → Bytes → BlsSig} (halone : Alone set self) (hkey : HoldsKey cr set self sign)
    (hapart : RoundsHashApart cr) (hcomplete : CompleteAggregates cr)
    (hsingle : AggregatesSingle cr) : ¬ AdvancementTerminates cr self set sign := by
  intro h
  let ctx : HostContext := ⟨⟨fun _ => .ok none, fun _ => .ok []⟩, fun _ => .ok (some set),
    .ok Hash32.zero, sign, fun _ => .ok (⟨0⟩, Hash32.zero), fun _ => [], 0⟩
  obtain ⟨⟨n, hret, -⟩, -⟩ := h Config.defaultTable171 [] ctx rfl rfl
  exact hret (@genesisPropose_overflow cr _ ctx set self halone rfl hapart hcomplete hsingle
    hkey n)

/-- The mutual recursion of `propose_round`, `try_finalize` and `maybe_advance` ends if and
only if the own signature is no quorum, which takes four validators. -/
theorem advancement_terminates_iff (cr : Crypto) (self : ValidatorId) (set : ValidatorSet)
    (sign : Dst → Bytes → BlsSig) (hself : self ∈ set.entries.map (·.id))
    (hkey : HoldsKey cr set self sign) (hapart : RoundsHashApart cr)
    (hcomplete : CompleteAggregates cr) (hsingle : AggregatesSingle cr) :
    AdvancementTerminates cr self set sign ↔ 4 ≤ set.entries.length := by
  refine ⟨?_, fun hlen => terminates_of_four hlen cr self sign⟩
  intro hterm
  by_contra hlen
  exact not_terminates_alone ⟨hself, by omega⟩ hkey hapart hcomplete hsingle hterm

section Devnet
open Devnet

theorem holdsKey_devnet {set : ValidatorSet} (hset : entryFor set ⟨0⟩ = some (entry 0)) :
    HoldsKey openCrypto set ⟨0⟩ fun _ _ => sigOf ⟨0⟩ := by
  refine ⟨⟨0⟩, ?_, fun msg => rfl⟩
  rw [pkFor, hset]
  rfl

theorem advancement_terminates_devnet :
    AdvancementTerminates openCrypto ⟨0⟩ validators (fun _ _ => sigOf ⟨0⟩) :=
  (advancement_terminates_iff openCrypto ⟨0⟩ validators (fun _ _ => sigOf ⟨0⟩) (by decide)
    (holdsKey_devnet rfl) (roundsHashApart _) (completeAggregates _) (aggregatesSingle _)).mpr
    (by decide)

def singleton : ValidatorSet := ⟨0, [entry 0], 1⟩

theorem advancement_never_returns :
    ⟨0⟩ ∈ singleton.entries.map (·.id) ∧
      ¬ AdvancementTerminates openCrypto ⟨0⟩ singleton fun _ _ => sigOf ⟨0⟩ :=
  ⟨by decide, not_terminates_alone ⟨by decide, by decide⟩ (holdsKey_devnet rfl)
    (roundsHashApart _) (completeAggregates _) (aggregatesSingle _)⟩

end Devnet
end LuaDag
