import LuaDag.Devnet

/-! The round arithmetic of L1 and L2 in 64 bits: the functions that add to a round taken from a
message or a wave, with additions that panic as the source's do, and where they do not. -/
namespace LuaDag
namespace Checked

def add (a b : Nat) : Option Nat := if a + b < 2 ^ 64 then some (a + b) else none

theorem add_of_lt {a b : Nat} (h : a + b < 2 ^ 64) : add a b = some (a + b) := if_pos h

theorem add_of_le {a b : Nat} (h : 2 ^ 64 ≤ a + b) : add a b = none := if_neg (by omega)

/- L1. -/

/-- Accept messages only for rounds near our own (anti-spam memory bound). -/
def roundInWindow (book : VertexBook) (round : Round) : Option Bool :=
  match add round 1 with
  | none => none
  | some next =>
    if book.currentRound ≤ next then
      (add book.currentRound 1).map fun last => decide (round ≤ last)
    else some false

def onVertexProposal (cr : Crypto) (p : VertexProposal) (ctx : HostContext)
    (book : VertexBook) : Option (Result VertexBook) :=
  match activeSet ctx with
  | .error e => some (.fail book e)
  | .ok set =>
    let rejected := { book with rejectedCrypto := book.rejectedCrypto + 1 }
    if p.vertex.hash ≠ contentHash cr p.vertex then some (.quiet rejected)
    else if !VertexCert.verifyProposal cr set p then some (.quiet rejected)
    else if p.vertex.author = book.selfId then some (.quiet book)
    else
      match roundInWindow book p.vertex.round with
      | none => none
      | some false => some (.quiet book)
      | some true =>
        let round := p.vertex.round
        let author := p.vertex.author
        match book.proposalsSeen[toLex (round, author)]? with
        | some (first :: rest) =>
          if (first :: rest).any (·.vertex.hash ≠ p.vertex.hash) then
            some (.ok book [.emitSlashEvidence author (.vertexEquivocation
              ⟨author, (first.vertex, first.proposerSig), (p.vertex, p.proposerSig)⟩)])
          else some (VertexCert.checkParentsAndVote set p ctx book)
        | some [] => some (VertexCert.checkParentsAndVote set p ctx book)
        | none =>
          some (VertexCert.checkParentsAndVote set p ctx
            { book with proposalsSeen := book.proposalsSeen.insert (toLex (round, author)) [p] })

/-- The rounds that the window of a book can be asked about. -/
structure Fits (book : VertexBook) (round : Nat) : Prop where
  next : round + 1 < 2 ^ 64
  last : book.currentRound ≤ round + 1 → book.currentRound + 1 < (2 ^ 64 : Nat)

theorem roundInWindow_eq {book : VertexBook} {round : Nat} (h : Fits book round) :
    roundInWindow book round = some (VertexCert.roundInWindow book round) := by
  unfold roundInWindow VertexCert.roundInWindow
  rw [add_of_lt h.next]
  by_cases hnear : book.currentRound ≤ round + 1
  · simp [hnear, add_of_lt (h.last hnear)]
  · simp [hnear]

theorem roundInWindow_none {book : VertexBook} {round : Nat} (h : ¬ Fits book round) :
    roundInWindow book round = none := by
  unfold roundInWindow
  by_cases hnext : round + 1 < 2 ^ 64
  · have hlast : ¬ (book.currentRound ≤ round + 1 → book.currentRound + 1 < (2 ^ 64 : Nat)) :=
      fun hlast => h ⟨hnext, hlast⟩
    obtain ⟨hnear, hover⟩ := Classical.not_imp.mp hlast
    simp [add_of_lt hnext, hnear, add_of_le (Nat.not_lt.mp hover)]
  · simp [add_of_le (Nat.not_lt.mp hnext)]

section Proposal
variable {cr : Crypto} {p : VertexProposal} {ctx : HostContext} {set : ValidatorSet}
  {book : VertexBook}

theorem onVertexProposal_of_fits (h : p.vertex.author = book.selfId ∨ Fits book p.vertex.round) :
    onVertexProposal cr p ctx book = some (VertexCert.onVertexProposal cr p ctx book) := by
  unfold onVertexProposal VertexCert.onVertexProposal
  cases activeSet ctx with
  | error e => rfl
  | ok set =>
    dsimp only
    split
    · rfl
    split
    · rfl
    split
    · rfl
    rename_i hother
    rw [roundInWindow_eq (h.resolve_left hother)]
    cases VertexCert.roundInWindow book p.vertex.round with
    | false => rfl
    | true =>
      cases book.proposalsSeen[toLex (p.vertex.round, p.vertex.author)]? with
      | none => rfl
      | some seen =>
        cases seen with
        | nil => rfl
        | cons first rest =>
          dsimp only [Bool.not_true]
          exact (apply_ite some _ _ _).symm

theorem onVertexProposal_of_not_fits (hset : activeSet ctx = .ok set)
    (hhash : p.vertex.hash = contentHash cr p.vertex)
    (hsig : VertexCert.verifyProposal cr set p = true) (hother : p.vertex.author ≠ book.selfId)
    (h : ¬ Fits book p.vertex.round) : onVertexProposal cr p ctx book = none := by
  unfold onVertexProposal
  simp only [hset, hsig, hother, roundInWindow_none h]
  simp [hhash]

end Proposal

/- L2. -/

open Bullshark (addSupporters vertexReaches)

def countSupporters (anchorHash : Hash32) (anchorRound : Round) (ctx : HostContext) :
    Nat → Option (Except Error (Finset ValidatorId))
  | 0 => some (.ok ∅)
  | window + 1 =>
    match countSupporters anchorHash anchorRound ctx window with
    | none => none
    | some (.error e) => some (.error e)
    | some (.ok supporters) =>
      match add anchorRound (window + 1) with
      | none => none
      | some round =>
        match ctx.dag.verticesAtRound round with
        | .error e => some (.error e)
        | .ok vs => some (addSupporters anchorHash ctx vs supporters)

/-- The view fails to list `round`, or to search below one of its vertices. -/
def Unreadable (anchorHash : Hash32) (ctx : HostContext) (round : Round) : Prop :=
  ∀ vs, ctx.dag.verticesAtRound round = .ok vs →
    ∃ v ∈ vs, ∃ e, vertexReaches v anchorHash ctx = .error e

section Count
variable {anchorHash : Hash32} {ctx : HostContext} {r : Nat}

theorem addSupporters_error_iff {vs : List CertifiedVertex} {supporters : Finset ValidatorId} :
    (∃ e, addSupporters anchorHash ctx vs supporters = .error e) ↔
      ∃ v ∈ vs, ∃ e, vertexReaches v anchorHash ctx = .error e := by
  induction vs generalizing supporters with
  | nil => simp [addSupporters]
  | cons v vs ih =>
    unfold addSupporters
    cases hv : vertexReaches v anchorHash ctx with
    | error e => simp [hv]
    | ok reaches => simp [hv, ih]

/-- The count over a window fails where a round of the window cannot be read. -/
theorem count_error_iff {window : Nat} :
    (∃ e, Bullshark.countSupporters anchorHash r ctx window = .error e) ↔
      ∃ k, 1 ≤ k ∧ k ≤ window ∧ Unreadable anchorHash ctx (r + k) := by
  induction window with
  | zero =>
    constructor
    · intro ⟨e, he⟩
      cases he
    · intro ⟨k, hk, hle, _⟩
      omega
  | succ window ih =>
    have hsplit : (∃ k, 1 ≤ k ∧ k ≤ window + 1 ∧ Unreadable anchorHash ctx (r + k)) ↔
        (∃ k, 1 ≤ k ∧ k ≤ window ∧ Unreadable anchorHash ctx (r + k)) ∨
          Unreadable anchorHash ctx (r + (window + 1)) := by
      constructor
      · intro ⟨k, hk, hle, hfail⟩
        cases Nat.lt_or_eq_of_le hle with
        | inl hlt => exact .inl ⟨k, hk, Nat.le_of_lt_succ hlt, hfail⟩
        | inr heq => exact .inr (heq ▸ hfail)
      · intro h
        cases h with
        | inl hbefore =>
          obtain ⟨k, hk, hle, hfail⟩ := hbefore
          exact ⟨k, hk, hle.trans (Nat.le_succ _), hfail⟩
        | inr hlast => exact ⟨window + 1, by omega, le_rfl, hlast⟩
    rw [hsplit, ← ih]
    cases hcount : Bullshark.countSupporters anchorHash r ctx window with
    | error e => simp [Bullshark.countSupporters, hcount]
    | ok supporters =>
      simp only [Bullshark.countSupporters, hcount, Unreadable]
      cases ctx.dag.verticesAtRound (r + (window + 1)) with
      | error e => simp
      | ok vs => simp [addSupporters_error_iff]

theorem countSupporters_some {window : Nat} {count : Except Error (Finset ValidatorId)}
    (h : countSupporters anchorHash r ctx window = some count) :
    count = Bullshark.countSupporters anchorHash r ctx window := by
  induction window generalizing count with
  | zero => exact (Option.some.inj h).symm
  | succ window ih =>
    unfold countSupporters at h
    unfold Bullshark.countSupporters
    cases hprev : countSupporters anchorHash r ctx window with
    | none => simp [hprev] at h
    | some prev =>
      rw [hprev] at h
      rw [← ih hprev]
      cases prev with
      | error e => exact (Option.some.inj h).symm
      | ok supporters =>
        by_cases hfits : r + (window + 1) < 2 ^ 64
        · simp only [add_of_lt hfits] at h
          cases hvs : ctx.dag.verticesAtRound (r + (window + 1)) with
          | error e => simpa [hvs] using h.symm
          | ok vs => simpa [hvs] using h.symm
        · simp [add_of_le (Nat.not_lt.mp hfits)] at h

/-- No round is added up beyond 64 bits unless the count has failed before. -/
theorem countSupporters_isSome_iff {window : Nat} :
    (countSupporters anchorHash r ctx window).isSome ↔
      ∀ k < window, 2 ^ 64 ≤ r + (k + 1) →
        ∃ e, Bullshark.countSupporters anchorHash r ctx k = .error e := by
  induction window with
  | zero => simp [countSupporters]
  | succ window ih =>
    rw [Nat.forall_lt_succ_right, ← ih]
    cases hprev : countSupporters anchorHash r ctx window with
    | none => simp [countSupporters, hprev]
    | some prev =>
      rw [← countSupporters_some hprev]
      cases prev with
      | error e => simp [countSupporters, hprev]
      | ok supporters =>
        simp only [countSupporters, hprev]
        by_cases hfits : r + (window + 1) < 2 ^ 64
        · simp only [add_of_lt hfits]
          cases ctx.dag.verticesAtRound (r + (window + 1)) <;> simpa using hfits
        · simpa [add_of_le (Nat.not_lt.mp hfits)] using hfits

/-- The window ends within 64 bits, or the count fails at a round that does. -/
theorem countSupporters_eq_iff (hr : r < 2 ^ 64) {window : Nat} :
    countSupporters anchorHash r ctx window =
        some (Bullshark.countSupporters anchorHash r ctx window) ↔
      r + window < 2 ^ 64 ∨
        ∃ k, 1 ≤ k ∧ k ≤ window ∧ r + k < 2 ^ 64 ∧ Unreadable anchorHash ctx (r + k) := by
  have hsome : countSupporters anchorHash r ctx window =
      some (Bullshark.countSupporters anchorHash r ctx window) ↔
        (countSupporters anchorHash r ctx window).isSome := by
    constructor
    · intro h
      rw [h]
      rfl
    · intro h
      obtain ⟨count, hcount⟩ := Option.isSome_iff_exists.mp h
      rw [hcount, countSupporters_some hcount]
  rw [hsome, countSupporters_isSome_iff]
  simp only [count_error_iff]
  constructor
  · intro h
    by_cases hfits : r + window < 2 ^ 64
    · exact .inl hfits
    · have hfail := h (2 ^ 64 - 1 - r) (by omega) (by omega)
      obtain ⟨k, hk, hle, hbad⟩ := hfail
      exact .inr ⟨k, hk, by omega, by omega, hbad⟩
  · intro h k hlt hover
    cases h with
    | inl hfits => omega
    | inr hfail =>
      obtain ⟨j, hj, -, hlow, hbad⟩ := hfail
      exact ⟨j, hj, by omega, hbad⟩

end Count

open Bullshark (firstRound waveOfRound)

/-- Where the additions stay within 64 bits, for a node in any state of any run, any proposal with
a valid hash and signature and any window over a wave: the proposal is the node's own or its round
and the window of the book can be added to; the window over the wave ends within 64 bits, or the
view cannot be read before that. -/
theorem within_u64_iff (cr : Crypto) (cfg : Config) (self : ValidatorId)
    (is : List StateMachine.Input) (p : VertexProposal) (ctx : HostContext) (set : ValidatorSet)
    (hset : activeSet ctx = .ok set) (hhash : p.vertex.hash = contentHash cr p.vertex)
    (hsig : VertexCert.verifyProposal cr set p = true) (anchorHash : Hash32) (window r : Nat)
    (hr : r < 2 ^ 64) :
    let book := (StateMachine.reached cr cfg self is).vertices
    let anchorRound : Nat := firstRound (waveOfRound r)
    (onVertexProposal cr p ctx book = some (VertexCert.onVertexProposal cr p ctx book) ↔
      p.vertex.author = book.selfId ∨ Fits book p.vertex.round) ∧
    (countSupporters anchorHash anchorRound ctx window =
        some (Bullshark.countSupporters anchorHash anchorRound ctx window) ↔
      anchorRound + window < 2 ^ 64 ∨ ∃ k, 1 ≤ k ∧ k ≤ window ∧ anchorRound + k < 2 ^ 64 ∧
        Unreadable anchorHash ctx (anchorRound + k)) := by
  intro book anchorRound
  have hanchor : anchorRound < 2 ^ 64 := (Nat.div_mul_le_self r 4).trans_lt hr
  refine ⟨⟨?_, onVertexProposal_of_fits⟩, countSupporters_eq_iff hanchor⟩
  intro h
  by_contra hbad
  obtain ⟨hother, hover⟩ := not_or.mp hbad
  rw [onVertexProposal_of_not_fits hset hhash hsig hother hover] at h
  cases h

def proposalOf (round author : Nat) : VertexProposal :=
  ⟨⟨round, ⟨author⟩, [], [], Devnet.vertexHash round author⟩, Devnet.sigOf ⟨author⟩⟩

theorem within_u64_first_proposal :
    let book := (StateMachine.reached Devnet.openCrypto Devnet.config ⟨0⟩ []).vertices
    onVertexProposal Devnet.openCrypto (proposalOf 0 1) (Devnet.ports 0 0) book =
      some (VertexCert.onVertexProposal Devnet.openCrypto (proposalOf 0 1) (Devnet.ports 0 0)
        book) ∧
    countSupporters (Devnet.vertexHash 0 0) (firstRound (waveOfRound 3)) (Devnet.ports 0 0) 4 =
      some (Bullshark.countSupporters (Devnet.vertexHash 0 0) (firstRound (waveOfRound 3))
        (Devnet.ports 0 0) 4) := by
  have h := within_u64_iff Devnet.openCrypto Devnet.config ⟨0⟩ [] (proposalOf 0 1)
    (Devnet.ports 0 0) Devnet.validators rfl rfl rfl (Devnet.vertexHash 0 0) 4 3 (by decide)
  exact ⟨h.1.mpr (.inr ⟨by decide, fun _ => by decide⟩), h.2.mpr (.inl (by decide))⟩

/-- A fresh node panics on a valid proposal for the last round, and so does the slow path of the
default configuration at the last wave. -/
theorem last_round_overflows :
    let p := proposalOf (2 ^ 64 - 1) 1
    let book := (StateMachine.reached Devnet.openCrypto Devnet.config ⟨0⟩ []).vertices
    p.vertex.hash = contentHash Devnet.openCrypto p.vertex ∧
    VertexCert.verifyProposal Devnet.openCrypto Devnet.validators p = true ∧
    (onVertexProposal Devnet.openCrypto p (Devnet.ports 0 0) book).isNone = true ∧
    (countSupporters (Devnet.vertexHash 0 0) (firstRound (waveOfRound (2 ^ 64 - 1)))
      (Devnet.ports 0 0) Devnet.config.bullshark.slowPathRoundCount).isNone = true :=
  ⟨rfl, rfl, rfl, rfl⟩

end Checked
end LuaDag
