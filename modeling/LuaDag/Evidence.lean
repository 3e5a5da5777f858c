import LuaDag.StateMachine
import LuaDag.Devnet

/-! Slashing evidence and its verifier (`consensus::slashing`): what an accepted bundle says
about the accused validator. -/
namespace LuaDag
open VertexCert MacroFin

namespace Slashing
section Verify
variable (cr : Crypto) (set : ValidatorSet)

def accusedKey (id : ValidatorId) : Except Error PublicKey :=
  match entryFor set id with
  | none => .error (.invalidConfig "unknown validator")
  | some entry =>
    match cr.pkFromBytes entry.blsPubkey with
    | none => .error (.invalidConfig "invalid bls pubkey")
    | some pk => .ok pk

def verifyMacroEquivocation (ev : MacroEquivocation) : Except Error Unit :=
  match accusedKey cr set ev.validator with
  | .error e => .error e
  | .ok pk =>
    if ev.a.1.height ≠ ev.b.1.height ∨ ev.a.1.hash = ev.b.1.hash then
      .error (.invalidConfig "equivocation checkpoints must share height and differ in hash")
    else if [ev.a, ev.b].all fun c =>
        cr.verify pk .macroProposerSig (proposerMessage ev.validator c.1) c.2 then .ok ()
    else .error (.invalidConfig "invalid proposer sig")

def verifyVertexEquivocation (ev : VertexEquivocation) : Except Error Unit :=
  match accusedKey cr set ev.validator with
  | .error e => .error e
  | .ok pk =>
    if ev.a.1.author ≠ ev.validator ∨ ev.b.1.author ≠ ev.validator then
      .error (.invalidConfig "equivocation vertices must be authored by the offender")
    else if ev.a.1.round ≠ ev.b.1.round ∨ ev.a.1.hash = ev.b.1.hash then
      .error (.invalidConfig "equivocation vertices must share round and differ in hash")
    else if [ev.a, ev.b].all fun v => cr.verify pk .vertexProposal (signingBytes v.1) v.2 then
      .ok ()
    else .error (.invalidConfig "invalid proposer sig")

def votesSigned (pk : PublicKey) (votes : List VoteRecord) : Except Error Unit :=
  if votes.all fun r => cr.verify pk .macroVote (voteMessage r) r.sig then .ok ()
  else .error (.invalidConfig "invalid vote sig")

/-- `double_vote::verify`: the source epochs are taken to be those before the target. -/
def verifyDoubleVote (ev : DoubleVote) : Except Error Unit :=
  if ev.aCheckpoint = ev.bCheckpoint then
    .error (.invalidConfig "double vote requires distinct checkpoints")
  else
    match accusedKey cr set ev.validator with
    | .error e => .error e
    | .ok pk => votesSigned cr pk [⟨ev.target - 1, ev.target, ev.aCheckpoint, ev.aSig⟩,
        ⟨ev.target - 1, ev.target, ev.bCheckpoint, ev.bSig⟩]

def verifySurround (ev : SurroundVote) : Except Error Unit :=
  if !surrounds ev.aSource ev.aTarget ev.bSource ev.bTarget then
    .error (.invalidConfig "not a surround relation")
  else
    match accusedKey cr set ev.validator with
    | .error e => .error e
    | .ok pk => votesSigned cr pk [⟨ev.aSource, ev.aTarget, ev.aCheckpoint, ev.aSig⟩,
        ⟨ev.bSource, ev.bTarget, ev.bCheckpoint, ev.bSig⟩]

def verifyEvidence (ev : SlashEvidence) : Except Error Unit :=
  match ev with
  | .macroEquivocation e => verifyMacroEquivocation cr set e
  | .surround e => verifySurround cr set e
  | .doubleVote e => verifyDoubleVote cr set e
  | .vertexEquivocation e => verifyVertexEquivocation cr set e

end Verify

section Accepted
variable {cr : Crypto} {set : ValidatorSet}

theorem accusedKey_ok {id : ValidatorId} {pk : PublicKey} :
    accusedKey cr set id = .ok pk ↔ pkFor cr set id = some pk := by
  unfold accusedKey pkFor
  cases entryFor set id with
  | none => simp
  | some entry =>
    dsimp only [Option.bind_some]
    cases cr.pkFromBytes entry.blsPubkey with
    | none => simp
    | some pk' => simp

theorem verifyMacroEquivocation_ok {ev : MacroEquivocation} :
    verifyMacroEquivocation cr set ev = .ok () ↔
      ∃ pk, pkFor cr set ev.validator = some pk ∧ ev.a.1.height = ev.b.1.height ∧
        ev.a.1.hash ≠ ev.b.1.hash ∧
        cr.verify pk .macroProposerSig (proposerMessage ev.validator ev.a.1) ev.a.2 = true ∧
        cr.verify pk .macroProposerSig (proposerMessage ev.validator ev.b.1) ev.b.2 = true := by
  unfold verifyMacroEquivocation
  cases hkey : accusedKey cr set ev.validator with
  | error e =>
    have hnone : ∀ pk, pkFor cr set ev.validator ≠ some pk := by
      intro pk hpk
      rw [accusedKey_ok.mpr hpk] at hkey
      cases hkey
    simp [hnone]
  | ok pk =>
    have hpk := accusedKey_ok.mp hkey
    by_cases hshape : ev.a.1.height ≠ ev.b.1.height ∨ ev.a.1.hash = ev.b.1.hash
    · dsimp only
      rw [if_pos hshape]
      simp only [hpk, Option.some.injEq, exists_eq_left', reduceCtorEq, false_iff]
      rintro ⟨hheight, hhash, -⟩
      exact hshape.elim (fun h => h hheight) hhash
    · dsimp only
      rw [if_neg hshape]
      obtain ⟨hheight, hhash⟩ := not_or.mp hshape
      simp [hpk, not_not.mp hheight, hhash]

theorem verifyVertexEquivocation_ok {ev : VertexEquivocation} :
    verifyVertexEquivocation cr set ev = .ok () ↔
      ∃ pk, pkFor cr set ev.validator = some pk ∧ ev.a.1.author = ev.validator ∧
        ev.b.1.author = ev.validator ∧ ev.a.1.round = ev.b.1.round ∧ ev.a.1.hash ≠ ev.b.1.hash ∧
        cr.verify pk .vertexProposal (signingBytes ev.a.1) ev.a.2 = true ∧
        cr.verify pk .vertexProposal (signingBytes ev.b.1) ev.b.2 = true := by
  unfold verifyVertexEquivocation
  cases hkey : accusedKey cr set ev.validator with
  | error e =>
    have hnone : ∀ pk, pkFor cr set ev.validator ≠ some pk := by
      intro pk hpk
      rw [accusedKey_ok.mpr hpk] at hkey
      cases hkey
    simp [hnone]
  | ok pk =>
    have hpk := accusedKey_ok.mp hkey
    by_cases hauthor : ev.a.1.author ≠ ev.validator ∨ ev.b.1.author ≠ ev.validator
    · dsimp only
      rw [if_pos hauthor]
      simp only [hpk, Option.some.injEq, exists_eq_left', reduceCtorEq, false_iff]
      rintro ⟨ha, hb, -⟩
      exact hauthor.elim (fun h => h ha) fun h => h hb
    · obtain ⟨ha, hb⟩ := not_or.mp hauthor
      by_cases hshape : ev.a.1.round ≠ ev.b.1.round ∨ ev.a.1.hash = ev.b.1.hash
      · dsimp only
        rw [if_neg hauthor, if_pos hshape]
        simp only [hpk, Option.some.injEq, exists_eq_left', reduceCtorEq, false_iff]
        rintro ⟨-, -, hround, hhash, -⟩
        exact hshape.elim (fun h => h hround) hhash
      · obtain ⟨hround, hhash⟩ := not_or.mp hshape
        dsimp only
        rw [if_neg hauthor, if_neg hshape]
        simp [hpk, not_not.mp ha, not_not.mp hb, not_not.mp hround, hhash]

theorem votesSigned_ok {pk : PublicKey} {votes : List VoteRecord} :
    votesSigned cr pk votes = .ok () ↔
      ∀ r ∈ votes, cr.verify pk .macroVote (voteMessage r) r.sig = true := by
  unfold votesSigned
  split
  · rename_i h
    simpa using h
  · rename_i h
    simpa using h

theorem verifyDoubleVote_ok {ev : DoubleVote} (hne : ev.aCheckpoint ≠ ev.bCheckpoint)
    {pk : PublicKey} (hpk : pkFor cr set ev.validator = some pk)
    (hvotes : ∀ r ∈ [(⟨ev.target - 1, ev.target, ev.aCheckpoint, ev.aSig⟩ : VoteRecord),
      ⟨ev.target - 1, ev.target, ev.bCheckpoint, ev.bSig⟩],
        cr.verify pk .macroVote (voteMessage r) r.sig = true) :
    verifyDoubleVote cr set ev = .ok () := by
  unfold verifyDoubleVote
  rw [if_neg hne, accusedKey_ok.mpr hpk]
  exact votesSigned_ok.mpr hvotes

theorem verifySurround_ok {ev : SurroundVote}
    (hsur : surrounds ev.aSource ev.aTarget ev.bSource ev.bTarget = true)
    {pk : PublicKey} (hpk : pkFor cr set ev.validator = some pk)
    (hvotes : ∀ r ∈ [(⟨ev.aSource, ev.aTarget, ev.aCheckpoint, ev.aSig⟩ : VoteRecord),
      ⟨ev.bSource, ev.bTarget, ev.bCheckpoint, ev.bSig⟩],
        cr.verify pk .macroVote (voteMessage r) r.sig = true) :
    verifySurround cr set ev = .ok () := by
  unfold verifySurround
  rw [hsur, accusedKey_ok.mpr hpk]
  exact votesSigned_ok.mpr hvotes

end Accepted
end Slashing

def SlashEvidence.accused : SlashEvidence → ValidatorId
  | .macroEquivocation e => e.validator
  | .surround e => e.validator
  | .doubleVote e => e.validator
  | .vertexEquivocation e => e.validator

end LuaDag
