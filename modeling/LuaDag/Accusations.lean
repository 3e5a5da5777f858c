import LuaDag.Evidence
import LuaDag.Primitives

/-! Equivocation evidence against a validator that has signed what is on its log: when is it
right, and when can there be any. -/
namespace LuaDag
open VertexCert MacroFin Slashing

section Macro
variable (cr : Crypto)

/-- The log of a validator: there is a valid signature under its key on these messages and no
others. -/
def SignsOnly (set : ValidatorSet) (v : ValidatorId) (log : List SignReq) : Prop :=
  ∀ pk, pkFor cr set v = some pk → ∀ dst msg,
    (∃ sig, cr.verify pk dst msg sig = true) ↔ (dst, msg) ∈ log

def ProposedHash (log : List SignReq) (v : ValidatorId) (x : Hash32) : Prop :=
  (Dst.macroProposerSig, Bytes.idHash v x) ∈ log

/-- The hash of the checkpoint is that of its own fields. -/
def Genuine (cp : MacroCheckpoint) : Prop :=
  (build cr cp.height cp.epoch cp.parent cp.microRoot).hash = cp.hash

/-- It has proposed two different checkpoints of one height. -/
def TwoAtOneHeight (log : List SignReq) (v : ValidatorId) : Prop :=
  ∃ c d : MacroCheckpoint, Genuine cr c ∧ Genuine cr d ∧ c.height = d.height ∧ c.hash ≠ d.hash ∧
    ProposedHash log v c.hash ∧ ProposedHash log v d.hash

def OneHash (log : List SignReq) (v : ValidatorId) : Prop :=
  ∀ x y, ProposedHash log v x → ProposedHash log v y → x = y

variable {cr}

/-- Any two hashes that a known validator has proposed convict it: the heights are free. -/
theorem macro_convicted_iff {set : ValidatorSet} {v : ValidatorId} {log : List SignReq}
    (hsigs : SignsOnly cr set v log) :
    (∃ ev : MacroEquivocation, ev.validator = v ∧ verifyMacroEquivocation cr set ev = .ok ()) ↔
      pkFor cr set v ≠ none ∧ ¬ OneHash log v := by
  constructor
  · rintro ⟨ev, rfl, hok⟩
    obtain ⟨pk, hpk, -, hne, ha, hb⟩ := verifyMacroEquivocation_ok.mp hok
    refine ⟨by simp [hpk], fun hone => hne ?_⟩
    exact hone _ _ ((hsigs pk hpk _ _).mp ⟨_, ha⟩) ((hsigs pk hpk _ _).mp ⟨_, hb⟩)
  · rintro ⟨hknown, htwo⟩
    obtain ⟨pk, hpk⟩ := Option.ne_none_iff_exists'.mp hknown
    unfold OneHash at htwo
    push Not at htwo
    obtain ⟨x, y, hx, hy, hne⟩ := htwo
    obtain ⟨sx, hsx⟩ := (hsigs pk hpk _ _).mpr hx
    obtain ⟨sy, hsy⟩ := (hsigs pk hpk _ _).mpr hy
    -- both hashes are shown at height 0
    let at0 (h : Hash32) : MacroCheckpoint := ⟨0, 0, Hash32.zero, Hash32.zero, h⟩
    exact ⟨⟨v, (at0 x, sx), (at0 y, sy)⟩, rfl,
      verifyMacroEquivocation_ok.mpr ⟨pk, hpk, rfl, hne, hsx, hsy⟩⟩

/-- Every accepted bundle shows two proposals of one height iff there are such or no bundle is
accepted; and none is iff the validator is unknown or has proposed one hash at most. -/
theorem macro_equivocation_sound_iff {set : ValidatorSet} {v : ValidatorId} {log : List SignReq}
    (hsigs : SignsOnly cr set v log) :
    ((∀ ev : MacroEquivocation, ev.validator = v → verifyMacroEquivocation cr set ev = .ok () →
        TwoAtOneHeight cr log v) ↔
      pkFor cr set v = none ∨ TwoAtOneHeight cr log v ∨ OneHash log v) ∧
    ((∀ ev : MacroEquivocation, ev.validator = v → verifyMacroEquivocation cr set ev ≠ .ok ()) ↔
      pkFor cr set v = none ∨ OneHash log v) := by
  have hiff := macro_convicted_iff hsigs
  constructor
  · constructor
    · intro hsound
      by_cases hconv : ∃ ev : MacroEquivocation, ev.validator = v ∧
          verifyMacroEquivocation cr set ev = .ok ()
      · obtain ⟨ev, hv, hok⟩ := hconv
        exact Or.inr (Or.inl (hsound ev hv hok))
      · rw [hiff] at hconv
        tauto
    · intro hcond ev hv hok
      have hconv := hiff.mp ⟨ev, hv, hok⟩
      tauto
  · constructor
    · intro hnever
      have hno : ¬ ∃ ev : MacroEquivocation, ev.validator = v ∧
          verifyMacroEquivocation cr set ev = .ok () := fun ⟨ev, hv, hok⟩ => hnever ev hv hok
      rw [hiff] at hno
      tauto
    · intro hcond ev hv hok
      have hconv := hiff.mp ⟨ev, hv, hok⟩
      tauto

end Macro

section Vertex
variable {cr : Crypto} {set : ValidatorSet} {v : ValidatorId} {log : List SignReq}

/-- The validator has signed the vertex as a proposal. -/
def SignedVertex (log : List SignReq) (x : Vertex) : Prop :=
  (Dst.vertexProposal, signingBytes x) ∈ log

/-- It has proposed two different vertices of one round. -/
def TwoInOneRound (log : List SignReq) (v : ValidatorId) : Prop :=
  ∃ x y : Vertex, x.author = v ∧ y.author = v ∧ x.round = y.round ∧
    signingBytes x ≠ signingBytes y ∧ SignedVertex log x ∧ SignedVertex log y

theorem vertex_convicted_iff (hsigs : SignsOnly cr set v log) :
    (∃ ev : VertexEquivocation, ev.validator = v ∧ verifyVertexEquivocation cr set ev = .ok ()) ↔
      pkFor cr set v ≠ none ∧ ∃ x : Vertex, x.author = v ∧ SignedVertex log x := by
  constructor
  · rintro ⟨ev, rfl, hok⟩
    obtain ⟨pk, hpk, ha, -, -, -, hsig, -⟩ := verifyVertexEquivocation_ok.mp hok
    exact ⟨by simp [hpk], ev.a.1, ha, (hsigs pk hpk _ _).mp ⟨_, hsig⟩⟩
  · rintro ⟨hknown, x, hx, hsigned⟩
    obtain ⟨pk, hpk⟩ := Option.ne_none_iff_exists'.mp hknown
    obtain ⟨sig, hsig⟩ := (hsigs pk hpk _ _).mpr hsigned
    -- the same body under two hash fields
    let under (h : Nat) : Vertex := { x with hash := ⟨h⟩ }
    have hne : (under 0).hash ≠ (under 1).hash := by simp [under]
    exact ⟨⟨v, (under 0, sig), (under 1, sig)⟩, rfl,
      verifyVertexEquivocation_ok.mpr ⟨pk, hpk, hx, hx, rfl, hne, hsig, hsig⟩⟩

/-- Every accepted bundle shows two proposals of one round iff there are such or no bundle is
accepted; none is iff the validator is unknown or has never signed an own vertex; and a bundle
with different bodies is right. -/
theorem vertex_equivocation_sound_iff (hsigs : SignsOnly cr set v log) :
    ((∀ ev : VertexEquivocation, ev.validator = v →
        verifyVertexEquivocation cr set ev = .ok () → TwoInOneRound log v) ↔
      pkFor cr set v = none ∨ TwoInOneRound log v ∨
        ∀ x : Vertex, x.author = v → ¬ SignedVertex log x) ∧
    ((∀ ev : VertexEquivocation, ev.validator = v →
        verifyVertexEquivocation cr set ev ≠ .ok ()) ↔
      pkFor cr set v = none ∨ ∀ x : Vertex, x.author = v → ¬ SignedVertex log x) ∧
    (∀ ev : VertexEquivocation, ev.validator = v →
      verifyVertexEquivocation cr set ev = .ok () →
      signingBytes ev.a.1 ≠ signingBytes ev.b.1 → TwoInOneRound log v) := by
  have hiff := vertex_convicted_iff hsigs
  refine ⟨?_, ?_, ?_⟩
  · constructor
    · intro hsound
      by_cases hconv : ∃ ev : VertexEquivocation, ev.validator = v ∧
          verifyVertexEquivocation cr set ev = .ok ()
      · obtain ⟨ev, hv, hok⟩ := hconv
        exact Or.inr (Or.inl (hsound ev hv hok))
      · rw [hiff] at hconv
        push Not at hconv
        tauto
    · rintro (hnone | htwo | hnever) ev hv hok
      · exact absurd hnone (hiff.mp ⟨ev, hv, hok⟩).1
      · exact htwo
      · obtain ⟨x, hx, hsigned⟩ := (hiff.mp ⟨ev, hv, hok⟩).2
        exact absurd hsigned (hnever x hx)
  · constructor
    · intro hnever
      have hno : ¬ ∃ ev : VertexEquivocation, ev.validator = v ∧
          verifyVertexEquivocation cr set ev = .ok () := fun ⟨ev, hv, hok⟩ => hnever ev hv hok
      rw [hiff] at hno
      push Not at hno
      tauto
    · rintro (hnone | hnever) ev hv hok
      · exact absurd hnone (hiff.mp ⟨ev, hv, hok⟩).1
      · obtain ⟨x, hx, hsigned⟩ := (hiff.mp ⟨ev, hv, hok⟩).2
        exact absurd hsigned (hnever x hx)
  · rintro ev rfl hok hne
    obtain ⟨pk, hpk, ha, hb, hround, -, hsa, hsb⟩ := verifyVertexEquivocation_ok.mp hok
    exact ⟨ev.a.1, ev.b.1, ha, hb, hround, hne, (hsigs pk hpk _ _).mp ⟨_, hsa⟩,
      (hsigs pk hpk _ _).mp ⟨_, hsb⟩⟩

end Vertex

section Devnet
open Devnet

def logOf (reg : List Record) (i : Nat) : List SignReq := (reg.filter (·.1 = i)).map (·.2)

theorem signsOnly (reg : List Record) (i : Nat) :
    SignsOnly (crypto (recordedIn reg)) validators ⟨i⟩ (logOf reg i) := by
  intro pk hpk dst msg
  have hkey : pk = ⟨i⟩ := by
    obtain ⟨entry, hentry, hbytes⟩ := Option.bind_eq_some_iff.mp hpk
    cases hbytes
    have hid : entry.id = ⟨i⟩ := by simpa using List.find?_some hentry
    have hkeys : ∀ e ∈ validators.entries, e.blsPubkey.val = e.id.val := by decide
    have hval := hkeys entry (List.mem_of_find?_eq_some hentry)
    rw [hid] at hval
    exact congrArg PublicKey.mk hval
  subst hkey
  have hmem : (dst, msg) ∈ logOf reg i ↔ (i, dst, msg) ∈ reg := by
    simp [logOf, eq_comm]
  rw [hmem]
  simp [crypto, recordedIn]

def twoHeights : List Record := [proposedBy 0 a0, proposedBy 0 a1]

def moved : MacroCheckpoint := { a1 with height := 0 }

def movedEvidence : MacroEquivocation := ⟨⟨0⟩, (a0, sigOf ⟨0⟩), (moved, sigOf ⟨0⟩)⟩

/-- Two proposals of different heights make an equivocation, which nodes report and accept. -/
theorem honest_proposer_convicted :
    let cr := crypto (recordedIn twoHeights)
    ¬ TwoAtOneHeight cr (logOf twoHeights 0) ⟨0⟩ ∧
      verifyMacroEquivocation cr validators movedEvidence = .ok () ∧
      Action.emitSlashEvidence ⟨0⟩ (.macroEquivocation movedEvidence) ∈
        StateMachine.actions cr config ⟨2⟩ (script 2 [proposal 0 a0, proposal 0 moved]) := by
  refine ⟨?_, by decide, by decide⟩
  rintro ⟨c, d, hc, hd, hheight, hne, hpc, hpd⟩
  have hlog : logOf twoHeights 0 = [(.macroProposerSig, .idHash ⟨0⟩ a0.hash),
    (.macroProposerSig, .idHash ⟨0⟩ a1.hash)] := by decide
  have hhash : ∀ {x : Hash32}, ProposedHash (logOf twoHeights 0) ⟨0⟩ x →
      x = a0.hash ∨ x = a1.hash := by
    intro x hx
    simpa [ProposedHash, hlog] using hx
  have hzero : ∀ cp : MacroCheckpoint, Genuine (crypto (recordedIn twoHeights)) cp →
      cp.hash = a0.hash → cp.height = 0 := fun cp hcp h =>
    (hashInjective (recordedIn twoHeights) _ _ _ _ _ _ _ _ (hcp.trans h)).1
  have hone : ∀ cp : MacroCheckpoint, Genuine (crypto (recordedIn twoHeights)) cp →
      cp.hash = a1.hash → cp.height = 1 := fun cp hcp h =>
    (hashInjective (recordedIn twoHeights) _ _ _ _ _ _ _ _ (hcp.trans h)).1
  obtain hc' | hc' := hhash hpc
  · obtain hd' | hd' := hhash hpd
    · exact hne (hc'.trans hd'.symm)
    · rw [hzero c hc hc', hone d hd hd'] at hheight
      cases hheight
  · obtain hd' | hd' := hhash hpd
    · rw [hone c hc hc', hzero d hd hd'] at hheight
      cases hheight
    · exact hne (hc'.trans hd'.symm)

theorem single_proposal_safe :
    let cr := crypto (recordedIn [proposedBy 0 a0])
    ¬ ∃ ev : MacroEquivocation, ev.validator = ⟨0⟩ ∧
      verifyMacroEquivocation cr validators ev = .ok () := by
  intro cr
  rintro ⟨ev, hev, hok⟩
  refine (macro_equivocation_sound_iff (signsOnly [proposedBy 0 a0] 0)).2.mpr (Or.inr ?_) ev hev
    hok
  have hlog : logOf [proposedBy 0 a0] 0 = [(.macroProposerSig, .idHash ⟨0⟩ a0.hash)] := by
    decide
  intro x y hx hy
  simp only [ProposedHash, hlog, List.mem_singleton, Prod.mk.injEq, Bytes.idHash.injEq, true_and]
    at hx hy
  exact hx.trans hy.symm

def bareVertex : Vertex := (vertexAt 0 0).vertex
def ladenVertex : Vertex := { bareVertex with blobs := [⟨⟨1⟩, ⟨1⟩, 1⟩], hash := ⟨9⟩ }

def signedBy0 (x : Vertex) : Record := (0, .vertexProposal, signingBytes x)

def doubledEvidence : VertexEquivocation :=
  ⟨⟨0⟩, (bareVertex, sigOf ⟨0⟩), ({ bareVertex with hash := ⟨9⟩ }, sigOf ⟨0⟩)⟩

theorem honest_author_convicted :
    let cr := crypto (recordedIn [signedBy0 bareVertex])
    ¬ TwoInOneRound (logOf [signedBy0 bareVertex] 0) ⟨0⟩ ∧
      verifyVertexEquivocation cr validators doubledEvidence = .ok () := by
  refine ⟨?_, by decide⟩
  rintro ⟨x, y, -, -, -, hne, hx, hy⟩
  have hlog : logOf [signedBy0 bareVertex] 0 = [(.vertexProposal, signingBytes bareVertex)] := by
    decide
  simp only [SignedVertex, hlog, List.mem_singleton, Prod.mk.injEq, true_and] at hx hy
  exact hne (hx.trans hy.symm)

def ladenEvidence : VertexEquivocation :=
  ⟨⟨0⟩, (bareVertex, sigOf ⟨0⟩), (ladenVertex, sigOf ⟨0⟩)⟩

theorem double_author_convicted :
    TwoInOneRound (logOf [signedBy0 bareVertex, signedBy0 ladenVertex] 0) ⟨0⟩ :=
  (vertex_equivocation_sound_iff (signsOnly [signedBy0 bareVertex, signedBy0 ladenVertex]
    0)).2.2 ladenEvidence rfl (by decide) (by decide)

end Devnet
end LuaDag
