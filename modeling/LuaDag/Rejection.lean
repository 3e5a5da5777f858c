import LuaDag.CertProduction

/-! Messages that fail their verification, in any reachable state. -/
namespace LuaDag
open VertexCert MacroFin

section Message
variable (cr : Crypto) (sm : StateMachine) (ctx : HostContext)

/-- The check of an inbound message: its hash and its signatures, under the validator set and
against the checkpoint or vertex it is about. -/
def Verified : Event → Prop
  | .macroProposalReceived p => ∃ set beacon, activeSet ctx = .ok set ∧
      MacroFin.beaconForHeight sm.macros ctx p.checkpoint.height = .ok beacon ∧
      MacroFin.verifyProposal cr set p (vrfAlpha beacon p.checkpoint.height p.proposer) = true
  | .blsPartialReceived bp => ∃ set height cp, activeSet ctx = .ok set ∧
      sm.macros.findCandidate bp.checkpointHash = some (height, cp) ∧
      MacroFin.verifyPartial cr set bp cp = true
  | .macroQcReceived qc => ∃ set height cp, activeSet ctx = .ok set ∧
      sm.macros.findCandidate qc.checkpointHash = some (height, cp) ∧
      MacroFin.verifyMacroQc cr set qc cp = true
  | .subnetAggregateReceived a => ∃ set height cp, activeSet ctx = .ok set ∧
      sm.macros.findCandidate a.checkpointHash = some (height, cp) ∧
      MacroFin.verifySubnetAgg cr set a cp sm.macros.partialSigs = true
  | .vertexProposalReceived p => p.vertex.hash = contentHash cr p.vertex ∧
      ∃ set, activeSet ctx = .ok set ∧ VertexCert.verifyProposal cr set p = true
  | .vertexPartialReceived bp => ∃ set p, activeSet ctx = .ok set ∧
      sm.vertices.myProposals[bp.vertexHash]? = some p ∧
      VertexCert.verifyPartial cr set bp p.vertex = true
  | _ => True

def StateMachine.uncounted : StateMachine := { sm with
  macros := { sm.macros with rejectedCrypto := 0 }
  vertices := { sm.vertices with rejectedCrypto := 0, partialConflicts := 0 } }

/-- The step emits and signs nothing and leaves everything but the counters as it was. -/
structure ChangesNothing (ev : Event) : Prop where
  emits : (sm.step cr ctx ev).actions = []
  signs : (sm.step cr ctx ev).signed = []
  books : (sm.step cr ctx ev).state.uncounted = sm.uncounted

/-- The event pins a beacon: a macro proposal for a height that has none yet, with the set and
the beacon at hand. -/
def PinsBeacon : Event → Prop
  | .macroProposalReceived p => sm.macros.candidateBeacon[p.checkpoint.height]? = none ∧
      (∃ set, activeSet ctx = .ok set) ∧ ∃ beacon, ctx.beacon = .ok beacon
  | _ => False

end Message

/- Votes are collected for every kept own vertex. -/
section Slots
variable {cr : Crypto}

def Slotted (b : VertexBook) : Prop :=
  ∀ (h : Hash32) (p : VertexProposal), b.myProposals[h]? = some p →
    ∃ sigs, b.collecting[h]? = some sigs

theorem Slotted.of_insert {b : VertexBook} (hb : Slotted b) (x : Hash32)
    (sigs : Std.TreeMap ValidatorId BlsSig) :
    Slotted { b with collecting := b.collecting.insert x sigs } := by
  intro h p hp
  by_cases hx : x = h
  · exact ⟨sigs, by simp [hx]⟩
  · obtain ⟨old, hold⟩ := hb h p hp
    exact ⟨old, by simpa [hx] using hold⟩

theorem Slotted.of_seeded {b : VertexBook} (hb : Slotted b) (ctx : HostContext) (round : Round)
    (parents : List Hash32) : Slotted (seeded cr ctx b round parents) := by
  intro h p hp
  by_cases hx : (ownVertex cr ctx b round parents).hash = h
  · refine Option.ne_none_iff_exists'.mp ?_
    simp [seeded, seedProposal, ownProposal, hx]
  · have hold : b.myProposals[h]? = some p := by
      simpa [seeded, seedProposal, ownProposal, hx] using hp
    obtain ⟨old, hsigs⟩ := hb h p hold
    exact ⟨old, by simpa [seeded, seedProposal, ownProposal, hx] using hsigs⟩

theorem slotted_move {call : NodeCall} {b d : VertexBook} {sg : List SignReq}
    {acts : List Action} (hm : BookMove cr call b sg acts d) (hb : Slotted b) : Slotted d := by
  cases hm with
  | openSlot x p hmine => exact hb.of_insert x _
  | collect set bp p hev hset hother hmine hnew hok => exact hb.of_insert _ _
  | genesis hst => exact Slotted.of_seeded (b := { b with started := true }) hb call.ctx 0 []
  | propose set need certs hst hset hready => exact hb.of_seeded call.ctx _ _
  | prune hst =>
    intro h p hp
    obtain ⟨sigs, hsigs⟩ := hb h p (prune_mine.mp hp).1
    exact ⟨sigs, prune_collecting.mpr ⟨hsigs, p, hp⟩⟩
  | _ => exact hb

theorem slotted_run (cfg : Config) (self : ValidatorId) (is : List StateMachine.Input) :
    Slotted (StateMachine.reached cr cfg self is).vertices :=
  book_invariant cr (fun _ => True) Slotted (fun _ _ _ _ _ _ hm hb => slotted_move hm hb) cfg self
    (by simp [Slotted, VertexBook.new]) is (fun _ _ => trivial)

end Slots

/- One handler. -/
section Layers
variable {cr : Crypto} {cfg : Config} {ctx : HostContext}

structure Ignores {σ : Type} (uncounted : σ → σ) (b : σ) (o : Result σ) : Prop where
  emits : o.actions = []
  signs : o.signed = []
  book : uncounted o.state = uncounted b

def uncountedVertices (b : VertexBook) : VertexBook :=
  { b with rejectedCrypto := 0, partialConflicts := 0 }

def uncountedMacros (b : MacroBook) : MacroBook := { b with rejectedCrypto := 0 }

theorem onVertexProposal_ignores {p : VertexProposal} {b : VertexBook}
    (hbad : ¬ (p.vertex.hash = contentHash cr p.vertex ∧
      ∃ set, activeSet ctx = .ok set ∧ VertexCert.verifyProposal cr set p = true)) :
    Ignores uncountedVertices b (onVertexProposal cr p ctx b) := by
  unfold onVertexProposal
  cases hset : activeSet ctx with
  | error e => exact ⟨rfl, rfl, rfl⟩
  | ok set =>
    dsimp only
    by_cases hhash : p.vertex.hash = contentHash cr p.vertex
    · have hsig : VertexCert.verifyProposal cr set p = false := by
        by_contra hok
        exact hbad ⟨hhash, set, hset, by simpa using hok⟩
      rw [if_neg (not_not.mpr hhash), hsig]
      exact ⟨rfl, rfl, rfl⟩
    · rw [if_pos hhash]
      exact ⟨rfl, rfl, rfl⟩

theorem onVertexPartial_ignores {bp : VertexPartial} {b : VertexBook} (hslots : Slotted b)
    (hbad : ¬ ∃ set p, activeSet ctx = .ok set ∧ b.myProposals[bp.vertexHash]? = some p ∧
      VertexCert.verifyPartial cr set bp p.vertex = true) :
    Ignores uncountedVertices b (onVertexPartial cr cfg ctx bp b) := by
  unfold onVertexPartial
  split
  · exact ⟨rfl, rfl, rfl⟩
  cases hmine : b.myProposals[bp.vertexHash]? with
  | none => exact ⟨rfl, rfl, rfl⟩
  | some p =>
    obtain ⟨sigs, hsigs⟩ := hslots bp.vertexHash p hmine
    have hopen : b.collecting.insert bp.vertexHash (b.collecting[bp.vertexHash]?.getD ∅) =
        b.collecting := by
      rw [hsigs]
      exact Maps.insert_same.mpr hsigs
    dsimp only
    rw [hopen]
    cases hold : (b.collecting[bp.vertexHash]?.getD ∅)[bp.voter]? with
    | some prev =>
      dsimp only
      split
      · exact ⟨rfl, rfl, rfl⟩
      · exact ⟨rfl, rfl, rfl⟩
    | none =>
      cases hset : activeSet ctx with
      | error e => exact ⟨rfl, rfl, rfl⟩
      | ok set =>
        have hsig : VertexCert.verifyPartial cr set bp p.vertex = false := by
          by_contra hok
          exact hbad ⟨set, p, hset, hmine, by simpa using hok⟩
        dsimp only
        rw [hsig]
        exact ⟨rfl, rfl, rfl⟩

theorem onBlsPartial_ignores {bp : BlsPartial} {b : MacroBook}
    (hbad : ¬ ∃ set height cp, activeSet ctx = .ok set ∧
      b.findCandidate bp.checkpointHash = some (height, cp) ∧
      MacroFin.verifyPartial cr set bp cp = true) :
    Ignores uncountedMacros b (onBlsPartial cr cfg ctx bp b) := by
  unfold onBlsPartial
  cases hcand : b.findCandidate bp.checkpointHash with
  | none => exact ⟨rfl, rfl, rfl⟩
  | some found =>
    obtain ⟨height, cp⟩ := found
    cases hset : activeSet ctx with
    | error e => exact ⟨rfl, rfl, rfl⟩
    | ok set =>
      have hsig : MacroFin.verifyPartial cr set bp cp = false := by
        by_contra hok
        exact hbad ⟨set, height, cp, hset, hcand, by simpa using hok⟩
      dsimp only
      rw [hsig]
      exact ⟨rfl, rfl, rfl⟩

theorem onMacroQcReceived_ignores {qc : MacroQc} {b : MacroBook}
    (hbad : ¬ ∃ set height cp, activeSet ctx = .ok set ∧
      b.findCandidate qc.checkpointHash = some (height, cp) ∧
      MacroFin.verifyMacroQc cr set qc cp = true) :
    Ignores uncountedMacros b (onMacroQcReceived cr cfg ctx qc b) := by
  unfold onMacroQcReceived
  split
  · exact ⟨rfl, rfl, rfl⟩
  cases hset : activeSet ctx with
  | error e => exact ⟨rfl, rfl, rfl⟩
  | ok set =>
    cases hcand : b.findCandidate qc.checkpointHash with
    | none => exact ⟨rfl, rfl, rfl⟩
    | some found =>
      obtain ⟨height, cp⟩ := found
      have hsig : MacroFin.verifyMacroQc cr set qc cp = false := by
        by_contra hok
        exact hbad ⟨set, height, cp, hset, hcand, by simpa using hok⟩
      dsimp only
      rw [hsig]
      exact ⟨rfl, rfl, rfl⟩

theorem onSubnetAggregate_ignores {a : SubnetAggregate} {b : MacroBook}
    (hbad : ¬ ∃ set height cp, activeSet ctx = .ok set ∧
      b.findCandidate a.checkpointHash = some (height, cp) ∧
      MacroFin.verifySubnetAgg cr set a cp b.partialSigs = true) :
    Ignores uncountedMacros b (onSubnetAggregate cr cfg ctx a b) := by
  unfold onSubnetAggregate
  cases hcand : b.findCandidate a.checkpointHash with
  | none => exact ⟨rfl, rfl, rfl⟩
  | some found =>
    obtain ⟨height, cp⟩ := found
    cases hset : activeSet ctx with
    | error e => exact ⟨rfl, rfl, rfl⟩
    | ok set =>
      have hsig : MacroFin.verifySubnetAgg cr set a cp b.partialSigs = false := by
        by_contra hok
        exact hbad ⟨set, height, cp, hset, hcand, by simpa using hok⟩
      dsimp only
      rw [hsig]
      exact ⟨rfl, rfl, rfl⟩

theorem freezeBeacon_same {b : MacroBook} {height : Height} {beacon : Hash32} :
    freezeBeacon height beacon b = b ↔ b.candidateBeacon[height]? = some beacon := by
  rw [← Maps.insert_same]
  constructor
  · intro heq
    exact congrArg MacroBook.candidateBeacon heq
  · intro heq
    rw [freezeBeacon, heq]

/-- A macro proposal pins the beacon of its height before it is verified. -/
theorem onMacroProposal_ignores {p : MacroProposal} {b : MacroBook}
    (hbad : ¬ ∃ set beacon, activeSet ctx = .ok set ∧
      beaconForHeight b ctx p.checkpoint.height = .ok beacon ∧
      MacroFin.verifyProposal cr set p (vrfAlpha beacon p.checkpoint.height p.proposer) = true) :
    Ignores uncountedMacros b (onMacroProposal cr cfg ctx p b) ↔
      ¬ (b.candidateBeacon[p.checkpoint.height]? = none ∧ (∃ set, activeSet ctx = .ok set) ∧
        ∃ beacon, ctx.beacon = .ok beacon) := by
  unfold onMacroProposal
  cases hset : activeSet ctx with
  | error e =>
    simp only [reduceCtorEq, exists_false, false_and, and_false, not_false_eq_true, iff_true]
    exact ⟨rfl, rfl, rfl⟩
  | ok set =>
    dsimp only
    cases hbeacon : beaconForHeight b ctx p.checkpoint.height with
    | error e =>
      have hport : ∀ beacon, ctx.beacon ≠ .ok beacon := by
        intro beacon hok
        unfold beaconForHeight at hbeacon
        split at hbeacon
        · cases hbeacon
        · rw [hok] at hbeacon
          cases hbeacon
      simp only [hport, exists_false, and_false, not_false_eq_true, iff_true]
      exact ⟨rfl, rfl, rfl⟩
    | ok beacon =>
      have hsig : MacroFin.verifyProposal cr set p
          (vrfAlpha beacon p.checkpoint.height p.proposer) = false := by
        by_contra hok
        exact hbad ⟨set, beacon, hset, hbeacon, by simpa using hok⟩
      dsimp only
      rw [hsig]
      cases hold : b.candidateBeacon[p.checkpoint.height]? with
      | some x =>
        have hx : x = beacon := by simpa [beaconForHeight, hold] using hbeacon
        have hsame : freezeBeacon p.checkpoint.height beacon b = b :=
          freezeBeacon_same.mpr (hx ▸ hold)
        simp only [reduceCtorEq, false_and, not_false_eq_true, iff_true]
        rw [hsame]
        exact ⟨rfl, rfl, rfl⟩
      | none =>
        have hport : ctx.beacon = .ok beacon := by simpa [beaconForHeight, hold] using hbeacon
        refine ⟨fun h => ?_, fun h => absurd ⟨rfl, ⟨set, rfl⟩, beacon, hport⟩ h⟩
        have hbook : b.candidateBeacon.insert p.checkpoint.height beacon = b.candidateBeacon :=
          congrArg MacroBook.candidateBeacon h.book
        rw [Maps.insert_same.mp hbook] at hold
        cases hold

end Layers

/-- A message that is not verified changes nothing, in any reachable state, unless it pins a
beacon. -/
theorem rejected_changes_nothing_iff (cr : Crypto) (cfg : Config) (self : ValidatorId)
    (is : List StateMachine.Input) (ctx : HostContext) (ev : Event)
    (hbad : ¬ Verified cr (StateMachine.reached cr cfg self is) ctx ev) :
    ChangesNothing cr (StateMachine.reached cr cfg self is) ctx ev ↔
      ¬ PinsBeacon (StateMachine.reached cr cfg self is) ctx ev := by
  have hslots := @slotted_run cr cfg self is
  generalize StateMachine.reached cr cfg self is = sm at hbad hslots ⊢
  have hvertices : ∀ f : VertexBook → Result VertexBook,
      sm.step cr ctx ev = sm.onVertices f → Ignores uncountedVertices sm.vertices (f sm.vertices) →
        ChangesNothing cr sm ctx ev := by
    intro f hev h
    refine ⟨?_, ?_, ?_⟩
    · rw [hev]
      exact h.emits
    · rw [hev]
      exact h.signs
    · rw [hev]
      exact congrArg (fun v => { sm.uncounted with vertices := v }) h.book
  have hmacros : ∀ f : MacroBook → Result MacroBook, sm.step cr ctx ev = sm.onMacros f →
      (ChangesNothing cr sm ctx ev ↔ Ignores uncountedMacros sm.macros (f sm.macros)) := by
    intro f hev
    constructor
    · rintro ⟨hemits, hsigns, hbooks⟩
      rw [hev] at hemits hsigns hbooks
      exact ⟨hemits, hsigns, congrArg StateMachine.macros hbooks⟩
    · intro h
      refine ⟨?_, ?_, ?_⟩
      · rw [hev]
        exact h.emits
      · rw [hev]
        exact h.signs
      · rw [hev]
        exact congrArg (fun m => { sm.uncounted with macros := m }) h.book
  cases ev with
  | macroProposalReceived p => exact (hmacros _ rfl).trans (onMacroProposal_ignores hbad)
  | blsPartialReceived bp =>
    exact ⟨fun _ h => h, fun _ => (hmacros _ rfl).mpr (onBlsPartial_ignores hbad)⟩
  | macroQcReceived qc =>
    exact ⟨fun _ h => h, fun _ => (hmacros _ rfl).mpr (onMacroQcReceived_ignores hbad)⟩
  | subnetAggregateReceived a =>
    exact ⟨fun _ h => h, fun _ => (hmacros _ rfl).mpr (onSubnetAggregate_ignores hbad)⟩
  | vertexProposalReceived p =>
    exact ⟨fun _ h => h, fun _ => hvertices _ rfl (onVertexProposal_ignores hbad)⟩
  | vertexPartialReceived bp =>
    exact ⟨fun _ h => h, fun _ => hvertices _ rfl (onVertexPartial_ignores hslots hbad)⟩
  | _ => exact absurd trivial hbad

section Devnet
open Devnet

def forged (height : Height) : Event :=
  .macroProposalReceived ⟨checkpoint height Hash32.zero 1, ⟨0⟩, ⟨0⟩, ⟨0⟩⟩

theorem forged_unverified (height : Height) (sm : StateMachine) :
    ¬ Verified openCrypto sm (ports 2 0) (forged height) := by
  rintro ⟨set, beacon, hset, -, hok⟩
  cases hset
  cases hok

theorem forged_dropped : ChangesNothing openCrypto
    (StateMachine.reached openCrypto config ⟨2⟩ (script 2 [closesWave 1])) (ports 2 0)
    (forged 0) := by
  refine (rejected_changes_nothing_iff openCrypto config ⟨2⟩ (script 2 [closesWave 1]) (ports 2 0)
    (forged 0) (forged_unverified 0 _)).mpr ?_
  rintro ⟨hnone, -⟩
  exact absurd hnone (by decide)

/-- For any other height it leaves a beacon behind. -/
theorem forged_pins_beacon :
    let sm := StateMachine.reached openCrypto config ⟨2⟩ []
    ¬ Verified openCrypto sm (ports 2 0) (forged 5) ∧
      ¬ ChangesNothing openCrypto sm (ports 2 0) (forged 5) ∧
      (sm.step openCrypto (ports 2 0) (forged 5)).state.macros.candidateBeacon.size = 1 := by
  refine ⟨forged_unverified 5 _, ?_, by decide⟩
  rintro ⟨-, -, hbooks⟩
  have hsize := congrArg (fun sm : StateMachine => sm.macros.candidateBeacon.size) hbooks
  exact absurd hsize (by decide)

end Devnet
end LuaDag
