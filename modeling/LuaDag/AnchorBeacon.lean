import LuaDag.MacroChain
import LuaDag.WavePass
import LuaDag.LiveDag
import LuaDag.Devnet

/-! Anchors and the beacon. The host chains its beacon over the macro QCs it has persisted,
and L2 selects the anchor of any wave by the beacon of the moment. -/
namespace LuaDag
open Bullshark

/- The beacon of the host (`leader::beacon`, `apps/node/src/host_context.rs`). -/

def chainBeacon (cr : Crypto) (prev macroQcHash : Hash32) : Hash32 :=
  cr.blake3WithDst .beacon (.concat [prev, macroQcHash])

namespace ChainedBeacon

def new : Hash32 := Hash32.zero

def adoptMacroQc (cr : Crypto) (current : Hash32) (qc : MacroQc) : Hash32 :=
  chainBeacon cr current qc.checkpointHash

def applied (cr : Crypto) (current : Hash32) (acts : List Action) : Hash32 :=
  (persistedQcs acts).foldl (adoptMacroQc cr) current

theorem applied_append (cr : Crypto) (current : Hash32) (acts acts' : List Action) :
    applied cr current (acts ++ acts') = applied cr (applied cr current acts) acts' := by
  simp [applied, persistedQcs]

end ChainedBeacon

def BeaconFollows (cr : Crypto) : StateMachine → Hash32 → List StateMachine.Input → Prop
  | _, _, [] => True
  | sm, current, i :: is =>
    i.2.beacon = .ok current ∧
      BeaconFollows cr (StateMachine.exec cr i sm).state
        (ChainedBeacon.applied cr current (StateMachine.exec cr i sm).actions) is

def adoptedHashes (cr : Crypto) (cfg : Config) (self : ValidatorId)
    (is : List StateMachine.Input) : List Hash32 :=
  (persistedQcs (StateMachine.actions cr cfg self is)).map (·.checkpointHash)

theorem beaconFollows_last {cr : Crypto} {sm : StateMachine} {current : Hash32}
    {js : List StateMachine.Input} {i : StateMachine.Input}
    (h : BeaconFollows cr sm current (js ++ [i])) :
    i.2.beacon = .ok (ChainedBeacon.applied cr current
      (Trace.emitted (StateMachine.exec cr) (Trace.calls (StateMachine.exec cr) sm js))) := by
  induction js generalizing sm current with
  | nil => exact h.1
  | cons j js ih =>
    rw [ih h.2, ← ChainedBeacon.applied_append]
    rfl

/-- Beacons do not collide, and none is the genesis beacon. -/
structure BeaconsInjective (cr : Crypto) : Prop where
  chain : ∀ p q p' q', chainBeacon cr p q = chainBeacon cr p' q' → p = p' ∧ q = q'
  fresh : ∀ p q, chainBeacon cr p q ≠ ChainedBeacon.new

theorem BeaconsInjective.history {cr : Crypto} (h : BeaconsInjective cr) (hs hs' : List Hash32) :
    hs.foldl (chainBeacon cr) ChainedBeacon.new = hs'.foldl (chainBeacon cr) ChainedBeacon.new ↔
      hs = hs' := by
  refine ⟨?_, fun heq => by rw [heq]⟩
  induction hs using List.reverseRecOn generalizing hs' with
  | nil =>
    intro heq
    cases hs' using List.reverseRecOn with
    | nil => rfl
    | append_singleton hs' x =>
      rw [List.foldl_append] at heq
      exact absurd heq.symm (h.fresh _ _)
  | append_singleton hs x ih =>
    intro heq
    cases hs' using List.reverseRecOn with
    | nil =>
      rw [List.foldl_append] at heq
      exact absurd heq (h.fresh _ _)
    | append_singleton hs' x' =>
      rw [List.foldl_append, List.foldl_append] at heq
      obtain ⟨hprev, hlast⟩ := h.chain _ _ _ _ heq
      rw [ih hs' hprev, hlast]

theorem beaconFollows_iff {cr : Crypto} (hchain : BeaconsInjective cr) {cfg cfg' : Config}
    {self self' : ValidatorId} {js js' : List StateMachine.Input} {i i' : StateMachine.Input}
    (hhost : BeaconFollows cr (StateMachine.new cfg self) ChainedBeacon.new (js ++ [i]))
    (hhost' : BeaconFollows cr (StateMachine.new cfg' self') ChainedBeacon.new (js' ++ [i'])) :
    ∃ b b', i.2.beacon = .ok b ∧ i'.2.beacon = .ok b' ∧
      (b = b' ↔ adoptedHashes cr cfg self js = adoptedHashes cr cfg' self' js') := by
  refine ⟨_, _, beaconFollows_last hhost, beaconFollows_last hhost', ?_⟩
  rw [← hchain.history]
  simp only [adoptedHashes, List.foldl_map, ChainedBeacon.applied]
  rfl

/- The winner of a slot. -/
namespace Bullshark

theorem selectAnchor_zero {cr : Crypto} {wave : WaveId} {set : ValidatorSet} {ctx : HostContext}
    {beacon : Hash32} {e : ValidatorEntry} (he : e ∈ set.entries)
    (hbeacon : ctx.beacon = .ok beacon)
    (hzero : cr.sortitionScore (sortitionBeta cr beacon wave e.id) set.totalStake e.stake 0 = 0)
    (honly : ∀ e' ∈ set.entries, cr.sortitionScore (sortitionBeta cr beacon wave e'.id)
      set.totalStake e'.stake 0 = 0 → e'.id = e.id) :
    selectAnchor cr wave set ctx = .ok e.id := by
  obtain ⟨win, hwin, hsel, hmin⟩ := @selectAnchor_spec cr wave set ctx beacon
    (List.ne_nil_of_mem he) hbeacon
  have hle := hmin e he
  rw [hzero] at hle
  rw [hsel, honly win hwin (Nat.le_zero.mp hle)]

end Bullshark

def Crypto.scoring (cr : Crypto) (score : Hash32 → StakeWeight → StakeWeight → Nat → Nat) :
    Crypto :=
  { cr with sortitionScore := score }

theorem anchors_differ {cr : Crypto} (hslots : SlotsInjective cr) {wave : WaveId}
    {set : ValidatorSet} {ctx ctx' : HostContext} {b b' : Hash32} {e e' : ValidatorEntry}
    (hb : ctx.beacon = .ok b) (hb' : ctx'.beacon = .ok b') (hne : b ≠ b')
    (he : e ∈ set.entries) (he' : e' ∈ set.entries) :
    ∃ score, selectAnchor (cr.scoring score) wave set ctx = .ok e.id ∧
      selectAnchor (cr.scoring score) wave set ctx' = .ok e'.id := by
  -- one entry scores zero under the first beacon, the other one under the second
  let score : Hash32 → StakeWeight → StakeWeight → Nat → Nat := fun beta _ _ _ =>
    if beta = sortitionBeta cr b wave e.id ∨ beta = sortitionBeta cr b' wave e'.id then 0 else 1
  have hscore : ∀ beta total stake rep, score beta total stake rep = 0 ↔
      beta = sortitionBeta cr b wave e.id ∨ beta = sortitionBeta cr b' wave e'.id := by
    intro beta _ _ _
    simp only [score]
    split <;> simp_all
  refine ⟨score, ?_, ?_⟩
  · refine selectAnchor_zero he hb ((hscore _ set.totalStake e.stake 0).mpr (Or.inl rfl)) ?_
    intro x _ hx
    cases (hscore _ set.totalStake x.stake 0).mp hx with
    | inl heq => exact (hslots b wave x.id b e.id heq).2
    | inr heq => exact absurd (hslots b wave x.id b' e'.id heq).1 hne
  · refine selectAnchor_zero he' hb' ((hscore _ set.totalStake e'.stake 0).mpr (Or.inr rfl)) ?_
    intro x _ hx
    cases (hscore _ set.totalStake x.stake 0).mp hx with
    | inl heq => exact absurd (hslots b' wave x.id b e.id heq).1.symm hne
    | inr heq => exact (hslots b' wave x.id b' e'.id heq).2

theorem selectAnchor_single {cr : Crypto} {wave : WaveId} {set : ValidatorSet}
    {ctx ctx' : HostContext} {b b' : Hash32} (hb : ctx.beacon = .ok b) (hb' : ctx'.beacon = .ok b')
    (hone : ∀ e ∈ set.entries, ∀ e' ∈ set.entries, e.id = e'.id) :
    selectAnchor cr wave set ctx = selectAnchor cr wave set ctx' := by
  by_cases hempty : set.entries = []
  · simp [selectAnchor, hempty]
  · obtain ⟨e, he, hsel, -⟩ := @selectAnchor_spec cr wave set ctx b hempty hb
    obtain ⟨e', he', hsel', -⟩ := @selectAnchor_spec cr wave set ctx' b' hempty hb'
    rw [hsel, hsel', hone e he e' he']

/-- Whatever the scores are, two evaluations select the same anchor exactly if the two nodes
have adopted the same macro QCs by then, or if there is only one validator to select. -/
theorem anchor_stable_iff (cr : Crypto) (hchain : BeaconsInjective cr) (hslots : SlotsInjective cr)
    (cfg cfg' : Config) (self self' : ValidatorId) (js js' : List StateMachine.Input)
    (i i' : StateMachine.Input)
    (hhost : BeaconFollows cr (StateMachine.new cfg self) ChainedBeacon.new (js ++ [i]))
    (hhost' : BeaconFollows cr (StateMachine.new cfg' self') ChainedBeacon.new (js' ++ [i']))
    (set : ValidatorSet) (wave : WaveId) :
    (∀ score, selectAnchor (cr.scoring score) wave set i.2 =
        selectAnchor (cr.scoring score) wave set i'.2) ↔
      adoptedHashes cr cfg self js = adoptedHashes cr cfg' self' js' ∨
        ∀ e ∈ set.entries, ∀ e' ∈ set.entries, e.id = e'.id := by
  obtain ⟨b, b', hb, hb', hsame⟩ := beaconFollows_iff hchain hhost hhost'
  constructor
  · intro hall
    by_cases hbeacons : b = b'
    · exact Or.inl (hsame.mp hbeacons)
    refine Or.inr ?_
    intro e he e' he'
    obtain ⟨score, hfirst, hsecond⟩ :=
      @anchors_differ cr hslots wave set i.2 i'.2 b b' e e' hb hb' hbeacons he he'
    have heq := hall score
    rw [hfirst, hsecond, Except.ok.injEq] at heq
    exact heq
  · intro hcond score
    cases hcond with
    | inl hadopted =>
      unfold selectAnchor
      rw [hb, hb', hsame.mpr hadopted]
    | inr hone => exact selectAnchor_single hb hb' hone

/-- All evaluations by nodes that follow `cr` select the same anchor for a wave. -/
def AnchorsStable (cr : Crypto) : Prop :=
  ∀ (cfg cfg' : Config) (self self' : ValidatorId) (js js' : List StateMachine.Input)
    (i i' : StateMachine.Input),
    BeaconFollows cr (StateMachine.new cfg self) ChainedBeacon.new (js ++ [i]) →
    BeaconFollows cr (StateMachine.new cfg' self') ChainedBeacon.new (js' ++ [i']) →
    ∀ set wave, selectAnchor cr wave set i.2 = selectAnchor cr wave set i'.2

section Devnet
open Devnet

theorem beaconsInjective : BeaconsInjective beaconCrypto := by
  refine ⟨?_, ?_⟩
  · intro p q p' q' heq
    have hval : Nat.pair p.val q.val + 1 = Nat.pair p'.val q'.val + 1 := congrArg Hash32.val heq
    obtain ⟨hp, hq⟩ := Nat.pair_eq_pair.mp (Nat.succ.inj hval)
    exact ⟨Hash32.val_injective hp, Hash32.val_injective hq⟩
  · intro p q heq
    have hval : Nat.pair p.val q.val + 1 = 0 := congrArg Hash32.val heq
    exact absurd hval (Nat.succ_ne_zero _)

theorem slotsInjective : SlotsInjective beaconCrypto := by
  intro b w id b' id' heq
  have hval : Nat.pair b.val (Nat.pair w id.val) = Nat.pair b'.val (Nat.pair w id'.val) :=
    congrArg Hash32.val heq
  simp only [Nat.pair_eq_pair] at hval
  exact ⟨Hash32.val_injective hval.1, ValidatorId.val_injective hval.2.2⟩

def adoptingRun : List StateMachine.Input := script 2 [closesWave 1, qcReceived [0, 1, 3] a0.hash]

def afterAdoption : StateMachine.Input :=
  (.event (closesWave 2).2,
    { ports 2 9 with beacon := .ok (chainBeacon beaconCrypto ChainedBeacon.new a0.hash) })

def otherAdoption : List StateMachine.Input :=
  script 1 [closesWave 1, qcReceived [0, 2, 3] a0.hash] ++ [(.event (closesWave 2).2,
    { ports 1 9 with beacon := .ok (chainBeacon beaconCrypto ChainedBeacon.new a0.hash) })]

def afterOtherAdoption : StateMachine.Input :=
  (.event (closesWave 3).2,
    { ports 1 13 with beacon := .ok (chainBeacon beaconCrypto ChainedBeacon.new a0.hash) })

/-- Both have adopted one macro QC, and select the same anchor of wave 3. -/
theorem anchor_stable_adopted :
    adoptedHashes beaconCrypto config ⟨2⟩ adoptingRun = [a0.hash] ∧
      ∀ score, selectAnchor (beaconCrypto.scoring score) 3 validators afterAdoption.2 =
        selectAnchor (beaconCrypto.scoring score) 3 validators afterOtherAdoption.2 := by
  have hadopted : adoptedHashes beaconCrypto config ⟨2⟩ adoptingRun = [a0.hash] := by
    decide +kernel
  have hadopted' : adoptedHashes beaconCrypto config ⟨1⟩ otherAdoption = [a0.hash] := by
    decide +kernel
  refine ⟨hadopted, (anchor_stable_iff beaconCrypto beaconsInjective slotsInjective config config
    ⟨2⟩ ⟨1⟩ adoptingRun otherAdoption afterAdoption afterOtherAdoption
    ⟨rfl, by decide +kernel, by decide +kernel, trivial⟩
    ⟨rfl, by decide +kernel, by decide +kernel, by decide +kernel, trivial⟩ validators 3).mpr
    (Or.inl (hadopted.trans hadopted'.symm))⟩

/-- One node selects validator 0 and then validator 3 as the anchor of wave 2. -/
theorem anchor_moves : ¬ AnchorsStable beaconCrypto := by
  intro h
  have heq := h config config ⟨2⟩ ⟨2⟩ [] adoptingRun (.event (closesWave 1).2, ports 2 5)
    afterAdoption ⟨rfl, trivial⟩ ⟨rfl, by decide +kernel, by decide +kernel, trivial⟩ validators 2
  have hbefore : selectAnchor beaconCrypto 2 validators (ports 2 5) = .ok ⟨0⟩ := by
    decide +kernel
  have hafter : selectAnchor beaconCrypto 2 validators afterAdoption.2 = .ok ⟨3⟩ := by
    decide +kernel
  rw [hbefore, hafter] at heq
  exact absurd heq (by decide)

end Devnet
end LuaDag
