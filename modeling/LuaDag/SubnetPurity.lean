import LuaDag.Network
import LuaDag.MacroQuorum
import LuaDag.MacroFrame

/-! Subnet aggregates of Mode A: who is in them, in a network whose messages anyone can make. -/
namespace LuaDag
open MacroFin

section Pure
variable (cr : Crypto) (set : ValidatorSet)

def subnetMembers (assign : SubnetAssign) (s : SubnetId) : List ValidatorEntry :=
  set.entries.filter fun e => decide (assign.indexFor cr e.id = s)

/-- Only members of its subnet are in the bitmap, and `2f+1` of them. -/
structure SubnetPure (assign : SubnetAssign) (a : SubnetAggregate) : Prop where
  members : ∀ e ∈ listed set a.agg.bitmap, assign.indexFor cr e.id = a.subnet
  quorum : 2 * (((subnetMembers cr set assign a.subnet).length - 1) / 3) + 1 ≤
    (listed set a.agg.bitmap).length

def assignOf (cfg : Config) (R : Hash32 → Hash32) (x : Hash32) : SubnetAssign :=
  ⟨computeKe cfg set.entries.length, R x⟩

instance (assign : SubnetAssign) (a : SubnetAggregate) :
    Decidable (SubnetPure cr set assign a) :=
  decidable_of_iff ((∀ e ∈ listed set a.agg.bitmap, assign.indexFor cr e.id = a.subnet) ∧
      2 * (((subnetMembers cr set assign a.subnet).length - 1) / 3) + 1 ≤
        (listed set a.agg.bitmap).length)
    ⟨fun h => ⟨h.1, h.2⟩, fun h => ⟨h.members, h.quorum⟩⟩

end Pure

def readsBeacon (book : MacroBook) (ctx : HostContext) (height : Height) (r : Hash32) : Bool :=
  (beaconForHeight book ctx height).toOption.all fun b => decide (b = r)

/-- What Mode A takes for granted. A partial is counted, a vote cast and an aggregate stored
under the beacon `R` of the checkpoint only; a counted partial names the subnet of its signer,
and a stored aggregate was sent by a node or is pure. -/
def NetworkCall.assigned (cr : Crypto) (cfg : Config) (set : ValidatorSet) (R : Hash32 → Hash32)
    (call : NetworkCall) : Bool :=
  let book := call.node.pre.macros
  let ctx := call.node.ctx
  match call.node.event with
  | some (.blsPartialReceived bp) =>
    (book.findCandidate bp.checkpointHash).all fun found =>
      !verifyPartial cr set bp found.2 || decide (bp.checkpointHash ∈ book.emittedMacroQc) ||
        decide (activeMode book cfg set found.1 ≠ .ok .modeASubnet) ||
        readsBeacon book ctx found.1 (R bp.checkpointHash) &&
          decide ((assignOf set cfg R bp.checkpointHash).indexFor cr bp.validator = bp.subnet)
  | some (.macroProposalReceived p) =>
    !accepts cr cfg ctx p book ||
      decide (activeMode book cfg set p.checkpoint.height ≠ .ok .modeASubnet) ||
      readsBeacon book ctx p.checkpoint.height (R p.checkpoint.hash)
  | some (.subnetAggregateReceived a) =>
    (book.findCandidate a.checkpointHash).all fun found =>
      !verifySubnetAgg cr set a found.2 book.partialSigs ||
        readsBeacon book ctx found.1 (R a.checkpointHash) &&
          (decide (Action.broadcastSubnetAggregate a ∈ call.pre.sent) ||
            decide (SubnetPure cr set (assignOf set cfg R a.checkpointHash) a))
  | _ => true

/- Handlers that do not deal with subnets. -/
section Elsewhere

def SameSubnets (b d : MacroBook) : Prop :=
  d.subnetPartials = b.subnetPartials ∧ d.subnetAggs = b.subnetAggs ∧ d.selfId = b.selfId

theorem SameSubnets.refl (b : MacroBook) : SameSubnets b b := ⟨rfl, rfl, rfl⟩

theorem SameSubnets.trans {b d e : MacroBook} (h : SameSubnets b d) (h' : SameSubnets d e) :
    SameSubnets b e :=
  ⟨h'.1.trans h.1, h'.2.1.trans h.2.1, h'.2.2.trans h.2.2⟩

def Action.isSubnetAggregate : Action → Bool
  | .broadcastSubnetAggregate _ => true
  | _ => false

def Action.isSubnetTraffic : Action → Bool
  | .broadcastSubnetAggregate _ | .broadcastBlsPartial _ => true
  | _ => false

theorem Action.not_aggregate {a : Action} (h : a.isSubnetTraffic = false) :
    a.isSubnetAggregate = false := by
  cases a <;> first | rfl | exact h

def KeepsSubnets (A : Action → Prop) (b : MacroBook) (o : Result MacroBook) : Prop :=
  Outcome.Sound (SameSubnets b) A o

section Keeps
variable {A : Action → Prop} {b d : MacroBook} {o : Result MacroBook}

theorem KeepsSubnets.of_same (h : KeepsSubnets A d o) (hsame : SameSubnets b d) :
    KeepsSubnets A b o :=
  ⟨hsame.trans h.state, h.actions⟩

theorem KeepsSubnets.quiet (h : SameSubnets b d) : KeepsSubnets A b (.quiet d) :=
  Outcome.Sound.quiet h

theorem KeepsSubnets.fail (e : Error) (h : SameSubnets b d) : KeepsSubnets A b (.fail d e) :=
  Outcome.Sound.fail e h

theorem KeepsSubnets.andThen {k : MacroBook → Result MacroBook} (h : KeepsSubnets A b o)
    (hk : ∀ d, KeepsSubnets A d (k d)) : KeepsSubnets A b (o.andThen k) :=
  Outcome.Sound.andThen h fun hsame => (hk o.state).of_same hsame

end Keeps

def Elsewhere (b : MacroBook) (o : Result MacroBook) : Prop :=
  Outcome.Sound (SameSubnets b) (fun a => a.isSubnetAggregate = false) o

def Aside (b : MacroBook) (o : Result MacroBook) : Prop :=
  KeepsSubnets (fun a => a.isSubnetTraffic = false) b o

theorem Aside.keeps {A : Action → Prop} {b : MacroBook} {o : Result MacroBook} (h : Aside b o)
    (hA : ∀ a : Action, a.isSubnetTraffic = false → A a) : KeepsSubnets A b o :=
  ⟨h.state, fun a ha => hA a (h.actions a ha)⟩

theorem Aside.elsewhere {b : MacroBook} {o : Result MacroBook} (h : Aside b o) :
    Elsewhere b o :=
  h.keeps fun _ => Action.not_aggregate

variable {cr : Crypto} {cfg : Config} {ctx : HostContext}

/- Every kind of write but those of votes and of the subnets. -/

theorem aside_notes (b : MacroBook) :
    KeptByNotes (SameSubnets b) (fun a => a.isSubnetTraffic = false) where
  counted := fun _ _ _ h => ⟨h.1, h.2⟩
  frozen := fun _ _ _ h => ⟨h.1, h.2⟩
  seen := fun _ _ h => ⟨h.1, h.2⟩
  backupCleared := fun _ _ h => ⟨h.1, h.2⟩
  modeBCleared := fun _ _ h => ⟨h.1, h.2⟩
  accuses := fun _ _ => rfl

theorem aside_proposals (b : MacroBook) :
    KeptByProposals (SameSubnets b) (fun a => a.isSubnetTraffic = false) :=
  ⟨fun _ _ h => ⟨h.1, h.2⟩, fun _ => rfl⟩

theorem aside_windows (cr : Crypto) (b : MacroBook) :
    KeptByWindows (SameSubnets b) (fun a => a.isSubnetTraffic = false) cr where
  pushed := fun _ _ h => ⟨h.1, h.2⟩
  installed := fun _ h => ⟨h.1, h.2⟩
  armed := fun _ _ h => ⟨h.1, h.2⟩
  schedules := fun _ _ => rfl

theorem aside_records (b : MacroBook) : KeptByRecords (SameSubnets b) :=
  ⟨fun _ _ h => ⟨h.1, h.2⟩, fun _ _ _ h => ⟨h.1, h.2⟩⟩

theorem aside_adoptions (b : MacroBook) :
    KeptByAdoptions (SameSubnets b) (fun a => a.isSubnetTraffic = false) where
  accounted := fun _ _ _ h => ⟨h.1, h.2⟩
  finalized := fun _ _ h => ⟨h.1, h.2⟩
  notifies := fun _ _ => rfl
  finalizes := fun _ => rfl
  adopted := fun _ _ _ _ _ h => ⟨h.1, h.2⟩
  broadcasts := fun _ => rfl
  persists := by simp [adoptionActions, Action.isSubnetTraffic]

theorem onLocalMicroQcs_aside (acts : List Action) (b : MacroBook) :
    Aside b (onLocalMicroQcs cr cfg ctx acts b) :=
  onLocalMicroQcs_keeps (aside_notes b) (aside_proposals b) (aside_windows cr b) acts (.refl b)

theorem tryEmitModeAQc_aside (hash : Hash32) (height : Height) (b : MacroBook) :
    Aside b (tryEmitModeAQc cr cfg ctx hash height b) :=
  tryEmitModeAQc_keeps (aside_adoptions b) hash height (.refl b)

theorem collectFlat_aside (set : ValidatorSet) (mode : AggregationMode) (height : Height)
    (cand : MacroCheckpoint) (bp : BlsPartial) (b : MacroBook) :
    Aside b (collectFlat cr cfg set mode height cand bp b) :=
  collectFlat_keeps (aside_records b) (aside_adoptions b) set mode height cand bp (.refl b)

theorem onMacroQcReceived_aside (qc : MacroQc) (b : MacroBook) :
    Aside b (onMacroQcReceived cr cfg ctx qc b) :=
  onMacroQcReceived_keeps (aside_notes b) (aside_adoptions b) qc (.refl b)

theorem onBackupTimer_aside (height : Height) (b : MacroBook) :
    Aside b (onBackupTimer cr ctx height b) :=
  onBackupTimer_keeps (aside_notes b) (aside_proposals b) height (.refl b)

/- The own votes. -/

variable {A : Action → Prop}

theorem announcePartial_sends {mode : AggregationMode} {subnet : SubnetId}
    (h : ∀ bp : BlsPartial, bp.subnet = (if mode = .modeASubnet then subnet else 0) →
      A (.broadcastBlsPartial bp)) (cp : MacroCheckpoint) (b : MacroBook) :
    KeepsSubnets A b (announcePartial ctx mode subnet cp b) := by
  refine ⟨⟨rfl, rfl, rfl⟩, ?_⟩
  intro a ha
  cases List.mem_singleton.mp ha
  exact h _ rfl

/-- The votes that a node may send have `A`. They go to the subnet of some node, or to the
first. -/
def OwnVotes (cr : Crypto) (cfg : Config) (ctx : HostContext) (A : Action → Prop) : Prop :=
  ∀ (set : ValidatorSet) (beacon : Hash32) (assign : SubnetAssign), activeSet ctx = .ok set →
    subnetAssign cfg set beacon = .ok assign →
      ∀ (mode : AggregationMode) (me : ValidatorId) (bp : BlsPartial),
        bp.subnet = (if mode = .modeASubnet then assign.indexFor cr me else 0) →
          A (.broadcastBlsPartial bp)

theorem castModeBVote_sends (hvotes : OwnVotes cr cfg ctx A) (height : Height)
    (cp : MacroCheckpoint) (b : MacroBook) :
    KeepsSubnets A b (castModeBVote cr cfg ctx height cp b) := by
  unfold castModeBVote
  split
  · exact KeepsSubnets.fail _ (SameSubnets.refl b)
  rename_i set hset
  split
  · exact KeepsSubnets.fail _ (SameSubnets.refl b)
  split
  · exact KeepsSubnets.fail _ (SameSubnets.refl b)
  rename_i assign hassign
  split
  · exact KeepsSubnets.fail _ (SameSubnets.refl b)
  · have hown := hvotes set _ assign hset hassign
    exact (announcePartial_sends (hown _ b.selfId) cp _).of_same ⟨rfl, rfl, rfl⟩

theorem onModeBTimer_sends (hvotes : OwnVotes cr cfg ctx A) (height : Height) (b : MacroBook) :
    KeepsSubnets A b (onModeBTimer cr cfg ctx height b) := by
  unfold onModeBTimer
  extract_lets cleared done active
  have hactive : SameSubnets b active := by
    simp only [active]
    split <;> exact ⟨rfl, rfl, rfl⟩
  split
  · exact KeepsSubnets.quiet hactive
  split
  · exact KeepsSubnets.quiet hactive
  split
  · exact KeepsSubnets.quiet hactive
  · exact (castModeBVote_sends hvotes _ _ _).of_same hactive

theorem onTimerFired_sends (hA : ∀ a : Action, a.isSubnetTraffic = false → A a)
    (hvotes : OwnVotes cr cfg ctx A) (id : TimerId) (b : MacroBook) :
    KeepsSubnets A b (MacroFin.onTimerFired cr cfg ctx id b) := by
  unfold MacroFin.onTimerFired
  split
  · exact (onBackupTimer_aside _ b).keeps hA
  split
  · exact onModeBTimer_sends hvotes _ b
  · exact KeepsSubnets.quiet (SameSubnets.refl b)

/-- A vote up to where its signer joins the subnet. -/
theorem vote_sends (hA : ∀ a : Action, a.isSubnetTraffic = false → A a) {mode : AggregationMode}
    {subnet : SubnetId} (hown : ∀ bp : BlsPartial,
      bp.subnet = (if mode = .modeASubnet then subnet else 0) → A (.broadcastBlsPartial bp))
    (locks : LockMacro) (cp : MacroCheckpoint) (sg : List SignReq) (b : MacroBook) :
    KeepsSubnets A b (((⟨recordVote ctx locks cp b, sg, .ok (selfEvidence
      (recordVote ctx locks cp b).votes (recordVote ctx locks cp b).selfId)⟩ :
      Result MacroBook).andThen (announcePartial ctx mode subnet cp)).andThen fun book =>
        .ok book [.updateBlobStatus (blobIdOfCheckpoint cp) .softConfirmed]) := by
  refine KeepsSubnets.andThen (KeepsSubnets.andThen ⟨⟨rfl, rfl, rfl⟩, ?_⟩
    (announcePartial_sends hown cp)) fun d => Outcome.Sound.ok (SameSubnets.refl d) ?_
  · exact selfEvidence_all (fun _ => hA _ rfl) (fun _ => hA _ rfl)
  · intro a ha
    cases List.mem_singleton.mp ha
    exact hA _ rfl

end Elsewhere

/- Handlers that do. -/
section Subnets
variable {cr : Crypto} {cfg : Config} {set : ValidatorSet} {R : Hash32 → Hash32}
  {ctx : HostContext}

structure PureRecords (cr : Crypto) (cfg : Config) (set : ValidatorSet) (R : Hash32 → Hash32)
    (b : MacroBook) : Prop where
  signers : ∀ (k : Hash32 ×ₗ SubnetId) (vs : Finset ValidatorId), b.subnetPartials[k]? = some vs →
    ∀ v ∈ vs, (assignOf set cfg R (ofLex k).1).indexFor cr v = (ofLex k).2 ∧
      (v = b.selfId ∨ v ∈ set.entries.map (·.id))
  aggregates : ∀ (x : Hash32) (aggs : Std.TreeMap SubnetId SubnetAggregate) (s : SubnetId)
    (a : SubnetAggregate), b.subnetAggs[x]? = some aggs → aggs[s]? = some a →
      a.checkpointHash = x ∧ SubnetPure cr set (assignOf set cfg R x) a

def PureIfAggregate (cr : Crypto) (cfg : Config) (set : ValidatorSet) (R : Hash32 → Hash32)
    (a : Action) : Prop :=
  ∀ g, a = .broadcastSubnetAggregate g → SubnetPure cr set (assignOf set cfg R g.checkpointHash) g

def Purely (cr : Crypto) (cfg : Config) (set : ValidatorSet) (R : Hash32 → Hash32)
    (o : Result MacroBook) : Prop :=
  Outcome.Sound (PureRecords cr cfg set R) (PureIfAggregate cr cfg set R) o

theorem PureRecords.same {b d : MacroBook} (h : PureRecords cr cfg set R b)
    (hsame : SameSubnets b d) : PureRecords cr cfg set R d := by
  obtain ⟨hpartials, haggs, hid⟩ := hsame
  refine ⟨?_, ?_⟩
  · rw [hpartials, hid]
    exact h.signers
  · rw [haggs]
    exact h.aggregates

theorem Elsewhere.purely {b : MacroBook} {o : Result MacroBook} (h : Elsewhere b o)
    (hb : PureRecords cr cfg set R b) : Purely cr cfg set R o := by
  refine ⟨hb.same h.state, ?_⟩
  rintro a ha g rfl
  cases h.actions _ ha

theorem card_le_listed {signers : Finset ValidatorId}
    (h : ∀ v ∈ signers, v ∈ set.entries.map (·.id)) :
    signers.card ≤ (set.entries.filter fun e => decide (e.id ∈ signers)).length := by
  have hsub : signers ⊆ ((set.entries.filter fun e => decide (e.id ∈ signers)).map
      (·.id)).toFinset := by
    intro v hv
    obtain ⟨e, he, rfl⟩ := List.mem_map.mp (h v hv)
    rw [List.mem_toFinset]
    exact List.mem_map_of_mem (List.mem_filter.mpr ⟨he, by simpa using hv⟩)
  calc signers.card
    _ ≤ ((set.entries.filter fun e => decide (e.id ∈ signers)).map (·.id)).toFinset.card :=
      Finset.card_le_card hsub
    _ ≤ ((set.entries.filter fun e => decide (e.id ∈ signers)).map (·.id)).length :=
      List.toFinset_card_le _
    _ = (set.entries.filter fun e => decide (e.id ∈ signers)).length := List.length_map _

theorem tryBuildAggregate_pure {sigs : PartialSigs} {x : Hash32} {s : SubnetId}
    {signers : Finset ValidatorId} {assign : SubnetAssign} {a : SubnetAggregate}
    (h : tryBuildAggregate cr set sigs x s signers assign = some a)
    (hindex : ∀ v ∈ signers, assign.indexFor cr v = s)
    (hknown : ∀ v ∈ signers, v ∈ set.entries.map (·.id)) :
    a.checkpointHash = x ∧ SubnetPure cr set assign a := by
  unfold tryBuildAggregate at h
  dsimp only at h
  split at h
  · cases h
  split at h
  · cases h
  rename_i hneed
  obtain ⟨agg, hagg, rfl⟩ := Option.map_eq_some_iff.mp h
  unfold aggregateOf at hagg
  split at hagg
  · cases hagg
  obtain ⟨sig, -, rfl⟩ := Option.map_eq_some_iff.mp hagg
  refine ⟨rfl, ?_, ?_⟩
  · intro e he
    rw [listed_indicesWhere] at he
    exact hindex e.id (by simpa using (List.mem_filter.mp he).2)
  · rw [listed_indicesWhere]
    have hcard := card_le_listed hknown
    simp only [subnetMembers]
    omega

theorem aggregatorFor_mem {s : SubnetId} {assign : SubnetAssign} {v : ValidatorId}
    (h : aggregatorFor cr set s assign = some v) : v ∈ set.entries.map (·.id) := by
  have hmin := List.min?_mem h
  obtain ⟨e, he, rfl⟩ := List.mem_map.mp hmin
  exact List.mem_map_of_mem (List.mem_filter.mp he).1

theorem joinSubnet_purely {b : MacroBook} (h : PureRecords cr cfg set R b) {x : Hash32}
    {s : SubnetId} {v : ValidatorId} (hindex : (assignOf set cfg R x).indexFor cr v = s)
    (hknown : v = b.selfId ∨ v ∈ set.entries.map (·.id)) :
    Purely cr cfg set R (joinSubnet cr set (assignOf set cfg R x) x s v b) := by
  have hjoined : ∀ w ∈ insert v (b.subnetPartials[toLex (x, s)]?.getD ∅),
      (assignOf set cfg R x).indexFor cr w = s ∧
        (w = b.selfId ∨ w ∈ set.entries.map (·.id)) := by
    intro w hw
    cases Finset.mem_insert.mp hw with
    | inl heq => exact heq ▸ ⟨hindex, hknown⟩
    | inr hold =>
      cases hvs : b.subnetPartials[toLex (x, s)]? with
      | none => simp [hvs] at hold
      | some vs =>
        rw [hvs, Option.getD_some] at hold
        exact h.signers _ vs hvs w hold
  have hbook : PureRecords cr cfg set R { b with
      subnetPartials := b.subnetPartials.insert (toLex (x, s))
        (insert v (b.subnetPartials[toLex (x, s)]?.getD ∅)) } := by
    refine ⟨?_, h.aggregates⟩
    intro k vs hk
    cases Maps.get_of_insert hk with
    | inl hnew =>
      obtain ⟨rfl, rfl⟩ := hnew
      exact hjoined
    | inr hold => exact h.signers k vs hold
  unfold joinSubnet
  dsimp only
  split
  · exact Outcome.Sound.quiet hbook
  rename_i a hbuild
  split
  · rename_i hself
    refine Outcome.Sound.ok hbook ?_
    rintro act hact g rfl
    cases List.mem_singleton.mp hact
    have hmem : ∀ w ∈ insert v (b.subnetPartials[toLex (x, s)]?.getD ∅),
        w ∈ set.entries.map (·.id) := by
      intro w hw
      cases (hjoined w hw).2 with
      | inl heq => exact heq ▸ aggregatorFor_mem hself
      | inr hin => exact hin
    obtain ⟨hx, hpure⟩ := tryBuildAggregate_pure hbuild (fun w hw => (hjoined w hw).1) hmem
    rw [hx]
    exact hpure
  · exact Outcome.Sound.quiet hbook

theorem subnetAssign_eq {beacon : Hash32} {assign : SubnetAssign} {x : Hash32}
    (h : subnetAssign cfg set beacon = .ok assign) (hbeacon : beacon = R x) :
    assign = assignOf set cfg R x := by
  unfold subnetAssign toU32 at h
  split at h
  · cases h
  · rename_i n hn
    split at hn
    · cases hn
      cases h
      rw [hbeacon, assignOf]
    · cases hn

theorem readsBeacon_eq {b : MacroBook} {height : Height} {beacon r : Hash32}
    (h : readsBeacon b ctx height r = true) (hbeacon : beaconForHeight b ctx height = .ok beacon) :
    beacon = r := by
  simpa [readsBeacon, hbeacon, Except.toOption] using h

theorem castVote_purely {b : MacroBook} (h : PureRecords cr cfg set R b) {beacon : Hash32}
    {mode : AggregationMode} (locks : LockMacro) {cp : MacroCheckpoint}
    (hbeacon : mode = .modeASubnet → beacon = R cp.hash) :
    Purely cr cfg set R (castVote cr cfg ctx set beacon mode locks cp b) := by
  have hvoted : SameSubnets b (recordVote ctx locks cp b) := ⟨rfl, rfl, rfl⟩
  unfold castVote
  dsimp only
  split
  · exact ⟨h.same hvoted, by simp [PureIfAggregate, Outcome.actions]⟩
  rename_i assign hassign
  have hfirst : Elsewhere b _ := @vote_sends ctx _ (fun _ => Action.not_aggregate) mode
    (assign.indexFor cr b.selfId) (fun _ _ => rfl) locks cp
    [(.macroVote, voteMessage ⟨cp.height - 1, cp.height, cp.hash, ⟨0⟩⟩)] b
  refine Outcome.Sound.andThen (hfirst.purely h) ?_
  intro hrec
  split
  · rename_i hmode
    have hself := hfirst.state.2.2
    have heq := subnetAssign_eq hassign (hbeacon hmode)
    subst heq
    refine joinSubnet_purely hrec ?_ (Or.inl rfl)
    rw [hself]
  · exact Outcome.Sound.quiet hrec

theorem onMacroProposal_purely {b : MacroBook} (h : PureRecords cr cfg set R b)
    (hset : ∀ s, activeSet ctx = .ok s → s = set) {p : MacroProposal}
    (hvote : accepts cr cfg ctx p b = true →
      activeMode b cfg set p.checkpoint.height = .ok .modeASubnet →
        readsBeacon b ctx p.checkpoint.height (R p.checkpoint.hash) = true) :
    Purely cr cfg set R (onMacroProposal cr cfg ctx p b) := by
  cases hacc : accepts cr cfg ctx p b with
  | true =>
    obtain ⟨s, beacon, mode, locks, hs, hbeacon, hmode, hcast⟩ :=
      onMacroProposal_casts cr cfg ctx hacc
    cases hset s hs
    have hkept : PureRecords cr cfg set R (b.seeing p beacon) := h.same ⟨rfl, rfl, rfl⟩
    rw [hcast]
    refine castVote_purely hkept locks ?_
    rintro rfl
    exact readsBeacon_eq (hvote hacc hmode) hbeacon
  | false =>
    obtain ⟨beacons, rejected, seen, suppressed, hstate, -, hacts⟩ :=
      onMacroProposal_declines cr cfg ctx hacc
    refine ⟨?_, ?_⟩
    · rw [hstate]
      exact h.same ⟨rfl, rfl, rfl⟩
    · rintro a ha g rfl
      obtain ⟨ev, hev⟩ := hacts _ ha
      cases hev

theorem verifyPartial_known {bp : BlsPartial} {cp : MacroCheckpoint}
    (h : verifyPartial cr set bp cp = true) : bp.validator ∈ set.entries.map (·.id) := by
  unfold verifyPartial at h
  split at h
  · cases h
  cases hpk : VertexCert.pkFor cr set bp.validator with
  | none => simp [hpk] at h
  | some pk =>
    obtain ⟨e, he, -⟩ := Option.bind_eq_some_iff.mp hpk
    have hid : e.id = bp.validator := by simpa using List.find?_some he
    exact hid ▸ List.mem_map_of_mem (List.mem_of_find?_eq_some he)

theorem onBlsPartial_purely {b : MacroBook} (h : PureRecords cr cfg set R b)
    (hset : ∀ s, activeSet ctx = .ok s → s = set) {bp : BlsPartial}
    (hcount : ∀ height cp, b.findCandidate bp.checkpointHash = some (height, cp) →
      verifyPartial cr set bp cp = true → bp.checkpointHash ∉ b.emittedMacroQc →
      activeMode b cfg set height = .ok .modeASubnet →
        readsBeacon b ctx height (R bp.checkpointHash) = true ∧
          (assignOf set cfg R bp.checkpointHash).indexFor cr bp.validator = bp.subnet) :
    Purely cr cfg set R (onBlsPartial cr cfg ctx bp b) := by
  unfold onBlsPartial
  cases hfind : b.findCandidate bp.checkpointHash with
  | none => exact Outcome.Sound.quiet h
  | some found =>
    obtain ⟨height, cp⟩ := found
    dsimp only
    cases hactive : activeSet ctx with
    | error e => exact Outcome.Sound.fail _ h
    | ok s =>
      cases hset s hactive
      dsimp only
      split
      · exact Outcome.Sound.quiet (h.same ⟨rfl, rfl, rfl⟩)
      rename_i hverify
      have hvalid : verifyPartial cr set bp cp = true := by simpa using hverify
      split
      · exact Outcome.Sound.quiet (h.same ⟨rfl, rfl, rfl⟩)
      rename_i hnew
      split
      · exact Outcome.Sound.fail _ (h.same ⟨rfl, rfl, rfl⟩)
      rename_i mode hmode
      split
      · exact Outcome.Sound.fail _ (h.same ⟨rfl, rfl, rfl⟩)
      rename_i beacon hbeacon
      split
      · exact Outcome.Sound.fail _ (h.same ⟨rfl, rfl, rfl⟩)
      rename_i assign hassign
      split
      · rename_i heq
        cases heq
        obtain ⟨hreads, hindex⟩ := hcount height cp hfind hvalid hnew hmode
        have hassign' := subnetAssign_eq hassign (readsBeacon_eq hreads hbeacon)
        subst hassign'
        have hkept : PureRecords cr cfg set R (addSigner bp.checkpointHash bp.validator { b with
            partialSigs := b.partialSigs.insert (toLex (bp.checkpointHash, bp.validator))
              bp.sig }) := h.same ⟨rfl, rfl, rfl⟩
        unfold collectSubnet
        refine Outcome.Sound.andThen (joinSubnet_purely hkept hindex
          (Or.inr (verifyPartial_known hvalid))) ?_
        intro hrec
        split
        · exact Outcome.Sound.fail _ hrec
        split
        · exact (tryEmitModeAQc_aside _ _ _).elsewhere.purely hrec
        · exact Outcome.Sound.quiet hrec
      · exact (collectFlat_aside _ _ _ _ _ _).elsewhere.purely (h.same ⟨rfl, rfl, rfl⟩)

theorem onSubnetAggregate_purely {b : MacroBook} (h : PureRecords cr cfg set R b)
    (hset : ∀ s, activeSet ctx = .ok s → s = set) {a : SubnetAggregate}
    (hstore : ∀ height cp, b.findCandidate a.checkpointHash = some (height, cp) →
      verifySubnetAgg cr set a cp b.partialSigs = true →
        SubnetPure cr set (assignOf set cfg R a.checkpointHash) a) :
    Purely cr cfg set R (onSubnetAggregate cr cfg ctx a b) := by
  unfold onSubnetAggregate
  cases hfind : b.findCandidate a.checkpointHash with
  | none => exact Outcome.Sound.quiet h
  | some found =>
    obtain ⟨height, cp⟩ := found
    dsimp only
    cases hactive : activeSet ctx with
    | error e => exact Outcome.Sound.fail _ h
    | ok s =>
      cases hset s hactive
      dsimp only
      split
      · exact Outcome.Sound.quiet (h.same ⟨rfl, rfl, rfl⟩)
      rename_i hverify
      have hpure := hstore height cp hfind (by simpa using hverify)
      refine (tryEmitModeAQc_aside _ _ _).elsewhere.purely ⟨h.signers, ?_⟩
      intro x aggs t g hx ht
      cases Maps.get_of_insert hx with
      | inl hnew =>
        obtain ⟨rfl, rfl⟩ := hnew
        cases Maps.get_of_insert ht with
        | inl hnew' =>
          obtain ⟨-, rfl⟩ := hnew'
          exact ⟨rfl, hpure⟩
        | inr hold =>
          cases hold' : b.subnetAggs[a.checkpointHash]? with
          | none => simp [hold'] at hold
          | some old =>
            rw [hold', Option.getD_some] at hold
            exact h.aggregates _ old t g hold' hold
      | inr hold => exact h.aggregates x aggs t g hold ht

end Subnets

structure PureNetwork (cr : Crypto) (cfg : Config) (set : ValidatorSet) (R : Hash32 → Hash32)
    (w : Network) : Prop where
  sent : ∀ a, Action.broadcastSubnetAggregate a ∈ w.sent →
    SubnetPure cr set (assignOf set cfg R a.checkpointHash) a
  nodes : ∀ v, (w.nodes v).cfg = cfg ∧ PureRecords cr cfg set R (w.nodes v).macros

section Runs
variable {cr : Crypto} {cfg : Config} {set : ValidatorSet} {R : Hash32 → Hash32}

/-- The called node: every handler of L3 keeps purity under the assumptions. -/
theorem handler_purely {call : NetworkCall} (h : PureNetwork cr cfg set R call.pre)
    (hset : ∀ s, activeSet call.node.ctx = .ok s → s = set)
    (hassigned : call.assigned cr cfg set R = true) {f : MacroBook → Result MacroBook}
    (hf : MacroHandler cr call.node f) : Purely cr cfg set R (f call.node.pre.macros) := by
  have hcfg : call.node.pre.cfg = cfg := (h.nodes call.input.1).1
  have hrec : PureRecords cr cfg set R call.node.pre.macros := (h.nodes call.input.1).2
  cases hf with
  | micro cv acts hev hacts => exact (onLocalMicroQcs_aside acts _).elsewhere.purely hrec
  | timer id hev =>
    have htimer : Elsewhere call.node.pre.macros
        (MacroFin.onTimerFired cr call.node.pre.cfg call.node.ctx id call.node.pre.macros) :=
      onTimerFired_sends (fun _ => Action.not_aggregate) (fun _ _ _ _ _ _ _ _ _ => rfl) id _
    exact htimer.purely hrec
  | qc qc hev => exact (onMacroQcReceived_aside qc _).elsewhere.purely hrec
  | proposal p hev =>
    rw [hcfg]
    refine onMacroProposal_purely hrec hset ?_
    intro haccepts hmode
    simpa [NetworkCall.assigned, hev, hmode, haccepts] using hassigned
  | vote bp hev =>
    rw [hcfg]
    refine onBlsPartial_purely hrec hset ?_
    intro height cp hfind hverify hnew hmode
    simpa [NetworkCall.assigned, hev, hfind, hverify, hnew, hmode] using hassigned
  | aggregate a hev =>
    rw [hcfg]
    refine onSubnetAggregate_purely hrec hset ?_
    intro height cp hfind hverify
    simp only [NetworkCall.assigned, hev, hfind, Option.all_some, hverify, Bool.not_true,
      Bool.false_or, Bool.and_eq_true, Bool.or_eq_true, decide_eq_true_eq] at hassigned
    cases hassigned.2 with
    | inl hsent => exact h.sent a hsent
    | inr hpure => exact hpure

theorem network_step {call : NetworkCall} (h : PureNetwork cr cfg set R call.pre)
    (hset : ∀ s, activeSet call.node.ctx = .ok s → s = set)
    (hassigned : call.assigned cr cfg set R = true) :
    PureNetwork cr cfg set R (Network.exec cr call.input call.pre).state := by
  have hsound : Outcome.Sound (fun sm : StateMachine => PureRecords cr cfg set R sm.macros)
      (PureIfAggregate cr cfg set R)
      (StateMachine.exec cr call.input.2 (call.pre.nodes call.input.1)) := by
    refine exec_sound cr call.node ?_ (fun f hf => handler_purely h hset hassigned hf)
      (h.nodes call.input.1).2
    rintro a hkind g rfl
    simp [Action.isVertexKind, Action.isWave] at hkind
  refine ⟨?_, ?_⟩
  · intro a ha
    cases List.mem_append.mp ha with
    | inl hold => exact h.sent a hold
    | inr hnew => exact hsound.actions _ hnew a rfl
  · intro v
    by_cases hv : v = call.input.1
    · subst hv
      simp only [Network.exec, Function.update_self]
      exact ⟨(exec_cfg cr call.node).trans (h.nodes _).1, hsound.state⟩
    · simp only [Network.exec, Function.update_of_ne hv]
      exact h.nodes v

end Runs

/-- Subnet purity. Where partials come from the subnet of their signer and stored aggregates
from a node, every aggregate that a node broadcasts or stores has members of its subnet in it,
`2f+1` of them and no one else. -/
theorem subnet_aggregates_pure (cr : Crypto) (cfg : Config) (set : ValidatorSet)
    (R : Hash32 → Hash32) (ds : List Delivery)
    (hset : ∀ d ∈ ds, ∀ s, activeSet d.2.2 = .ok s → s = set)
    (hassigned : ∀ call ∈ Network.run cr cfg ds, call.assigned cr cfg set R = true) :
    (∀ a, Action.broadcastSubnetAggregate a ∈ (Network.reached cr cfg ds).sent →
      SubnetPure cr set (assignOf set cfg R a.checkpointHash) a) ∧
    ∀ (v : ValidatorId) (x : Hash32) (aggs : Std.TreeMap SubnetId SubnetAggregate) (s : SubnetId)
      (a : SubnetAggregate),
      ((Network.reached cr cfg ds).nodes v).macros.subnetAggs[x]? = some aggs → aggs[s]? = some a →
        a.checkpointHash = x ∧ SubnetPure cr set (assignOf set cfg R x) a := by
  have hpure := Trace.invariant (Network.exec cr)
    (fun call : NetworkCall => (∀ s, activeSet call.node.ctx = .ok s → s = set) ∧
      call.assigned cr cfg set R = true)
    (fun _ w => PureNetwork cr cfg set R w) (Network.new cfg) ?_ ?_ ds ?_
  · exact ⟨hpure.sent, fun v => (hpure.nodes v).2.aggregates⟩
  · refine ⟨by simp [Network.new], fun v => ⟨rfl, ?_, ?_⟩⟩ <;>
      simp [Network.new, StateMachine.new, MacroBook.new]
  · exact fun _ w d h hgood => @network_step _ _ _ _ ⟨w, d⟩ h hgood.1 hgood.2
  · intro call hcall
    refine ⟨?_, hassigned call hcall⟩
    have hin : call.input ∈ ds := by
      rw [← Trace.map_input (Network.exec cr) (Network.new cfg) ds]
      exact List.mem_map_of_mem hcall
    exact hset call.input hin

section Devnet
open Devnet

def subnetCrypto : Crypto := { openCrypto with
  blake3WithDst := fun dst msg =>
    match dst, msg with
    | .subnetAssign, .idHash id _ => ⟨id.val * 2 ^ 224⟩
    | _, _ => ⟨hash dst msg⟩ }

def subnetConfig : Config := { config with aggregation := { config.aggregation with
  simForceKe := some 4 } }

def subnetPartial (signer subnet : Nat) : Round × Event :=
  (0, .blsPartialReceived ⟨subnet, ⟨signer⟩, a0.hash, sigOf ⟨signer⟩⟩)

def ownAggregate : SubnetAggregate := ⟨2, a0.hash, ⟨sumSigs [sigOf ⟨2⟩], [4#8]⟩⟩

def subnetRun : List Delivery :=
  [(⟨0⟩, (.event (closesWave 1).2, ports 0 5)), (⟨2⟩, (.event (closesWave 1).2, ports 2 5)),
    (⟨2⟩, (.event (proposal 0 a0).2, ports 2 5)),
    (⟨0⟩, (.event (subnetPartial 2 2).2, ports 0 5)),
    (⟨0⟩, (.event (.subnetAggregateReceived ownAggregate), ports 0 5))]

theorem own_aggregate_pure :
    (Action.broadcastSubnetAggregate ownAggregate ∈
        (Network.reached subnetCrypto subnetConfig subnetRun).sent ∧
      SubnetPure subnetCrypto validators (assignOf validators subnetConfig (fun _ => ⟨0⟩) a0.hash)
        ownAggregate) := by
  have h := subnet_aggregates_pure subnetCrypto subnetConfig validators (fun _ => ⟨0⟩) subnetRun
    (by
      intro d hd s hs
      simp only [subnetRun, List.mem_cons, List.not_mem_nil, or_false] at hd
      obtain rfl | rfl | rfl | rfl | rfl := hd <;> exact (Except.ok.inj hs).symm)
    (by decide)
  have hsent : Action.broadcastSubnetAggregate ownAggregate ∈
      (Network.reached subnetCrypto subnetConfig subnetRun).sent := by decide
  exact ⟨hsent, h.1 ownAggregate hsent⟩

/-- A partial of validator 3 that says subnet 2. -/
theorem foreign_signer_aggregated :
    let book := (StateMachine.reached subnetCrypto subnetConfig ⟨2⟩
      (script 2 [closesWave 1, subnetPartial 3 2])).macros
    let a : SubnetAggregate := ⟨2, a0.hash, ⟨sumSigs [sigOf ⟨3⟩], [8#8]⟩⟩
    Action.broadcastSubnetAggregate a ∈ StateMachine.actions subnetCrypto subnetConfig ⟨2⟩
        (script 2 [closesWave 1, subnetPartial 3 2]) ∧
      activeMode book subnetConfig validators a0.height = .ok .modeASubnet ∧
      book.candidateBeacon[a0.height]? = some ⟨0⟩ ∧
      ¬ SubnetPure subnetCrypto validators
        (assignOf validators subnetConfig (fun _ => ⟨0⟩) a0.hash) a := by
  decide

end Devnet
end LuaDag
