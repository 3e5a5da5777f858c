import LuaDag.BorshLayout
import LuaDag.GossipWire
import LuaDag.SubnetPurity

/-! What nodes publish and what they subscribe to (`net::swarm_runner::subscribe_set`). -/
namespace LuaDag
open MacroFin

def subscribeSet (macroSubnetCount : ℕ) : List Topic :=
  let partialCount := if macroSubnetCount = 0 then 1 else macroSubnetCount
  [.certifiedVertex, .microQc, .macroProposal, .subnetAggregate, .macroQc, .slashEvidence,
    .vertexProposal, .vertexPartial] ++ (List.range partialCount).map .blsPartial

theorem mem_subscribeSet {ke : ℕ} {t : Topic} :
    t ∈ subscribeSet ke ↔ t ≠ .blobChunk ∧ ∀ s, t = .blsPartial s → s < max ke 1 := by
  have hcount : (if ke = 0 then 1 else ke) = max ke 1 := by
    split <;> omega
  unfold subscribeSet
  rw [hcount]
  cases t <;> simp

inductive Message where
  | action (act : Action)
  | chunk (c : BlobChunk)

def Message.publishedOn (borsh : Borsh) : Message → Except NetError (Option Topic)
  | .action act => (outboundBroadcast borsh act).map fun out => out.map (·.1)
  | .chunk c => (encodeBlobChunk borsh c).map fun out => some out.1

inductive CanPublish (cr : Crypto) (cfg : Config) (n : ℕ) : Message → Prop
  | action (call : NodeCall) (act : Action) (hcfg : call.pre.cfg = cfg)
      (hn : ∀ set, activeSet call.ctx = .ok set → set.entries.length = n)
      (hact : act ∈ (StateMachine.exec cr call.input call.pre).actions) :
      CanPublish cr cfg n (.action act)
  | chunk (c : BlobChunk) : CanPublish cr cfg n (.chunk c)

section Votes
variable {cr : Crypto} {cfg : Config} {ctx : HostContext} {ke : ℕ}

def InSubnets (ke : ℕ) (a : Action) : Prop :=
  ∀ bp, a = .broadcastBlsPartial bp → bp.subnet < max ke 1

theorem inSubnets_of_aside {a : Action} (h : a.isSubnetTraffic = false) : InSubnets ke a := by
  rintro bp rfl
  cases h

theorem indexFor_lt (assign : SubnetAssign) (me : ValidatorId) :
    assign.indexFor cr me < max assign.ke 1 :=
  Nat.mod_lt _ (Nat.lt_of_lt_of_le Nat.one_pos (Nat.le_max_right _ _))

theorem ownVotes_inSubnets {n : ℕ}
    (hn : ∀ set, activeSet ctx = .ok set → set.entries.length = n) :
    OwnVotes cr cfg ctx (InSubnets (computeKe cfg n)) := by
  intro set beacon assign hset hassign mode me bp hsubnet bp' heq
  cases heq
  rw [hsubnet]
  split
  · have hke := subnetAssign_eq (R := fun _ => beacon) (x := ⟨0⟩) hassign rfl
    have hlt := @indexFor_lt cr assign me
    rw [hke, ← hn set hset] at *
    exact hlt
  · exact Nat.lt_of_lt_of_le Nat.one_pos (Nat.le_max_right _ _)

def Covers (ke : ℕ) (o : Result MacroBook) : Prop :=
  Outcome.Sound (fun _ => True) (InSubnets ke) o

theorem KeepsSubnets.covers {b : MacroBook} {o : Result MacroBook}
    (h : KeepsSubnets (InSubnets ke) b o) : Covers ke o :=
  ⟨trivial, h.actions⟩

theorem Aside.covers {b : MacroBook} {o : Result MacroBook} (h : Aside b o) : Covers ke o :=
  (h.keeps fun _ => inSubnets_of_aside).covers

theorem Covers.andThen {o : Result MacroBook} {k : MacroBook → Result MacroBook}
    (h : Covers ke o) (hk : ∀ d, Covers ke (k d)) : Covers ke (o.andThen k) :=
  Outcome.Sound.andThen h fun _ => hk o.state

theorem joinSubnet_covers (set : ValidatorSet) (assign : SubnetAssign) (hash : Hash32)
    (subnet : SubnetId) (v : ValidatorId) (b : MacroBook) :
    Covers ke (joinSubnet cr set assign hash subnet v b) := by
  unfold joinSubnet
  dsimp only
  split
  · exact Outcome.Sound.quiet trivial
  split
  · refine Outcome.Sound.ok trivial ?_
    rintro a ha bp rfl
    cases List.mem_singleton.mp ha
  · exact Outcome.Sound.quiet trivial

theorem castVote_covers (hvotes : OwnVotes cr cfg ctx (InSubnets ke)) {set : ValidatorSet}
    (hset : activeSet ctx = .ok set) (beacon : Hash32) (mode : AggregationMode)
    (locks : LockMacro) (cp : MacroCheckpoint) (b : MacroBook) :
    Covers ke (castVote cr cfg ctx set beacon mode locks cp b) := by
  unfold castVote
  dsimp only
  split
  · exact ⟨trivial, by simp [Outcome.actions]⟩
  rename_i assign hassign
  have hown := hvotes set beacon assign hset hassign mode b.selfId
  refine (vote_sends (fun _ => inSubnets_of_aside) hown locks cp _ b).covers.andThen ?_
  intro d
  split
  · exact joinSubnet_covers set assign cp.hash _ _ d
  · exact Outcome.Sound.quiet trivial

theorem onMacroProposal_covers (hvotes : OwnVotes cr cfg ctx (InSubnets ke)) (p : MacroProposal)
    (b : MacroBook) : Covers ke (onMacroProposal cr cfg ctx p b) := by
  cases hacc : accepts cr cfg ctx p b with
  | true =>
    obtain ⟨set, beacon, mode, locks, hset, -, -, hcast⟩ :=
      onMacroProposal_casts cr cfg ctx hacc
    rw [hcast]
    exact castVote_covers hvotes hset beacon mode locks _ _
  | false =>
    obtain ⟨-, -, -, -, -, -, hacts⟩ := onMacroProposal_declines cr cfg ctx hacc
    refine ⟨trivial, ?_⟩
    rintro a ha bp rfl
    obtain ⟨ev, hev⟩ := hacts _ ha
    cases hev

theorem onBlsPartial_covers (bp : BlsPartial) (b : MacroBook) :
    Covers ke (onBlsPartial cr cfg ctx bp b) := by
  unfold onBlsPartial
  split
  · exact Outcome.Sound.quiet trivial
  split
  · exact Outcome.Sound.fail _ trivial
  split
  · exact Outcome.Sound.quiet trivial
  dsimp only
  split
  · exact Outcome.Sound.quiet trivial
  split
  · exact Outcome.Sound.fail _ trivial
  split
  · exact Outcome.Sound.fail _ trivial
  split
  · exact Outcome.Sound.fail _ trivial
  split
  · refine (joinSubnet_covers _ _ _ _ _ _).andThen fun d => ?_
    split
    · exact Outcome.Sound.fail _ trivial
    split
    · exact (tryEmitModeAQc_aside _ _ d).covers
    · exact Outcome.Sound.quiet trivial
  · exact (collectFlat_aside _ _ _ _ _ _).covers

theorem onSubnetAggregate_covers (a : SubnetAggregate) (b : MacroBook) :
    Covers ke (onSubnetAggregate cr cfg ctx a b) := by
  unfold onSubnetAggregate
  split
  · exact Outcome.Sound.quiet trivial
  split
  · exact Outcome.Sound.fail _ trivial
  split
  · exact Outcome.Sound.quiet trivial
  · exact (tryEmitModeAQc_aside _ _ _).covers

theorem exec_inSubnets {call : NodeCall} {n : ℕ}
    (hn : ∀ set, activeSet call.ctx = .ok set → set.entries.length = n) :
    ∀ a ∈ (StateMachine.exec cr call.input call.pre).actions,
      InSubnets (computeKe call.pre.cfg n) a := by
  have hvotes := @ownVotes_inSubnets cr call.pre.cfg call.ctx n hn
  refine (exec_sound (P := fun _ => True) cr call ?_ ?_ trivial).actions
  · rintro a hkind bp rfl
    simp [Action.isVertexKind, Action.isWave] at hkind
  · intro f hf
    cases hf with
    | micro cv acts hev hacts => exact (onLocalMicroQcs_aside acts _).covers
    | proposal p hev => exact onMacroProposal_covers hvotes p _
    | vote bp hev => exact onBlsPartial_covers bp _
    | aggregate a hev => exact onSubnetAggregate_covers a _
    | qc qc hev => exact (onMacroQcReceived_aside qc _).covers
    | timer id hev => exact (onTimerFired_sends (fun _ => inSubnets_of_aside) hvotes id _).covers

end Votes

section Topics
variable {borsh : Borsh}

theorem onTopic_topic {α : Type} {t topic : Topic} {c : Codec α} {a : α} {bytes : WireBytes}
    (h : onTopic t c a = .ok (some (topic, bytes))) : topic = t := by
  unfold onTopic at h
  cases henc : c.encodeActionPayload a with
  | error e =>
    rw [henc] at h
    cases h
  | ok b =>
    rw [henc] at h
    cases h
    rfl

/-- Votes have the topics of the subnets, and no action that of the chunks. -/
theorem outbound_topic {act : Action} {topic : Topic} {bytes : WireBytes}
    (h : outboundBroadcast borsh act = .ok (some (topic, bytes))) :
    topic ≠ .blobChunk ∧
      ∀ s, topic = .blsPartial s → ∃ bp, act = .broadcastBlsPartial bp ∧ bp.subnet = s := by
  cases act with
  | broadcastBlsPartial p =>
    have ht := onTopic_topic h
    subst ht
    refine ⟨by simp, ?_⟩
    intro s hs
    cases hs
    exact ⟨p, rfl, rfl⟩
  | broadcastMicroQc _ | broadcastMacroProposal _ | broadcastSubnetAggregate _
  | broadcastMacroQc _ | emitSlashEvidence _ _ | broadcastVertexProposal _
  | broadcastVertexPartial _ | broadcastCertifiedVertex _ =>
    have ht := onTopic_topic h
    subst ht
    exact ⟨by simp, by simp⟩
  | persistMacroQc _ | persistMacroCheckpoint _ | scheduleTimer _ _ | cancelTimer _
  | updateBlobStatus _ _ | notifyInactivityLeak _ _ => cases h

theorem publishedOn_action {act : Action} {topic : Topic}
    (h : (Message.action act).publishedOn borsh = .ok (some topic)) :
    ∃ bytes, outboundBroadcast borsh act = .ok (some (topic, bytes)) := by
  unfold Message.publishedOn at h
  dsimp only at h
  cases hout : outboundBroadcast borsh act with
  | error e =>
    rw [hout] at h
    cases h
  | ok out =>
    rw [hout] at h
    obtain ⟨row, hrow, rfl⟩ := Option.map_eq_some_iff.mp (Except.ok.inj h)
    exact ⟨row.2, by rw [hrow]⟩

theorem publishedOn_chunk {c : BlobChunk} {topic : Topic}
    (h : (Message.chunk c).publishedOn borsh = .ok (some topic)) : topic = .blobChunk := by
  unfold Message.publishedOn encodeBlobChunk at h
  dsimp only at h
  cases henc : borsh.blobChunk.encodeActionPayload c with
  | error e =>
    rw [henc] at h
    cases h
  | ok bytes =>
    rw [henc] at h
    exact (Option.some.inj (Except.ok.inj h)).symm

end Topics

/-- Publish and subscribe coverage. Of what a node can publish, its peers have subscribed to the
topics of the actions, whatever `K_e` is, and not to that of the blob chunks. -/
theorem published_subscribed_iff (cr : Crypto) (borsh : Borsh) (cfg : Config) (n : ℕ)
    (msg : Message) (topic : Topic) (hmsg : CanPublish cr cfg n msg)
    (htopic : msg.publishedOn borsh = .ok (some topic)) :
    topic ∈ subscribeSet (computeKe cfg n) ↔ ∃ act, msg = .action act := by
  rw [mem_subscribeSet]
  cases hmsg with
  | action call act hcfg hn hact =>
    obtain ⟨bytes, hout⟩ := publishedOn_action htopic
    obtain ⟨hne, hvote⟩ := outbound_topic hout
    refine iff_of_true ⟨hne, ?_⟩ ⟨act, rfl⟩
    intro s hs
    obtain ⟨bp, hbp, hsubnet⟩ := hvote s hs
    have hlt := exec_inSubnets hn act hact bp hbp
    rwa [hcfg, hsubnet] at hlt
  | chunk c =>
    refine iff_of_false ?_ (by simp)
    exact fun h => h.1 (publishedOn_chunk htopic)

section Devnet
open Devnet

def subnetVote : BlsPartial := ⟨2, ⟨2⟩, a0.hash, sigOf ⟨2⟩⟩

def subnetVoteBytes : WireBytes := (BlsPartial.layout.write subnetVote).getD []

def subnetCall : NodeCall :=
  ⟨StateMachine.reached subnetCrypto subnetConfig ⟨2⟩ (script 2 [closesWave 1]),
    (.event (proposal 0 a0).2, ports 2 5)⟩

theorem published_subscribed_vote :
    Topic.blsPartial 2 ∈ subscribeSet (computeKe subnetConfig 4) := by
  refine (published_subscribed_iff subnetCrypto
    { fixtureBorsh with blsPartial := oneValue subnetVote subnetVoteBytes } subnetConfig 4
    (.action (.broadcastBlsPartial subnetVote)) (.blsPartial 2) ?_ ?_).mpr ⟨_, rfl⟩
  · refine .action subnetCall _ ?_ ?_ (by decide)
    · exact exec_cfg subnetCrypto
        ⟨StateMachine.new subnetConfig ⟨2⟩, (.event (closesWave 1).2, ports 2 (closesWave 1).1)⟩
    · intro set hset
      cases hset
      rfl
  · rfl

/-- The second of two shards of one byte: the id in 32 bytes, the size in eight, the tag of the
payload, and then its index, shard count, length and data. -/
def lastShard : BlobChunk := ⟨⟨0⟩, 1, .erasure 1 2 [1]⟩

def lastShardBytes : WireBytes :=
  List.replicate 32 0 ++ [1, 0, 0, 0, 0, 0, 0, 0] ++ [0] ++ [1, 0, 0, 0] ++ [2, 0, 0, 0] ++
    [1, 0, 0, 0] ++ [1]

/-- It is published, and nobody has subscribed to its topic. -/
theorem chunk_unsubscribed :
    ¬ ∀ (cr : Crypto) (borsh : Borsh) (cfg : Config) (n : ℕ) (msg : Message) (topic : Topic),
      CanPublish cr cfg n msg → msg.publishedOn borsh = .ok (some topic) →
        topic ∈ subscribeSet (computeKe cfg n) := by
  intro h
  have hin := h openCrypto { fixtureBorsh with blobChunk := oneValue lastShard lastShardBytes }
    config 4 (.chunk lastShard) .blobChunk (.chunk lastShard) rfl
  exact absurd hin (by decide)

end Devnet
end LuaDag
