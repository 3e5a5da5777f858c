import LuaDag.HostRun
import LuaDag.OwnVertices
import LuaDag.ParentVotes
import LuaDag.VertexAgreement

/-! The DAG that the hosts of a network build together. Whoever certifies a vertex has its parents
on record, each with a certificate of its own; so certified vertices have a certified past, down
to round 0, and what honest hosts hold fits together. -/
namespace LuaDag
open VertexCert

/- L1 writes in a call of the whole node. -/
section Signed
variable {cr : Crypto} {call : NodeCall}

abbrev NodeBookMove (cr : Crypto) (call : NodeCall) :=
  Simulation.Within (BookMove cr call) (fun r => r.1.isMacro = true)
    (fun a => a.isVertexNews = false)

theorem VertexHandler.writes {f : VertexBook → Result VertexBook} (h : VertexHandler cr call f)
    (book : VertexBook) : BookSteady cr call book (f book) := by
  cases h with
  | genesis h => exact genesisPropose_moves book
  | certified cv h => exact onCertifiedVertex_moves cv book h
  | proposal p h => exact onVertexProposal_moves p book h
  | vote bp h => exact onVertexPartial_moves bp book h
  | timer id h => exact onTimerFired_moves id book h

theorem exec_writes (cr : Crypto) (call : NodeCall) :
    Simulation.Steady (NodeBookMove cr call) (·.vertices) call.pre.vertices
      (StateMachine.exec cr call.input call.pre) := by
  refine LayersSteady.exec ⟨?_, ?_, ?_⟩
  · intro sm f _ hf
    exact Simulation.Steady.lift (hf.writes sm.vertices) fun _ => rfl
  · intro sm f _ hf
    have hw := wave_spec (hf.steady sm.waves)
    exact Simulation.Steady.other rfl (fun r hr => (hw.1 r hr).elim)
      (fun a ha => (isWave_not_decision (hw.2 a ha)).2)
  · intro sm f hsm hf
    have hkind := handled_kind hf.handled
    rw [← hsm] at hkind
    exact Simulation.Steady.other rfl hkind.1 fun a ha => isMacroKind_not_news (hkind.2 a ha)

/-- An invariant over what has been signed and the vertex book. -/
theorem book_signed (cr : Crypto) (Good : NodeCall → Prop) (P : List SignReq → VertexBook → Prop)
    (hmove : ∀ call, Good call → ∀ log b sg acts d, BookMove cr call b sg acts d → P log b →
      P (log ++ sg) d)
    (hother : ∀ log b (sg : List SignReq), (∀ r ∈ sg, r.1.isMacro = true) → P log b →
      P (log ++ sg) b)
    (cfg : Config) (self : ValidatorId) (hinit : P [] (VertexBook.new self))
    (is : List StateMachine.Input) (hgood : ∀ call ∈ StateMachine.run cr cfg self is, Good call) :
    P (StateMachine.signLog cr cfg self is) (StateMachine.reached cr cfg self is).vertices := by
  refine Trace.invariant (StateMachine.exec cr) Good
    (fun hist sm => P (Trace.signed (StateMachine.exec cr) hist) sm.vertices)
    (StateMachine.new cfg self) hinit ?_ is hgood
  intro hist sm i hp hg
  obtain ⟨acts, hpath, -⟩ := exec_writes cr ⟨sm, i⟩
  rw [Trace.signed_append, Trace.signed_singleton]
  refine hpath.invariant (P := fun log _ b => P log b) (R := fun _ => True) ?_
    (fun _ _ => trivial) _ [] hp
  intro log _ b sg acts' d _ hm hb
  cases hm with
  | own hmv => exact hmove ⟨sm, i⟩ hg _ _ _ _ _ hmv hb
  | other hsg _ => exact hother _ _ _ hsg hb

end Signed

/- Certified parents. -/

def Certificate (cr : Crypto) (set : ValidatorSet) (r : Round) (a : ValidatorId) (h : Hash32) :
    Prop :=
  ∃ cv, verifyCertifiedVertex cr cv set = .ok () ∧ cv.vertex.round = r ∧ cv.vertex.author = a ∧
    cv.vertex.hash = h

/-- None at round 0, and above it a list of quorum length of certified hashes of the round before.
Hashes may repeat. -/
def ParentsCertified (cr : Crypto) (set : ValidatorSet) (r : Round) (parents : List Hash32) :
    Prop :=
  r = 0 ∧ parents = [] ∨
    0 < r ∧ quorumThreshold set.entries.length ≤ parents.length ∧
      ∀ p ∈ parents, ∃ a, Certificate cr set (r - 1) a p

structure HostServes (cr : Crypto) (set : ValidatorSet) (call : NodeCall) : Prop where
  serves : ∀ set', activeSet call.ctx = .ok set' → set' = set
  verified : ∀ cv, call.event = some (.certifiedVertexReceived cv) →
    verifyCertifiedVertex cr cv set = .ok ()

structure Rooted (cr : Crypto) (set : ValidatorSet) (log : List SignReq) (b : VertexBook) :
    Prop where
  recorded : ∀ (r : Round) (a : ValidatorId) (h : Hash32),
    (b.certifiedByRound[r]?.getD ∅)[a]? = some h → Certificate cr set r a h
  signed : ∀ r a ps bs, Certified log r a ps bs → ParentsCertified cr set r ps

section Rooted
variable {cr : Crypto} {set : ValidatorSet} {log : List SignReq} {b d : VertexBook}

theorem Rooted.sign (h : Rooted cr set log b) {v : Vertex} {sg : List SignReq}
    (hps : ParentsCertified cr set v.round v.parents)
    (hsg : ∀ q ∈ sg, q.1 = .vertexCert → q = (.vertexCert, signingBytes v))
    (hcert : d.certifiedByRound = b.certifiedByRound) : Rooted cr set (log ++ sg) d := by
  refine ⟨fun r a x hx => h.recorded r a x (hcert ▸ hx), ?_⟩
  intro r a ps bs hc
  cases List.mem_append.mp hc with
  | inl hold => exact h.signed r a ps bs hold
  | inr hnew =>
    have heq := hsg _ hnew rfl
    simp only [signingBytes, Prod.mk.injEq, Bytes.vertexBody.injEq, true_and] at heq
    obtain ⟨rfl, -, rfl, -⟩ := heq
    exact hps

/-- A write without signatures that records nothing new. -/
theorem Rooted.keep (h : Rooted cr set log b)
    (hcert : ∀ (r : Round) (a : ValidatorId) (x : Hash32),
      (d.certifiedByRound[r]?.getD ∅)[a]? = some x →
      (b.certifiedByRound[r]?.getD ∅)[a]? = some x) : Rooted cr set (log ++ []) d := by
  rw [List.append_nil]
  exact ⟨fun r a x hx => h.recorded r a x (hcert r a x hx), h.signed⟩

theorem Rooted.record (h : Rooted cr set log b) {cv : CertifiedVertex}
    (hok : verifyCertifiedVertex cr cv set = .ok ()) (emitted : Finset Hash32) :
    Rooted cr set (log ++ []) (recordCert { b with emittedCerts := emitted } cv) := by
  rw [List.append_nil]
  refine ⟨?_, h.signed⟩
  intro r a x hx
  simp only [recordCert, Maps.get_insert] at hx
  split at hx
  · rename_i hr
    rw [Option.getD_some] at hx
    cases Maps.get_of_insert hx with
    | inl hnew =>
      obtain ⟨rfl, rfl⟩ := hnew
      exact ⟨cv, hok, hr, rfl, rfl⟩
    | inr hold =>
      rw [hr] at hold
      exact h.recorded r a x hold
  · exact h.recorded r a x hx

theorem quorumNeed_ok {need : Nat} (h : quorumNeed set = .ok need) :
    need = quorumThreshold set.entries.length := by
  unfold quorumNeed toU32 at h
  split at h
  · cases h
  · rename_i n hn
    split at hn
    · cases hn
      cases h
      rfl
    · cases hn

theorem Rooted.passes (h : Rooted cr set log b) {v : Vertex} (hpass : ParentsPass set b v) :
    ParentsCertified cr set v.round v.parents := by
  cases hpass with
  | inl hzero => exact Or.inl hzero
  | inr habove =>
    obtain ⟨hpos, need, hneed, hknown⟩ := habove
    obtain ⟨hlen, hall⟩ := parentsKnown_iff.mp hknown
    rw [quorumNeed_ok hneed] at hlen
    refine Or.inr ⟨hpos, hlen, ?_⟩
    intro p hp
    obtain ⟨a, ha⟩ := hall p hp
    exact ⟨a, h.recorded _ a p ha⟩

/-- The own vertex of the next round is on top of certificates on record. -/
theorem Rooted.climbs (h : Rooted cr set log b) {need : Nat}
    {certs : Std.TreeMap ValidatorId Hash32} (hready : Ready set b need certs) :
    ParentsCertified cr set (b.currentRound + 1) (certs.values.take need) := by
  refine Or.inr ⟨Nat.succ_pos _, ?_, ?_⟩
  · rw [List.length_take, Maps.length_values, ← quorumNeed_ok hready.threshold]
    exact le_min (le_refl _) hready.quorum
  · intro p hp
    obtain ⟨a, ha⟩ := Maps.mem_values.mp (List.mem_of_mem_take hp)
    rw [Nat.add_sub_cancel]
    refine ⟨a, h.recorded _ a p ?_⟩
    rw [hready.held, Option.getD_some, ha]

theorem rooted_move {call : NodeCall} {sg : List SignReq} {acts : List Action}
    (hg : HostServes cr set call) (hm : BookMove cr call b sg acts d) (h : Rooted cr set log b) :
    Rooted cr set (log ++ sg) d := by
  cases hm with
  | vote set' p hev hset hok hpass hseen hnew =>
    rw [hg.serves set' hset] at hpass
    exact h.sign (h.passes hpass) (by simp) rfl
  | certify set' need x p sigs cv hset hneed hnew hmine hsigs hquorum hcv hok =>
    rw [hg.serves set' hset] at hok
    exact h.record hok _
  | record cv hev => exact h.record (hg.verified cv hev) b.emittedCerts
  | genesis hst =>
    exact @Rooted.sign cr set log b _ h (ownVertex cr call.ctx b 0 []) _ (Or.inl ⟨rfl, rfl⟩)
      (by simp [ownRequests]) rfl
  | propose set' need certs hst hset hready =>
    rw [hg.serves set' hset] at hready
    exact @Rooted.sign cr set log b _ h
      (ownVertex cr call.ctx b (b.currentRound + 1) (certs.values.take need)) _
      (h.climbs hready) (by simp [ownRequests]) rfl
  | prune hst =>
    refine h.keep fun r a x hx => ?_
    cases hget : (prune b).certifiedByRound[r]? with
    | none => simp [hget] at hx
    | some certs =>
      rw [hget, Option.getD_some] at hx
      rw [Maps.get_of_filter hget, Option.getD_some, hx]
  | _ => exact h.keep fun r a x hx => hx

theorem rooted_run (cr : Crypto) (set : ValidatorSet) (cfg : Config) (self : ValidatorId)
    (is : List StateMachine.Input)
    (hgood : ∀ call ∈ StateMachine.run cr cfg self is, HostServes cr set call) :
    Rooted cr set (StateMachine.signLog cr cfg self is)
      (StateMachine.reached cr cfg self is).vertices := by
  refine book_signed cr (HostServes cr set) (Rooted cr set) ?_ ?_ cfg self ?_ is hgood
  · exact fun call hg log b sg acts d hm h => rooted_move hg hm h
  · intro log b sg hsg h
    refine ⟨h.recorded, ?_⟩
    intro r a ps bs hc
    cases List.mem_append.mp hc with
    | inl hold => exact h.signed r a ps bs hold
    | inr hnew => exact absurd (hsg _ hnew) (by simp [Dst.isMacro])
  · refine ⟨fun r a x hx => by simp [VertexBook.new] at hx, fun r a ps bs hc => ?_⟩
    simp [Certified] at hc

end Rooted

/- The processes. -/

namespace Host
variable {s : NodeSetup} {rows : HostRows} {ts : List HostStep} {cs : List HostCall}

theorem mem_delivered {is : List StateMachine.Input} {cv : CertifiedVertex} :
    cv ∈ delivered is ↔ ∃ ctx, (.event (.certifiedVertexReceived cv), ctx) ∈ is := by
  constructor
  · intro h
    obtain ⟨⟨req, ctx⟩, hin, hreq⟩ := List.mem_filterMap.mp h
    dsimp only at hreq
    split at hreq
    · cases hreq
      exact ⟨ctx, hin⟩
    · cases hreq
  · rintro ⟨ctx, hin⟩
    exact List.mem_filterMap.mpr ⟨_, hin, rfl⟩

theorem activeSet_hosted {valset set' : ValidatorSet} {ctx : HostContext}
    (hfor : ctx.setFor = Host.setFor valset) (h : activeSet ctx = .ok set') : set' = valset := by
  unfold activeSet at h
  rw [hfor] at h
  unfold Host.setFor at h
  split at h
  · cases h
  · cases h
  · rename_i hsome
    cases h
    split at hsome
    · cases hsome
      rfl
    · cases hsome

/-- A process calls its state machine on its own set, with verified vertices only. -/
theorem Hosted.serves {hist : List (Call HostStep Host)} {h : Host}
    (hh : Hosted s rows hist h cs) :
    ∀ call ∈ StateMachine.run s.cr s.cfg s.self (cs.map (·.1)),
      HostServes s.cr s.valset call := by
  intro call hcall
  have hin := run_input hcall
  obtain ⟨c, hc, heq⟩ := List.mem_map.mp hin
  obtain ⟨past, rest, hsplit⟩ := List.append_of_mem hc
  have hserved := hh.served past c rest hsplit
  refine ⟨?_, ?_⟩
  · intro set' hset
    have hfor : (NodeCall.ctx call).setFor = Host.setFor s.valset := by
      rw [← hserved.setFor, heq]
      rfl
    exact activeSet_hosted hfor hset
  · intro cv hev
    obtain ⟨pre, req, ctx⟩ := call
    cases req with
    | genesis => cases hev
    | event e =>
      cases hev
      exact hh.verified cv (mem_delivered.mpr ⟨ctx, hin⟩)

end Host

/-- The index lists the vertex or finds it. -/
def LiveDag.Holds (d : LiveDag) (cv : CertifiedVertex) : Prop :=
  (∃ r : Round, cv ∈ d.byRound[r]?.getD []) ∨ ∃ h : Hash32, d.byHash[h]? = some cv

theorem LiveDag.holds_of {vs : List CertifiedVertex} {cv : CertifiedVertex}
    (h : (of vs).Holds cv) : cv ∈ vs := by
  cases h with
  | inl hround =>
    obtain ⟨r, hr⟩ := hround
    rw [byRound_of] at hr
    exact List.mem_of_mem_filter hr
  | inr hhash =>
    obtain ⟨x, hx⟩ := hhash
    exact (byHash_some hx).1

/-- The members of a committee run processes of their own, over one set of validators. What a
Byzantine member runs does not matter. -/
structure HostNetwork (cr : Crypto) (com : Committee) where
  setup : ValidatorId → NodeSetup
  rows : ValidatorId → HostRows
  steps : ValidatorId → List HostStep
  sameCrypto : ∀ v, (setup v).cr = cr
  sameSet : ∀ v, (setup v).valset = com.set

/-- A verified certificate of round 0, or one whose parent list has the length of a quorum, with
repetitions counted, and only entries that have such a past themselves. -/
inductive CertifiedPast (cr : Crypto) (set : ValidatorSet) : CertifiedVertex → Prop
  | root (cv : CertifiedVertex) (hok : verifyCertifiedVertex cr cv set = .ok ())
      (hround : cv.vertex.round = 0) (hnone : cv.vertex.parents = []) : CertifiedPast cr set cv
  | above (cv : CertifiedVertex) (hok : verifyCertifiedVertex cr cv set = .ok ())
      (hmany : quorumThreshold set.entries.length ≤ cv.vertex.parents.length)
      (parent : Hash32 → CertifiedVertex)
      (hash : ∀ p ∈ cv.vertex.parents, (parent p).vertex.hash = p)
      (hround : ∀ p ∈ cv.vertex.parents, (parent p).vertex.round + 1 = cv.vertex.round)
      (past : ∀ p ∈ cv.vertex.parents, CertifiedPast cr set (parent p)) : CertifiedPast cr set cv

namespace HostNetwork
variable {cr : Crypto} {com : Committee} (N : HostNetwork cr com)

def log (v : ValidatorId) : List SignReq :=
  Trace.signed (Host.step (N.setup v)) (Host.run (N.setup v) (N.rows v) (N.steps v))

def dag (v : ValidatorId) : LiveDag := (Host.after (N.setup v) (N.rows v) (N.steps v)).dag

variable {N}

theorem log_rooted (v : ValidatorId) : ∃ b, Rooted cr com.set (N.log v) b := by
  obtain ⟨cs, hh⟩ := Host.exists_hosted (N.setup v) (N.rows v) (N.steps v)
  refine ⟨(StateMachine.reached cr (N.setup v).cfg (N.setup v).self (cs.map (·.1))).vertices, ?_⟩
  have hserves := hh.serves
  rw [N.sameCrypto v, N.sameSet v] at hserves
  rw [log, hh.signed, N.sameCrypto v]
  exact rooted_run cr com.set (N.setup v).cfg (N.setup v).self (cs.map (·.1)) hserves

theorem log_once (v : ValidatorId) : ∀ r a ps bs ps' bs', Certified (N.log v) r a ps bs →
    Certified (N.log v) r a ps' bs' → ps = ps' ∧ bs = bs' := by
  obtain ⟨cs, hh⟩ := Host.exists_hosted (N.setup v) (N.rows v) (N.steps v)
  rw [log, hh.signed]
  exact (run_slots (N.setup v).cr (N.setup v).cfg (N.setup v).self (cs.map (·.1))).once

theorem dag_verified {v : ValidatorId} {cv : CertifiedVertex} (h : (N.dag v).Holds cv) :
    verifyCertifiedVertex cr cv com.set = .ok () := by
  obtain ⟨cs, hh⟩ := Host.exists_hosted (N.setup v) (N.rows v) (N.steps v)
  rw [dag, hh.dag] at h
  have hok := hh.verified cv (LiveDag.holds_of h)
  rwa [N.sameCrypto v, N.sameSet v] at hok

section Sound
variable (hsound : SoundAggregates cr) (hunf : Unforgeable cr com N.log)
include hsound hunf

/-- An honest member has signed what is certified; two certificates have one in common. -/
theorem common_signer {cv cv' : CertifiedVertex}
    (h : verifyCertifiedVertex cr cv com.set = .ok ())
    (h' : verifyCertifiedVertex cr cv' com.set = .ok ()) :
    ∃ v, (.vertexCert, signingBytes cv.vertex) ∈ N.log v ∧
      (.vertexCert, signingBytes cv'.vertex) ∈ N.log v := by
  obtain ⟨-, A, hA, hcA, hsigned⟩ := verifyCertifiedVertex_spec hsound h
  obtain ⟨-, B, hB, hcB, hsigned'⟩ := verifyCertifiedVertex_spec hsound h'
  obtain ⟨i, hiA, hiB, e, he, hid⟩ := com.common_honest hA hB hcA hcB
  exact ⟨e.id, (hsigned i hiA).of_honest hunf he hid, (hsigned' i hiB).of_honest hunf he hid⟩

theorem one_vertex {cv cv' : CertifiedVertex} (h : verifyCertifiedVertex cr cv com.set = .ok ())
    (h' : verifyCertifiedVertex cr cv' com.set = .ok ())
    (hround : cv.vertex.round = cv'.vertex.round)
    (hauthor : cv.vertex.author = cv'.vertex.author) : cv.vertex = cv'.vertex := by
  obtain ⟨v, hlog, hlog'⟩ := common_signer hsound hunf h h'
  have hhash := (verifyCertifiedVertex_spec hsound h).1
  have hhash' := (verifyCertifiedVertex_spec hsound h').1
  unfold signingBytes at hlog hlog'
  rw [← hround, ← hauthor] at hlog'
  obtain ⟨hparents, hblobs⟩ := log_once v _ _ _ _ _ _ hlog hlog'
  refine (Vertex.mk.injEq ..).mpr ⟨hround, hauthor, hparents, hblobs, ?_⟩
  rw [hhash, hhash', contentHash, contentHash, signingBytes, signingBytes, hround, hauthor,
    hparents, hblobs]

theorem verified_parents {cv : CertifiedVertex}
    (h : verifyCertifiedVertex cr cv com.set = .ok ()) :
    ParentsCertified cr com.set cv.vertex.round cv.vertex.parents := by
  obtain ⟨v, hlog, -⟩ := common_signer hsound hunf h h
  obtain ⟨b, hb⟩ := @log_rooted cr com N v
  exact hb.signed _ _ _ _ hlog

/-- With at most `f` Byzantine members of `3f + 1`, whatever order the processes of the others
take their steps in, every vertex with a verified certificate has a certified past: at round 0 no
parents, above it a quorum of parent entries (one hash may fill several), each certified one round
below and so down to round 0. -/
theorem certified_history {cv : CertifiedVertex}
    (h : verifyCertifiedVertex cr cv com.set = .ok ()) : CertifiedPast cr com.set cv := by
  induction hr : cv.vertex.round using Nat.strong_induction_on generalizing cv with
  | _ r ih =>
    cases verified_parents hsound hunf h with
    | inl hzero => exact .root cv h hzero.1 hzero.2
    | inr habove =>
      obtain ⟨hpos, hmany, hall⟩ := habove
      have hex : ∀ p, ∃ w, p ∈ cv.vertex.parents →
          verifyCertifiedVertex cr w com.set = .ok () ∧ w.vertex.hash = p ∧
            w.vertex.round + 1 = cv.vertex.round := by
        intro p
        by_cases hp : p ∈ cv.vertex.parents
        · obtain ⟨a, w, hw, hround, -, hhash⟩ := hall p hp
          exact ⟨w, fun _ => ⟨hw, hhash, by rw [hround, Nat.sub_add_cancel hpos]⟩⟩
        · exact ⟨cv, fun hin => absurd hin hp⟩
      obtain ⟨parent, hparent⟩ := Classical.axiom_of_choice hex
      refine .above cv h hmany parent (fun p hp => (hparent p hp).2.1)
        (fun p hp => (hparent p hp).2.2) ?_
      intro p hp
      obtain ⟨hw, -, hround⟩ := hparent p hp
      exact ih _ (by rw [← hr, ← hround]; exact Nat.lt_succ_self _) hw rfl

/-- What the processes hold in their indices fits together. -/
theorem hosts_coherent (hapart : VerticesHashApart cr) (vs : List CertifiedVertex)
    (hvs : ∀ cv ∈ vs, ∃ v, (N.dag v).Holds cv) : Coherent vs := by
  have hver : ∀ cv ∈ vs, verifyCertifiedVertex cr cv com.set = .ok () := by
    intro cv hcv
    obtain ⟨v, hv⟩ := hvs cv hcv
    exact dag_verified hv
  have hslot : ∀ cv cv', verifyCertifiedVertex cr cv com.set = .ok () →
      verifyCertifiedVertex cr cv' com.set = .ok () → cv.vertex.hash = cv'.vertex.hash →
      cv.vertex.round = cv'.vertex.round ∧ cv.vertex.author = cv'.vertex.author := by
    intro cv cv' h h' heq
    rw [(verifyCertifiedVertex_spec hsound h).1, (verifyCertifiedVertex_spec hsound h').1] at heq
    exact hapart _ _ heq
  refine ⟨?_, ?_, ?_⟩
  · intro cv hcv cv' hcv' heq
    obtain ⟨hround, hauthor⟩ := hslot cv cv' (hver cv hcv) (hver cv' hcv') heq
    exact one_vertex hsound hunf (hver cv hcv) (hver cv' hcv') hround hauthor
  · intro cv hcv cv' hcv' hround hauthor
    exact one_vertex hsound hunf (hver cv hcv) (hver cv' hcv') hround hauthor
  · intro cv hcv w hw hin
    cases verified_parents hsound hunf (hver cv hcv) with
    | inl hzero => simp [hzero.2] at hin
    | inr habove =>
      obtain ⟨hpos, -, hall⟩ := habove
      obtain ⟨a, w', hw', hround, -, hhash⟩ := hall _ hin
      rw [← (hslot w' w hw' (hver w hw) hhash).1, hround, Nat.sub_add_cancel hpos]

end Sound
end HostNetwork

namespace Devnet

def netVertex (round author : Nat) : CertifiedVertex :=
  ⟨sealHash slotCrypto ⟨round, ⟨author⟩,
    if round = 0 then [] else (List.range 3).map fun a => ⟨Nat.pair (round - 1) a⟩, [], ⟨0⟩⟩,
    ⟨⟨6⟩, [7#8]⟩⟩

def netProposal (round author : Nat) : VertexProposal :=
  ⟨(netVertex round author).vertex, sigOf ⟨author⟩⟩

def netRecords : List Record :=
  [(0, 0), (0, 1), (0, 2), (1, 0)].flatMap fun (r, a) =>
    (a, .vertexProposal, signingBytes (netVertex r a).vertex) ::
      [0, 1, 2].map fun i => (i, .vertexCert, signingBytes (netVertex r a).vertex)

def netCrypto : Crypto := { crypto (recordedIn netRecords) with
  blake3WithDst := slotCrypto.blake3WithDst }

def listed {α : Type} [DecidableEq α] (table : List (WireBytes × α)) : Codec α where
  toVec a := ((table.find? fun e => e.2 = a).map (·.1)).elim (.error "not written") .ok
  fromSlice bytes := (table.lookup bytes).elim (.error "not read") .ok

def netBorsh : Borsh := { fixtureBorsh with
  vertexProposal := listed [([0], netProposal 0 0), ([1], netProposal 0 1), ([2], netProposal 0 2),
    ([3], netProposal 1 0)]
  certifiedVertex := listed [([0], netVertex 0 0), ([1], netVertex 0 1), ([2], netVertex 0 2),
    ([3], netVertex 1 0)] }

def netSetup (v : ValidatorId) : NodeSetup where
  cr := netCrypto
  borsh := netBorsh
  cfg := config
  self := v
  valset := validators
  signBls := fun _ _ => sigOf ⟨v.val⟩
  vrfProve := fun _ => .ok (⟨0⟩, ⟨0⟩)
  fuel := 200
  proposeEnabled := true

def answers : Answers := ⟨fun _ => [], fun _ => .ok ()⟩

def received (topic : String) (data : WireBytes) : List HostStep :=
  [.message topic data, .fanIn, .next answers]

def netSteps : List HostStep :=
  .boot answers :: ([[0], [1], [2]].flatMap (received Wire.vertexProposal) ++
    [[0], [1], [2]].flatMap (received Wire.certifiedVertex) ++ received Wire.vertexProposal [3])

def network : HostNetwork netCrypto committee where
  setup := netSetup
  rows := fun _ => {}
  steps := fun v => netSteps ++ if v = ⟨1⟩ then received Wire.certifiedVertex [3] else []
  sameCrypto := fun _ => rfl
  sameSet := fun _ => rfl

theorem network_run : (∀ r ∈ netRecords, r.1 = 3 ∨ r.2 ∈ network.log ⟨r.1⟩) ∧
    (network.dag ⟨0⟩).byRound[0]?.getD [] = [netVertex 0 0, netVertex 0 1, netVertex 0 2] ∧
    (network.dag ⟨1⟩).byRound[1]?.getD [] = [netVertex 1 0] := by
  decide +kernel

theorem network_unforgeable : Unforgeable netCrypto committee network.log :=
  @unforgeable netRecords network.log network_run.1

theorem network_sound : SoundAggregates netCrypto := soundAggregates (recordedIn netRecords)

theorem certified_history_network : CertifiedPast netCrypto validators (netVertex 1 0) :=
  HostNetwork.certified_history network_sound network_unforgeable (by decide +kernel)

/-- The vertices of round 0 that process 0 holds, and that of round 1 that process 1 holds. -/
theorem hosts_coherent_network :
    Coherent ([netVertex 0 0, netVertex 0 1, netVertex 0 2] ++ [netVertex 1 0]) := by
  refine HostNetwork.hosts_coherent network_sound network_unforgeable verticesHashApart _ ?_
  intro cv hcv
  rw [← network_run.2.1, ← network_run.2.2] at hcv
  cases List.mem_append.mp hcv with
  | inl hzero => exact ⟨⟨0⟩, Or.inl ⟨0, hzero⟩⟩
  | inr hone => exact ⟨⟨1⟩, Or.inl ⟨1, hone⟩⟩

end Devnet
end LuaDag
