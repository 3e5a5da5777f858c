import LuaDag.CertifiedDag
import LuaDag.CommitRule
import LuaDag.MicroUnique

/-! What the hosts of a network commit. Their views are parts of one certified DAG, so a wave has
one anchor, and where its past is there it is ordered in one way. -/
namespace LuaDag
open Bullshark

/-- The view finds all that it has heard of below `a`. -/
def DagView.WholePast (dag : DagView) (a : Hash32) : Prop :=
  ∀ b, dag.Reaches a b → ∃ cv, dag.vertex b = .ok (some cv)

structure SeesVerified (cr : Crypto) (set : ValidatorSet) (ctx : HostContext) : Prop where
  found : ∀ h cv, ctx.dag.vertex h = .ok (some cv) →
    verifyCertifiedVertex cr cv set = .ok () ∧ cv.vertex.hash = h
  listed : ∀ r vs, ctx.dag.verticesAtRound r = .ok vs → ∀ cv ∈ vs,
    verifyCertifiedVertex cr cv set = .ok () ∧ cv.vertex.round = r
  serves : ∀ set', ctx.setFor 0 = .ok (some set') → set' = set

theorem Host.Hosted.sees {s : NodeSetup} {rows : HostRows} {hist : List (Call HostStep Host)}
    {h : Host} {cs : List HostCall} (hh : Hosted s rows hist h cs) :
    ∀ c ∈ cs, SeesVerified s.cr s.valset c.1.2 := by
  intro c hc
  obtain ⟨past, rest, hsplit⟩ := List.append_of_mem hc
  have hserved := hh.served past c rest hsplit
  have hverified : ∀ cv ∈ delivered ((past ++ [c]).map (·.1)),
      verifyCertifiedVertex s.cr cv s.valset = .ok () := by
    intro cv hcv
    refine hh.verified cv ?_
    have hall : cs = (past ++ [c]) ++ rest := by simp [hsplit]
    rw [hall, List.map_append, delivered_append]
    exact List.mem_append_left _ hcv
  refine ⟨?_, ?_, ?_⟩
  · intro x cv hx
    rw [hserved.dag] at hx
    obtain ⟨hcv, hhash⟩ := LiveDag.byHash_some (Except.ok.inj hx)
    exact ⟨hverified cv hcv, hhash⟩
  · intro r vs hvs cv hcv
    rw [hserved.dag] at hvs
    obtain ⟨hin, hround⟩ := ((LiveDag.view_shows _).listed r vs hvs cv).mp hcv
    exact ⟨hverified cv hin, hround⟩
  · intro set' hset
    rw [hserved.setFor] at hset
    unfold Host.setFor at hset
    split at hset
    · cases hset
      rfl
    · cases hset

namespace HostNetwork
variable {cr : Crypto} {com : Committee} {N : HostNetwork cr com}

/-- In one of its steps the process of `v` makes the call. -/
def Calls (N : HostNetwork cr com) (v : ValidatorId) (call : NodeCall) : Prop :=
  ∃ past t rest ans req g, N.steps v = past ++ t :: rest ∧
    Host.Drives (N.setup v) (Host.after (N.setup v) (N.rows v) past) t ans req g ∧
    Host.step (N.setup v) t (Host.after (N.setup v) (N.rows v) past) =
      Host.drive (N.setup v) ans req g ∧
    call = ⟨g.sm, req, g.context (N.setup v) ans⟩

/-- A process calls its state machine on verified certificates only. -/
theorem Calls.sees {v : ValidatorId} {call : NodeCall} (h : N.Calls v call) :
    SeesVerified cr com.set call.ctx := by
  obtain ⟨past, t, rest, ans, req, g, -, hd, hstep, rfl⟩ := h
  obtain ⟨cs, hh⟩ := Host.exists_hosted (N.setup v) (N.rows v) past
  have hsees := (hh.call hd hstep).sees ((req, g.context (N.setup v) ans), ans) (by simp)
  rwa [N.sameCrypto v, N.sameSet v] at hsees

section Agreement
variable (hsound : SoundAggregates cr) (hunf : Unforgeable cr com N.log) {ctx ctx' : HostContext}
  (h : SeesVerified cr com.set ctx) (h' : SeesVerified cr com.set ctx')
include hsound hunf h h'

theorem one_anchor (hbeacon : ctx.beacon = ctx'.beacon) {cfg cfg' : Config} {w : WaveId}
    {t t' : Bool} {a a' : Hash32} (hc : CanCommit cr cfg ctx w t a)
    (hc' : CanCommit cr cfg' ctx' w t' a') : a = a' := by
  obtain ⟨set, d, hset, hd, rfl⟩ := hc
  obtain ⟨set', d', hset', hd', rfl⟩ := hc'
  rw [h.serves set hset] at hd
  rw [h'.serves set' hset'] at hd'
  obtain ⟨-, author, vs, v, hauthor, hvs, hfind, hhash⟩ := tryCommitWave_anchor hd
  obtain ⟨-, author', vs', v', hauthor', hvs', hfind', hhash'⟩ := tryCommitWave_anchor hd'
  rw [selectAnchor_beacon hbeacon, hauthor'] at hauthor
  obtain ⟨hok, hround⟩ := h.listed _ vs hvs v (List.mem_of_find?_eq_some hfind)
  obtain ⟨hok', hround'⟩ := h'.listed _ vs' hvs' v' (List.mem_of_find?_eq_some hfind')
  have hby : v.vertex.author = author := by simpa using List.find?_some hfind
  have hby' : v'.vertex.author = author' := by simpa using List.find?_some hfind'
  have hsame := one_vertex hsound hunf hok hok' (hround.trans hround'.symm)
    (by rw [hby, hby', Except.ok.inj hauthor])
  rw [← hhash, ← hhash', hsame]

section Past
variable (hapart : VerticesHashApart cr)
include hapart

theorem same_found {x : Hash32} {cv cv' : CertifiedVertex} (hx : ctx.dag.vertex x = .ok (some cv))
    (hx' : ctx'.dag.vertex x = .ok (some cv')) : cv.vertex = cv'.vertex := by
  obtain ⟨hok, hhash⟩ := h.found x cv hx
  obtain ⟨hok', hhash'⟩ := h'.found x cv' hx'
  have heq : contentHash cr cv.vertex = contentHash cr cv'.vertex := by
    rw [← (verifyCertifiedVertex_spec hsound hok).1, ← (verifyCertifiedVertex_spec hsound hok').1,
      hhash, hhash']
  obtain ⟨hround, hauthor⟩ := hapart _ _ heq
  exact one_vertex hsound hunf hok hok' hround hauthor

theorem same_past {a : Hash32} (hwhole : ctx.dag.WholePast a) (hwhole' : ctx'.dag.WholePast a)
    {b : Hash32} (hb : ctx.dag.Reaches a b) :
    ctx'.dag.Reaches a b ∧ ctx.dag.parents b = ctx'.dag.parents b ∧
      ∃ cv cv', ctx.dag.vertex b = .ok (some cv) ∧ ctx'.dag.vertex b = .ok (some cv') ∧
        cv.vertex = cv'.vertex := by
  have hfound : ∀ {b}, ctx.dag.Reaches a b → ctx'.dag.Reaches a b →
      ctx.dag.parents b = ctx'.dag.parents b ∧
        ∃ cv cv', ctx.dag.vertex b = .ok (some cv) ∧ ctx'.dag.vertex b = .ok (some cv') ∧
          cv.vertex = cv'.vertex := by
    intro b hb hb'
    obtain ⟨cv, hcv⟩ := hwhole b hb
    obtain ⟨cv', hcv'⟩ := hwhole' b hb'
    have hsame := same_found hsound hunf h h' hapart hcv hcv'
    refine ⟨?_, cv, cv', hcv, hcv', hsame⟩
    simp only [DagView.parents, hcv, hcv', hsame]
  have hreach : ctx'.dag.Reaches a b := by
    induction hb with
    | refl => exact Relation.ReflTransGen.refl
    | tail hbc hstep ih =>
      have hparents := (hfound hbc ih).1
      rw [hparents] at hstep
      exact ih.tail hstep
  exact ⟨hreach, hfound hb hreach⟩

end Past
end Agreement

/-- L2 across processes. With at most `f` Byzantine members of `3f + 1`, whatever order the
processes take their steps in, two calls of any of them that commit a wave under one beacon commit
one anchor; and if both views hold its whole past, they order it in one way and build one micro
QC. -/
theorem hosts_commit_alike (hsound : SoundAggregates cr) (hunf : Unforgeable cr com N.log)
    (hapart : VerticesHashApart cr) {u v : ValidatorId} {c d : NodeCall} (hc : N.Calls u c)
    (hd : N.Calls v d) (hbeacon : c.ctx.beacon = d.ctx.beacon) {w : WaveId} {a a' : Hash32}
    (hca : c.commits cr w a) (hda : d.commits cr w a') :
    a = a' ∧ (c.ctx.dag.WholePast a → d.ctx.dag.WholePast a' →
      (∀ order order', closureOfAnchor a c.ctx = .ok order → closureOfAnchor a' d.ctx = .ok order' →
        order = order') ∧
      ∀ emitted emitted' q q', freshQc cr a c.ctx emitted = .ok (some q) →
        freshQc cr a' d.ctx emitted' = .ok (some q') → q = q') := by
  have hsees := hc.sees
  have hsees' := hd.sees
  obtain ⟨-, t, -, hcan⟩ := hca
  obtain ⟨-, t', -, hcan'⟩ := hda
  have heq : a = a' := one_anchor hsound hunf hsees hsees' hbeacon hcan hcan'
  subst heq
  refine ⟨rfl, fun hwhole hwhole' => ?_⟩
  have horders : ∀ order order', closureOfAnchor a c.ctx = .ok order →
      closureOfAnchor a d.ctx = .ok order' → order = order' := by
    intro order order' horder horder'
    refine closureOfAnchor_agree horder horder' fun b hb => ?_
    exact (same_past hsound hunf hsees hsees' hapart hwhole hwhole' hb).2.1
  refine ⟨horders, ?_⟩
  intro emitted emitted' q q' hq hq'
  obtain ⟨set, order, authors, hset, horder, rfl, hauthors⟩ := freshQc_over hq
  obtain ⟨set', order', authors', hset', horder', rfl, hauthors'⟩ := freshQc_over hq'
  have hsets : ∀ {ctx : HostContext}, SeesVerified cr com.set ctx → ∀ s, activeSet ctx = .ok s →
      s = com.set := by
    intro ctx hs s hactive
    unfold activeSet at hactive
    split at hactive
    · cases hactive
    · cases hactive
    · rename_i hfor
      cases hactive
      exact hs.serves s hfor
  have hpast : ∀ i, i ∈ authors ↔ i ∈ authors' := by
    intro i
    rw [hauthors, hauthors']
    constructor
    · rintro ⟨b, cv, hb, hcv, hi⟩
      obtain ⟨hb', -, cv₁, cv', hcv₁, hcv', hsame⟩ :=
        same_past hsound hunf hsees hsees' hapart hwhole hwhole' hb
      cases hcv.symm.trans hcv₁
      exact ⟨b, cv', hb', hcv', by rw [← hsame]; exact hi⟩
    · rintro ⟨b, cv, hb, hcv, hi⟩
      obtain ⟨hb', -, cv₁, cv', hcv₁, hcv', hsame⟩ :=
        same_past hsound hunf hsees' hsees hapart hwhole' hwhole hb
      cases hcv.symm.trans hcv₁
      exact ⟨b, cv', hb', hcv', by rw [← hsame]; exact hi⟩
  rw [hsets hsees set hset, hsets hsees' set' hset', horders order order' horder horder',
    Finset.ext hpast]

theorem calls_vertex {v : ValidatorId} {past rest : List HostStep} {ans : Answers}
    {cv : CertifiedVertex} {es : List Event} {h : Host}
    (hsteps : N.steps v = past ++ .next ans :: rest)
    (hafter : Host.after (N.setup v) (N.rows v) past = h) (hloop : h.loop = .running)
    (hevents : h.events = .certifiedVertexReceived cv :: es)
    (hok : verifyCertifiedVertex cr cv com.set = .ok ()) (hio : ans.db 0 = .ok ()) :
    N.Calls v ⟨h.sm, .event (.certifiedVertexReceived cv),
      Host.context (N.setup v) ans { h with dag := h.dag.ingest cv }⟩ := by
  subst hafter
  rw [← N.sameCrypto v, ← N.sameSet v] at hok
  refine ⟨past, .next ans, rest, ans, _, _, hsteps,
    .vertex ans cv es { (Host.after (N.setup v) (N.rows v) past).metrics with
      eventsProcessed := (Host.after (N.setup v) (N.rows v) past).metrics.eventsProcessed + 1 }
      hloop hevents hok hio, ?_, rfl⟩
  simp only [Host.step, Host.next, hloop, hevents, Host.onEvent, Host.admitVertex, hok,
    LiveDag.ingestStored, hio]
  rfl

end HostNetwork

namespace Devnet

def commitRecords : List Record :=
  [(0, 0), (0, 1), (0, 2), (1, 0), (1, 1), (1, 2)].flatMap fun (r, a) =>
    (a, .vertexProposal, signingBytes (netVertex r a).vertex) ::
      [0, 1, 2].map fun i => (i, .vertexCert, signingBytes (netVertex r a).vertex)

def commitCrypto : Crypto := { crypto (recordedIn commitRecords) with
  blake3WithDst := slotCrypto.blake3WithDst }

def commitBorsh : Borsh := { fixtureBorsh with
  vertexProposal := listed ((List.range 6).map fun i =>
    ([BitVec.ofNat 8 i], netProposal (i / 3) (i % 3)))
  certifiedVertex := listed ((List.range 6).map fun i =>
    ([BitVec.ofNat 8 i], netVertex (i / 3) (i % 3))) }

def commitSetup (v : ValidatorId) : NodeSetup :=
  { netSetup v with cr := commitCrypto, borsh := commitBorsh }

def hearing (v : ValidatorId) : List Nat := if v = ⟨1⟩ then [2, 0, 1] else [0, 1, 2]

def beforeCommit (v : ValidatorId) : List HostStep :=
  (.boot answers :: ([0, 1].flatMap fun r =>
    ([0, 1, 2].flatMap fun i => received Wire.vertexProposal [BitVec.ofNat 8 (3 * r + i)]) ++
    (hearing v).flatMap fun i =>
      received Wire.certifiedVertex [BitVec.ofNat 8 (3 * r + i)])).dropLast

def commitNetwork : HostNetwork commitCrypto committee where
  setup := commitSetup
  rows := fun _ => {}
  steps := fun v => beforeCommit v ++ [.next answers]
  sameCrypto := fun _ => rfl
  sameSet := fun _ => rfl

def commitHost (v : ValidatorId) : Host := Host.after (commitSetup v) {} (beforeCommit v)

def lastVertex (v : ValidatorId) : CertifiedVertex := netVertex 1 ((hearing v).getLastD 0)

def commitCall (v : ValidatorId) : NodeCall :=
  ⟨(commitHost v).sm, .event (.certifiedVertexReceived (lastVertex v)),
    Host.context (commitSetup v) answers
      { commitHost v with dag := (commitHost v).dag.ingest (lastVertex v) }⟩

def firstAnchor : Hash32 := (netVertex 0 0).vertex.hash

theorem commitNetwork_run : ∀ r ∈ commitRecords, r.1 = 3 ∨ r.2 ∈ commitNetwork.log ⟨r.1⟩ := by
  decide +kernel

theorem commitNetwork_unforgeable : Unforgeable commitCrypto committee commitNetwork.log :=
  @unforgeable commitRecords commitNetwork.log commitNetwork_run

theorem commitNetwork_sound : SoundAggregates commitCrypto :=
  soundAggregates (recordedIn commitRecords)

theorem commitNetwork_calls (v : ValidatorId) (hv : v = ⟨0⟩ ∨ v = ⟨1⟩) :
    commitNetwork.Calls v (commitCall v) := by
  have hready : (commitHost v).loop = .running ∧
      (commitHost v).events = [.certifiedVertexReceived (lastVertex v)] ∧
      verifyCertifiedVertex commitCrypto (lastVertex v) validators = .ok () := by
    obtain rfl | rfl := hv <;> decide +kernel
  obtain ⟨hloop, hevents, hok⟩ := hready
  exact HostNetwork.calls_vertex rfl rfl hloop hevents hok rfl

theorem commitCall_commits (v : ValidatorId) (hv : v = ⟨0⟩ ∨ v = ⟨1⟩) :
    (commitCall v).commits commitCrypto 0 firstAnchor := by
  have hready : 0 ∉ (commitCall v).pre.waves.committedWaves ∧
      0 ≤ waveOfRound (lastVertex v).vertex.round ∧
      tryCommitWave commitCrypto 0 (commitCall v).pre.cfg validators (commitCall v).ctx false =
        .ok (some ⟨0, .shortcut, firstAnchor⟩) := by
    obtain rfl | rfl := hv <;> decide +kernel
  obtain ⟨hnew, hle, htry⟩ := hready
  exact ⟨hnew, false, ⟨hle, rfl⟩, validators, _, rfl, htry, rfl⟩

theorem commitCall_whole (v : ValidatorId) (hv : v = ⟨0⟩ ∨ v = ⟨1⟩) :
    (commitCall v).ctx.dag.WholePast firstAnchor := by
  have hfound : (commitCall v).ctx.dag.vertex firstAnchor = .ok (some (netVertex 0 0)) := by
    obtain rfl | rfl := hv <;> decide +kernel
  have hnone : (commitCall v).ctx.dag.parents firstAnchor = [] := by
    simp only [DagView.parents, hfound]
    rfl
  intro b hb
  cases Relation.ReflTransGen.cases_head hb with
  | inl hself => exact ⟨_, hself ▸ hfound⟩
  | inr hbelow =>
    obtain ⟨p, hp, -⟩ := hbelow
    rw [hnone] at hp
    cases hp

theorem hosts_commit_alike_network :
    closureOfAnchor firstAnchor (commitCall ⟨0⟩).ctx =
      closureOfAnchor firstAnchor (commitCall ⟨1⟩).ctx := by
  have hagree := HostNetwork.hosts_commit_alike commitNetwork_sound commitNetwork_unforgeable
    verticesHashApart (commitNetwork_calls ⟨0⟩ (Or.inl rfl)) (commitNetwork_calls ⟨1⟩ (Or.inr rfl))
    (by decide +kernel) (commitCall_commits ⟨0⟩ (Or.inl rfl))
    (commitCall_commits ⟨1⟩ (Or.inr rfl))
  have horder := (hagree.2 (commitCall_whole ⟨0⟩ (Or.inl rfl))
    (commitCall_whole ⟨1⟩ (Or.inr rfl))).1
  have hends : ∀ v, v = ⟨0⟩ ∨ v = ⟨1⟩ →
      (closureOfAnchor firstAnchor (commitCall v).ctx).toOption.isSome = true := by
    rintro v (rfl | rfl) <;> decide +kernel
  cases h : closureOfAnchor firstAnchor (commitCall ⟨0⟩).ctx with
  | error e => simpa [h, Except.toOption] using hends ⟨0⟩ (Or.inl rfl)
  | ok order =>
    cases h' : closureOfAnchor firstAnchor (commitCall ⟨1⟩).ctx with
    | error e => simpa [h', Except.toOption] using hends ⟨1⟩ (Or.inr rfl)
    | ok order' => rw [horder order order' h h']

end Devnet
end LuaDag
