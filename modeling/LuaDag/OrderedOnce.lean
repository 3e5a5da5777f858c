import LuaDag.Publication

/-! What the waves of one run order. Every linearization starts from nothing, so two waves order
a vertex twice exactly when their anchors have one in common. -/
namespace LuaDag
open Bullshark

/-- Different waves committed in the run order different vertices. -/
def NeverTwice (cr : Crypto) (cfg : Config) (self : ValidatorId) (is : List StateMachine.Input) :
    Prop :=
  ∀ c ∈ StateMachine.run cr cfg self is, ∀ c' ∈ StateMachine.run cr cfg self is,
    ∀ w w' a a' order order', w ≠ w' → Linearizes cr c w a order →
      Linearizes cr c' w' a' order' → List.Disjoint order order'

/-- Anchors that calls of the run commit for different waves share no causal past. -/
def PastsApart (cr : Crypto) (cfg : Config) (self : ValidatorId) (dag : DagView)
    (is : List StateMachine.Input) : Prop :=
  ∀ c ∈ StateMachine.run cr cfg self is, ∀ c' ∈ StateMachine.run cr cfg self is,
    NodeCall.opensWaves cr c → NodeCall.opensWaves cr c' →
    ∀ w w' a a', w ≠ w' → NodeCall.commits cr c w a → NodeCall.commits cr c' w' a' →
      ¬ ∃ x, dag.Reaches a x ∧ dag.Reaches a' x

section Call
variable {cr : Crypto} {call : NodeCall} {w : WaveId} {a : Hash32} {order : List Hash32}

theorem Linearizes.opens (h : Linearizes cr call w a order) : call.opensWaves cr := by
  unfold NodeCall.opensWaves
  split
  · rename_i cv hev
    cases hl1 : (VertexCert.onCertifiedVertex cr call.pre.cfg call.ctx cv
        call.pre.vertices).result with
    | ok acts => exact ⟨acts, rfl⟩
    | error e =>
      have hin := h.committed
      rw [exec_certified_waves hev, (lowerLayers_closed hl1).1] at hin
      exact absurd hin h.commits.1
  · trivial

/-- Over ports that do not fail, what L1 lets through and can be committed is ordered. -/
theorem NodeCall.commits.linearized (hworks : call.ctx.Works) (hopen : call.opensWaves cr)
    (h : call.commits cr w a) : ∃ order, Linearizes cr call w a order := by
  obtain ⟨cs, hpassed⟩ := @exec_passed cr call hworks
  obtain ⟨x, hx, rfl, rfl⟩ := hpassed.all hopen w a h
  have hin := (hpassed.inserted x.wave).mp (List.mem_map_of_mem hx)
  obtain ⟨hnew, t, htried, hcan⟩ := h
  obtain ⟨-, order, -, -, horder⟩ := hcan.closure hworks
  exact ⟨order, ⟨hnew, t, htried, hcan⟩, hin.1, horder⟩

end Call

/-- Over one view no vertex is ordered twice where there is nothing to leave out; and over ports
that do not fail, only there. -/
theorem never_twice (cr : Crypto) (cfg : Config) (self : ValidatorId) (dag : DagView)
    (is : List StateMachine.Input) (hview : ∀ i ∈ is, i.2.dag = dag) :
    (PastsApart cr cfg self dag is → NeverTwice cr cfg self is) ∧
      ((∀ i ∈ is, i.2.Works) →
        (NeverTwice cr cfg self is ↔ PastsApart cr cfg self dag is)) := by
  have hdag : ∀ c ∈ StateMachine.run cr cfg self is, (NodeCall.ctx c).dag = dag :=
    fun c hc => hview _ (run_input hc)
  have henough : PastsApart cr cfg self dag is → NeverTwice cr cfg self is := by
    intro hapart c hc c' hc' w w' a a' order order' hne h h' x hx hx'
    rw [mem_closureOfAnchor h.closure, hdag c hc] at hx
    rw [mem_closureOfAnchor h'.closure, hdag c' hc'] at hx'
    exact hapart c hc c' hc' h.opens h'.opens w w' a a' hne h.commits h'.commits ⟨x, hx, hx'⟩
  refine ⟨henough, fun hworks => ⟨?_, henough⟩⟩
  intro htwice c hc c' hc' hopen hopen' w w' a a' hne h h'
  rintro ⟨x, hx, hx'⟩
  obtain ⟨order, horder⟩ := h.linearized (hworks _ (run_input hc)) hopen
  obtain ⟨order', horder'⟩ := h'.linearized (hworks _ (run_input hc')) hopen'
  rw [← hdag c hc, ← mem_closureOfAnchor horder.closure] at hx
  rw [← hdag c' hc', ← mem_closureOfAnchor horder'.closure] at hx'
  exact htwice c hc c' hc' w w' a a' order order' hne horder horder' hx hx'

section Devnet
open Devnet

def gapped : List CertifiedVertex :=
  (verticesUpTo 5).filter fun v => decide (v.vertex.round ≤ 1 ∨ 4 ≤ v.vertex.round)

def gappedInputs : List StateMachine.Input :=
  [1, 5].map fun r => (.event (.certifiedVertexReceived (vertexAt r 2)), (ports 2 5).holding gapped)

theorem gapped_commits {c : NodeCall} (hc : c ∈ StateMachine.run openCrypto config ⟨2⟩ gappedInputs)
    {w : WaveId} {a : Hash32} (h : c.commits openCrypto w a) :
    (w = 0 ∨ w = 1) ∧ a = vertexHash (4 * w) 0 := by
  have hcall : c.pre.cfg = config ∧ c.ctx = (ports 2 5).holding gapped ∧
      ∀ w t, c.tries w t → w ≤ 1 ∧ t = false := by
    simp only [StateMachine.run, Trace.calls, gappedInputs, List.map_cons, List.map_nil,
      List.mem_cons, List.not_mem_nil, or_false] at hc
    obtain rfl | rfl := hc
    · exact ⟨rfl, rfl, fun w t ht => ⟨ht.1.trans (by decide), ht.2⟩⟩
    · exact ⟨by decide, rfl, fun w t ht => ⟨ht.1.trans (by decide), ht.2⟩⟩
  obtain ⟨hcfg, hctx, htries⟩ := hcall
  obtain ⟨-, t, htried, set, d, hset, hd, rfl⟩ := h
  obtain ⟨hle, rfl⟩ := htries w t htried
  rw [hctx] at hset
  cases hset
  rw [hcfg, hctx] at hd
  have hanchor : ∀ w, w = 0 ∨ w = 1 →
      tryCommitWave openCrypto w config validators ((ports 2 5).holding gapped) false =
        .ok (some ⟨w, .shortcut, vertexHash (4 * w) 0⟩) := by
    rintro w (rfl | rfl) <;> decide
  have hw : w = 0 ∨ w = 1 := Nat.le_one_iff_eq_zero_or_eq_one.mp hle
  rw [hanchor w hw] at hd
  cases hd
  exact ⟨hw, rfl⟩

theorem gapped_order (w : WaveId) (hw : w = 0 ∨ w = 1) :
    closureOfAnchor (vertexHash (4 * w) 0) ((ports 2 5).holding gapped) =
      .ok ((pastOf (4 * w)).take (3 * w + 1)) := by
  obtain rfl | rfl := hw <;> decide

theorem never_twice_gapped :
    (∃ c ∈ StateMachine.run openCrypto config ⟨2⟩ gappedInputs,
      Linearizes openCrypto c 0 (vertexHash 0 0) [vertexHash 0 0]) ∧
    (∃ c ∈ StateMachine.run openCrypto config ⟨2⟩ gappedInputs,
      Linearizes openCrypto c 1 (vertexHash 4 0) (vertexHash 4 0 :: [0, 1, 2].map (vertexHash 3))) ∧
    NeverTwice openCrypto config ⟨2⟩ gappedInputs := by
  refine ⟨⟨_, List.mem_cons_self, ?_⟩, ⟨_, List.mem_cons_of_mem _ List.mem_cons_self, ?_⟩, ?_⟩
  · exact ⟨⟨by decide, false, ⟨by decide, rfl⟩, validators, ⟨0, .shortcut, vertexHash 0 0⟩, rfl,
      by decide, rfl⟩, by decide, by decide⟩
  · exact ⟨⟨by decide, false, ⟨by decide, rfl⟩, validators, ⟨1, .shortcut, vertexHash 4 0⟩,
      rfl, by decide, rfl⟩, by decide, by decide⟩
  have hview : ∀ i ∈ gappedInputs, i.2.dag = ((ports 2 5).holding gapped).dag := by
    simp [gappedInputs]
  have hworks : ∀ i ∈ gappedInputs, i.2.Works := by
    intro i hi
    obtain ⟨r, -, rfl⟩ := List.mem_map.mp hi
    exact @works_holding gapped gapped _ (List.Subset.refl _) (by decide) ⟨_, rfl⟩ ⟨_, rfl⟩
      fun _ => ⟨_, rfl⟩
  refine ((never_twice openCrypto config ⟨2⟩ _ gappedInputs hview).2 hworks).mpr ?_
  intro c hc c' hc' _ _ w w' a a' hne h h'
  obtain ⟨hw, rfl⟩ := gapped_commits hc h
  obtain ⟨hw', rfl⟩ := gapped_commits hc' h'
  rintro ⟨x, hx, hx'⟩
  rw [← mem_closureOfAnchor (gapped_order w hw)] at hx
  rw [← mem_closureOfAnchor (gapped_order w' hw')] at hx'
  have hdisj : ∀ x ∈ (pastOf 0).take 1, x ∉ (pastOf 4).take 4 := by decide
  obtain rfl | rfl := hw <;> obtain rfl | rfl := hw'
  · exact hne rfl
  · exact hdisj x hx hx'
  · exact hdisj x hx' hx
  · exact hne rfl

def lastVertexOf (top : Round) : List StateMachine.Input :=
  [(.event (.certifiedVertexReceived (vertexAt top 2)),
    { ports 2 top with dag := (LiveDag.of (verticesUpTo top)).view })]

def lastCall : NodeCall :=
  ⟨StateMachine.new config ⟨2⟩, (lastVertexOf 9).head (by simp [lastVertexOf])⟩

theorem lastCall_linearizes (w : Nat) (hw : w = 1 ∨ w = 2) :
    Linearizes openCrypto lastCall w (vertexHash (4 * w) 0) (pastOf (4 * w)) := by
  obtain rfl | rfl := hw
  · exact ⟨⟨by decide, false, ⟨by decide, rfl⟩, validators, ⟨1, .shortcut, vertexHash 4 0⟩, rfl,
      by decide, rfl⟩, by decide, by decide⟩
  · exact ⟨⟨by decide, false, ⟨by decide, rfl⟩, validators, ⟨2, .shortcut, vertexHash 8 0⟩, rfl,
      by decide, rfl⟩, by decide, by decide⟩

/-- Waves 1 and 2 both order the vertices of the rounds up to 4. -/
theorem vertices_ordered_twice :
    ∃ vs, Coherent vs ∧ ∃ is : List StateMachine.Input,
      (∀ i ∈ is, i.2.dag = (LiveDag.of vs).view) ∧ ¬ NeverTwice openCrypto config ⟨2⟩ is := by
  refine ⟨verticesUpTo 9, coherent_upTo_nine, lastVertexOf 9, by simp [lastVertexOf], ?_⟩
  intro h
  have hcall : lastCall ∈ StateMachine.run openCrypto config ⟨2⟩ (lastVertexOf 9) := by
    simp [StateMachine.run, Trace.calls, lastCall, lastVertexOf]
  have hdisj := h lastCall hcall lastCall hcall 1 2 _ _ _ _ (by decide)
    (lastCall_linearizes 1 (Or.inl rfl)) (lastCall_linearizes 2 (Or.inr rfl))
  exact hdisj (show vertexHash 0 0 ∈ pastOf 4 by decide) (show vertexHash 0 0 ∈ pastOf 8 by decide)

end Devnet
end LuaDag
