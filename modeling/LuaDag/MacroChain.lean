import LuaDag.NodeRun

/-! The chain of adopted macro checkpoints. Every candidate below the next height is
already adopted and the one at the next height extends the tip, so that adoption,
which looks candidates up by hash, always extends the chain by one. -/
namespace LuaDag
open MacroFin

def Action.persistedCheckpoint : Action → Option MacroCheckpoint
  | .persistMacroCheckpoint cp => some cp
  | _ => none

def Action.persistedQc : Action → Option MacroQc
  | .persistMacroQc qc => some qc
  | _ => none

def persistedCheckpoints (acts : List Action) : List MacroCheckpoint :=
  acts.filterMap Action.persistedCheckpoint

def persistedQcs (acts : List Action) : List MacroQc := acts.filterMap Action.persistedQc

theorem mem_persistedCheckpoints {acts : List Action} {cp : MacroCheckpoint}
    (h : Action.persistMacroCheckpoint cp ∈ acts) : cp ∈ persistedCheckpoints acts :=
  List.mem_filterMap.mpr ⟨_, h, rfl⟩

def tipHash (ps : List MacroCheckpoint) : Hash32 := (ps.getLast?.map (·.hash)).getD Hash32.zero

/-- Heights 0, 1, 2, …, each on top of the one before. -/
def IsMacroChain (ps : List MacroCheckpoint) : Prop :=
  ∀ i cp, ps[i]? = some cp → cp.height = i ∧ cp.parent = tipHash (ps.take i)

/-- The macro core after the checkpoints `ps` have been adopted. -/
structure ChainInv (ps : List MacroCheckpoint) (c : MacroCore) : Prop where
  next : c.nextHeight = ps.length
  last : c.lastMacroHash = tipHash ps
  chain : IsMacroChain ps
  emitted : ∀ h, h ∈ c.emittedMacroQc ↔ h ∈ ps.map (·.hash)
  distinct : (ps.map (·.hash)).Nodup
  height : ∀ (h : Height) (cp : MacroCheckpoint), c.candidate[h]? = some cp →
    cp.height = h ∧ h ≤ c.nextHeight
  done : ∀ (h : Height) (cp : MacroCheckpoint), c.candidate[h]? = some cp → h < c.nextHeight →
    (ps[h]?).map (·.hash) = some cp.hash
  filled : ∀ h : Height, h < c.nextHeight → ∃ cp, c.candidate[h]? = some cp
  pending : ∀ cp, c.candidate[c.nextHeight]? = some cp → cp.parent = c.lastMacroHash

theorem filterMap_adoptionsIn {β : Type} (f : Action → Option β)
    (hf : ∀ a, a.isAdoption = false → f a = none) (acts : List Action) :
    (adoptionsIn acts).filterMap f = acts.filterMap f := by
  induction acts with
  | nil => rfl
  | cons a as ih =>
    rw [adoptionsIn, List.filter_cons]
    cases ha : a.isAdoption with
    | true =>
      rw [if_pos rfl, List.filterMap_cons, List.filterMap_cons, ← ih]
      rfl
    | false =>
      rw [List.filterMap_cons, hf a ha]
      exact ih

@[simp] theorem persistedCheckpoints_adoptionsIn (acts : List Action) :
    persistedCheckpoints (adoptionsIn acts) = persistedCheckpoints acts := by
  apply filterMap_adoptionsIn
  intro a ha
  cases a <;> simp_all [Action.isAdoption, Action.persistedCheckpoint]

@[simp] theorem persistedQcs_adoptionsIn (acts : List Action) :
    persistedQcs (adoptionsIn acts) = persistedQcs acts := by
  apply filterMap_adoptionsIn
  intro a ha
  cases a <;> simp_all [Action.isAdoption, Action.persistedQc]

@[simp] theorem persistedCheckpoints_append (as bs : List Action) :
    persistedCheckpoints (as ++ bs) = persistedCheckpoints as ++ persistedCheckpoints bs := by
  simp [persistedCheckpoints]

@[simp] theorem persistedQcs_append (as bs : List Action) :
    persistedQcs (as ++ bs) = persistedQcs as ++ persistedQcs bs := by
  simp [persistedQcs]

/-- An adoption persists exactly its checkpoint and its QC. -/
theorem persisted_of_adoption (c : MacroCore) (cand : MacroCheckpoint) (qc : MacroQc)
    (own : Bool) (leak : List Action) (hleak : ∀ a ∈ leak, a.isMacroTraffic = true)
    (r : TwoChainRule) :
    persistedCheckpoints ((if own then [.broadcastMacroQc qc] else []) ++
        adoptionActions cand qc ++ leak ++ c.finalizedActions r) = [cand] ∧
      persistedQcs ((if own then [.broadcastMacroQc qc] else []) ++
        adoptionActions cand qc ++ leak ++ c.finalizedActions r) = [qc] := by
  have hl : persistedCheckpoints leak = [] ∧ persistedQcs leak = [] := by
    unfold persistedCheckpoints persistedQcs
    rw [List.filterMap_eq_nil_iff, List.filterMap_eq_nil_iff]
    refine ⟨fun a ha => ?_, fun a ha => ?_⟩
    all_goals
      have ht := hleak a ha
      cases a <;> simp_all [Action.isMacroTraffic, Action.persistedCheckpoint, Action.persistedQc]
  have hf : persistedCheckpoints (c.finalizedActions r) = [] ∧
      persistedQcs (c.finalizedActions r) = [] := by
    unfold persistedCheckpoints persistedQcs
    rw [List.filterMap_eq_nil_iff, List.filterMap_eq_nil_iff]
    refine ⟨fun a ha => ?_, fun a ha => ?_⟩
    all_goals
      obtain ⟨prev, cp, -, -, rfl⟩ := finalizedActions_spec ha
      rfl
  simp only [persistedCheckpoints_append, persistedQcs_append, hl.1, hl.2, hf.1, hf.2]
  cases own <;> exact ⟨rfl, rfl⟩

theorem tipHash_snoc (ps : List MacroCheckpoint) (cp : MacroCheckpoint) :
    tipHash (ps ++ [cp]) = cp.hash := by
  simp [tipHash]

theorem getElem_snoc_cases {α : Type} {l : List α} {x y : α} {i : Nat}
    (h : (l ++ [x])[i]? = some y) : i < l.length ∧ l[i]? = some y ∨ i = l.length ∧ y = x := by
  by_cases hi : i < l.length
  · rw [List.getElem?_append_left hi] at h
    exact Or.inl ⟨hi, h⟩
  · have hlen : i < (l ++ [x]).length := (List.getElem?_eq_some_iff.mp h).1
    rw [List.length_append, List.length_singleton] at hlen
    have heq : i = l.length := by omega
    rw [heq, List.getElem?_concat_length] at h
    exact Or.inr ⟨heq, (Option.some.inj h).symm⟩

theorem IsMacroChain.snoc {ps : List MacroCheckpoint} {cp : MacroCheckpoint}
    (h : IsMacroChain ps) (hheight : cp.height = ps.length) (hparent : cp.parent = tipHash ps) :
    IsMacroChain (ps ++ [cp]) := by
  intro i q hq
  obtain ⟨hi, hold⟩ | ⟨hi, hlast⟩ := getElem_snoc_cases hq
  · rw [List.take_append_of_le_length hi.le]
    exact h i q hold
  · rw [hi, hlast]
    simpa using ⟨hheight, hparent⟩

theorem chainInv_init (self : ValidatorId) : ChainInv [] (MacroBook.new self).core where
  next := rfl
  last := rfl
  chain := by
    intro i cp hcp
    simp at hcp
  emitted := by
    intro h
    simp [MacroBook.new, MacroBook.core]
  distinct := by simp
  height := by
    intro h cp hcp
    simp [MacroBook.new, MacroBook.core] at hcp
  done := by
    intro h cp hcp
    simp [MacroBook.new, MacroBook.core] at hcp
  filled := by
    intro h hlt
    exact absurd hlt (Nat.not_lt_zero _)
  pending := by
    intro cp hcp
    simp [MacroBook.new, MacroBook.core] at hcp

theorem ChainInv.install {ps : List MacroCheckpoint} {c : MacroCore} {height : Height}
    {new : MacroCheckpoint} (hinv : ChainInv ps c) (hheight : new.height = height)
    (hle : height ≤ c.nextHeight)
    (hdone : height < c.nextHeight → (ps[height]?).map (·.hash) = some new.hash)
    (hpending : new.parent = c.lastMacroHash) :
    ChainInv ps { c with candidate := c.candidate.insert height new } := by
  refine ⟨hinv.next, hinv.last, hinv.chain, hinv.emitted, hinv.distinct, ?_, ?_, ?_, ?_⟩
  · intro h cp hcp
    simp only [Maps.get_insert] at hcp
    split at hcp
    · rename_i heq
      cases hcp
      exact ⟨hheight.trans heq, heq ▸ hle⟩
    · exact hinv.height h cp hcp
  · intro h cp hcp hlt
    simp only [Maps.get_insert] at hcp
    split at hcp
    · rename_i heq
      cases hcp
      subst heq
      exact hdone hlt
    · exact hinv.done h cp hcp hlt
  · intro h hlt
    rw [Maps.get_insert]
    split
    · exact ⟨_, rfl⟩
    · exact hinv.filled h hlt
  · intro cp hcp
    simp only [Maps.get_insert] at hcp
    split at hcp
    · cases hcp
      exact hpending
    · exact hinv.pending cp hcp

theorem chainInv_move {cr : Crypto} {call : NodeCall} {ps : List MacroCheckpoint}
    {c d : MacroCore} {sg : List SignReq} {acts : List Action}
    (hm : Move cr call c sg acts d) (hinv : ChainInv ps c) : ChainInv ps d := by
  cases hm with
  | window root =>
    exact hinv.install rfl (Nat.le_refl _) (fun hlt => absurd hlt (Nat.lt_irrefl _)) rfl
  | recordVote p old locks hev hacc hpre hparent hold hroot hhash hlock =>
    obtain ⟨-, hle⟩ := hinv.height _ old hold
    have hd := hinv.install rfl hle (fun hlt => by rw [← hhash]; exact hinv.done _ old hold hlt)
      hparent
    exact ⟨hd.next, hd.last, hd.chain, hd.emitted, hd.distinct, hd.height, hd.done, hd.filled,
      hd.pending⟩
  | _ =>
    exact ⟨hinv.next, hinv.last, hinv.chain, hinv.emitted, hinv.distinct, hinv.height, hinv.done,
      hinv.filled, hinv.pending⟩

/-- The candidate an adoption finds is the pending one. -/
theorem ChainInv.adopts_next {ps : List MacroCheckpoint} {c : MacroCore} {height : Height}
    {cand : MacroCheckpoint} (hinv : ChainInv ps c) (hc : c.candidate[height]? = some cand)
    (hnew : cand.hash ∉ c.emittedMacroQc) : height = c.nextHeight := by
  have hle := (hinv.height height cand hc).2
  by_contra hne
  have hlt : height < c.nextHeight := lt_of_le_of_ne hle hne
  have hdone := hinv.done height cand hc hlt
  obtain ⟨q, hq, hqh⟩ := Option.map_eq_some_iff.mp hdone
  apply hnew
  rw [hinv.emitted, ← hqh]
  exact List.mem_map_of_mem (List.mem_of_getElem? hq)

theorem chainInv_adopted {ps : List MacroCheckpoint} {c : MacroCore} {height : Height}
    {cand : MacroCheckpoint} (hinv : ChainInv ps c) (hc : c.candidate[height]? = some cand)
    (hnew : cand.hash ∉ c.emittedMacroQc) : ChainInv (ps ++ [cand]) (c.adopted height cand) := by
  have heq := hinv.adopts_next hc hnew
  subst heq
  have hh := (hinv.height _ cand hc).1
  have hfresh : cand.hash ∉ ps.map (·.hash) := fun h => hnew ((hinv.emitted _).mpr h)
  refine ⟨?_, ?_, ?_, ?_, ?_, ?_, ?_, ?_, ?_⟩
  · simp [MacroCore.adopted, hinv.next]
  · simp [MacroCore.adopted, tipHash_snoc]
  · exact hinv.chain.snoc (hh.trans hinv.next) ((hinv.pending cand hc).trans hinv.last)
  · intro h
    simp [MacroCore.adopted, hinv.emitted, or_comm, eq_comm]
  · rw [List.map_append, List.map_singleton, List.nodup_append]
    refine ⟨hinv.distinct, by simp, ?_⟩
    intro a ha b hb
    rw [List.mem_singleton.mp hb]
    intro hab
    exact hfresh (hab ▸ ha)
  · intro h cp hcp
    have := hinv.height h cp hcp
    exact ⟨this.1, this.2.trans (Nat.le_succ _)⟩
  · intro h cp hcp hlt
    by_cases hn : h = c.nextHeight
    · subst hn
      have hsame : cand = cp := Option.some.inj (hc.symm.trans hcp)
      rw [hinv.next, List.getElem?_append_right (Nat.le_refl _)]
      simp [hsame]
    · have hlt' : h < c.nextHeight := lt_of_le_of_ne (Nat.lt_succ_iff.mp hlt) hn
      rw [List.getElem?_append_left (hinv.next ▸ hlt')]
      exact hinv.done h cp hcp hlt'
  · intro h hlt
    by_cases hn : h = c.nextHeight
    · exact ⟨cand, hn ▸ hc⟩
    · exact hinv.filled h (lt_of_le_of_ne (Nat.lt_succ_iff.mp hlt) hn)
  · intro cp hcp
    have hle := (hinv.height _ cp hcp).2
    exact absurd hle (Nat.not_succ_le_self _)

def ChainHistory (_log : List SignReq) (as : List Action) (c : MacroCore) : Prop :=
  ChainInv (persistedCheckpoints as) c ∧
    (persistedQcs as).map (·.checkpointHash) = (persistedCheckpoints as).map (·.hash)

theorem backing_hash {cr : Crypto} {call : NodeCall} {set : ValidatorSet} {c : MacroCore}
    {cand : MacroCheckpoint} {qc : MacroQc} {own : Bool}
    (h : Backing cr call set c cand qc own) : qc.checkpointHash = cand.hash := by
  cases h with
  | flat qc mode h =>
    have hh := tryFinalizeMode0_hash h
    exact hh
  | subnet qc h => exact tryFinalizeModeA_hash h
  | received qc hev h => exact verifyMacroQc_hash h

theorem chainHistory_kept (cr : Crypto) (call : NodeCall) : KeptBy cr ChainHistory call where
  move := fun _ _ _ _ _ _ _ hm h => ⟨chainInv_move hm h.1, h.2⟩
  other := fun _ _ _ _ _ h => h

theorem chainHistory_adopt {cr : Crypto} {call : NodeCall} {log : List SignReq}
    {as : List Action} {c d : MacroCore} {acts : List Action} (h : ChainHistory log as c)
    (ha : Adopt cr call c acts d) : ChainHistory log (as ++ adoptionsIn acts) d := by
  cases ha with
  | mk set height cand qc own leak hset hpre hnew hc hnames hqc hleak =>
    have hp := persisted_of_adoption c cand qc own leak hleak (c.twoChain.adopt cand)
    unfold ChainHistory
    rw [persistedCheckpoints_append, persistedCheckpoints_adoptionsIn, persistedQcs_append,
      persistedQcs_adoptionsIn, hp.1, hp.2]
    refine ⟨chainInv_adopted h.1 hc hnew, ?_⟩
    simp [h.2, backing_hash hqc]

theorem run_chain (cr : Crypto) (cfg : Config) (self : ValidatorId)
    (is : List StateMachine.Input) :
    ChainHistory (StateMachine.signLog cr cfg self is)
      (adoptionsIn (StateMachine.actions cr cfg self is))
      (StateMachine.reached cr cfg self is).macros.core :=
  run_invariant (fun _ => True) (fun call _ => chainHistory_kept cr call)
    (fun _ _ _ _ _ _ _ => chainHistory_adopt) cfg self ⟨chainInv_init self, rfl⟩ is
    (fun _ _ => trivial)

/-- Under any events, the persisted checkpoints form one chain from genesis that the
state follows, and no hash is adopted twice. -/
theorem adopted_macro_chain (cr : Crypto) (cfg : Config) (self : ValidatorId)
    (is : List StateMachine.Input) :
    let ps := persistedCheckpoints (StateMachine.actions cr cfg self is)
    let book := (StateMachine.reached cr cfg self is).macros
    IsMacroChain ps ∧ book.nextHeight = ps.length ∧ book.lastMacroHash = tipHash ps ∧
      (ps.map (·.hash)).Nodup ∧
      (persistedQcs (StateMachine.actions cr cfg self is)).map (·.checkpointHash) =
        ps.map (·.hash) := by
  have hrun := run_chain cr cfg self is
  unfold ChainHistory at hrun
  rw [persistedCheckpoints_adoptionsIn, persistedQcs_adoptionsIn] at hrun
  obtain ⟨hinv, hqcs⟩ := hrun
  exact ⟨hinv.chain, hinv.next, hinv.last, hinv.distinct, hqcs⟩

end LuaDag
