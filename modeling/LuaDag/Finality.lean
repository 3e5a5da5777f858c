import LuaDag.TwoChain

/-! Finality and justification over runs of one node. -/
namespace LuaDag
open MacroFin

def Action.finalizedBlob : Action → Option BlobId
  | .updateBlobStatus b .finalized => some b
  | _ => none

def finalizedBlobs (acts : List Action) : List BlobId := acts.filterMap Action.finalizedBlob

@[simp] theorem finalizedBlobs_adoptionsIn (acts : List Action) :
    finalizedBlobs (adoptionsIn acts) = finalizedBlobs acts := by
  apply filterMap_adoptionsIn
  intro a ha
  cases a with
  | updateBlobStatus b st => cases st <;> simp_all [Action.isAdoption, Action.finalizedBlob]
  | _ => simp_all [Action.isAdoption, Action.finalizedBlob]

@[simp] theorem finalizedBlobs_append (as bs : List Action) :
    finalizedBlobs (as ++ bs) = finalizedBlobs as ++ finalizedBlobs bs := by
  simp [finalizedBlobs]

def newlyFinalBlobs (c : MacroCore) (r : TwoChainRule) : List BlobId :=
  match r.newlyFinalizedHeight with
  | none => []
  | some prev => (c.candidate[prev]?.map blobIdOfCheckpoint).toList

theorem finalized_of_adoption (c : MacroCore) (cand : MacroCheckpoint) (qc : MacroQc)
    (own : Bool) (leak : List Action) (hleak : ∀ a ∈ leak, a.isMacroTraffic = true)
    (r : TwoChainRule) :
    finalizedBlobs ((if own then [.broadcastMacroQc qc] else []) ++
      adoptionActions cand qc ++ leak ++ c.finalizedActions r) = newlyFinalBlobs c r := by
  have hl : finalizedBlobs leak = [] := by
    unfold finalizedBlobs
    rw [List.filterMap_eq_nil_iff]
    intro a ha
    have ht := hleak a ha
    cases a with
    | updateBlobStatus b st => cases st <;> simp_all [Action.isMacroTraffic, Action.finalizedBlob]
    | _ => simp_all [Action.isMacroTraffic, Action.finalizedBlob]
  have hf : finalizedBlobs (c.finalizedActions r) = newlyFinalBlobs c r := by
    unfold MacroCore.finalizedActions newlyFinalBlobs
    cases r.newlyFinalizedHeight with
    | none => rfl
    | some prev =>
      dsimp only
      cases c.candidate[prev]? <;> rfl
  have hown : finalizedBlobs ((if own then [.broadcastMacroQc qc] else []) ++
      adoptionActions cand qc) = [] := by
    cases own <;> rfl
  rw [finalizedBlobs_append, finalizedBlobs_append, hown, hl, hf]
  rfl

/- Heights in the two-chain state never exceed the next height. -/
def KeysBounded (c : MacroCore) : Prop :=
  ∀ (h : Height) (a : MacroCheckpoint), c.twoChain.adopted[h]? = some a → h ≤ c.nextHeight

theorem keysBounded_adopt {r : TwoChainRule} {cp : MacroCheckpoint} {n : Height}
    (hkeys : ∀ (h : Height) (a : MacroCheckpoint), r.adopted[h]? = some a → h ≤ n)
    (hcp : cp.height ≤ n) :
    ∀ (h : Height) (a : MacroCheckpoint), (r.adopt cp).adopted[h]? = some a → h ≤ n := by
  intro h a ha
  rw [TwoChainRule.adopt_get] at ha
  split at ha
  · rename_i heq
    exact heq ▸ hcp
  · exact hkeys h a ha

theorem keysBounded_move {cr : Crypto} {call : NodeCall} {ps : List MacroCheckpoint}
    {c d : MacroCore} {sg : List SignReq} {acts : List Action}
    (hm : Move cr call c sg acts d) (hchain : ChainInv ps c) (hinv : KeysBounded c) :
    KeysBounded d := by
  cases hm with
  | recordVote p old locks hev hacc hpre hparent hold hroot hhash hlock =>
    exact keysBounded_adopt hinv (hchain.height _ old hold).2
  | _ => exact hinv

theorem keysBounded_adopted {ps : List MacroCheckpoint} {c : MacroCore} {height : Height}
    {cand : MacroCheckpoint} (hchain : ChainInv ps c) (hinv : KeysBounded c)
    (hc : c.candidate[height]? = some cand) (hnew : cand.hash ∉ c.emittedMacroQc) :
    KeysBounded (c.adopted height cand) := by
  intro h a ha
  have heq := hchain.adopts_next hc hnew
  rw [MacroCore.adopted, (c.twoChain.adopt cand).settle_spec.1] at ha
  obtain ⟨hh, hle⟩ := hchain.height _ cand hc
  have hb := keysBounded_adopt hinv (hh.symm ▸ hle) h a ha
  rw [MacroCore.adopted, heq]
  exact Nat.le_succ_of_le hb

/- Order of finality. -/

/-- Blob `b` stands for the adopted checkpoint of height `h`, and the checkpoint
adopted on top of it names it as parent. -/
def FinalizedAt (as : List Action) (b : BlobId) (h : Height) : Prop :=
  ∃ cp next, (persistedCheckpoints as)[h]? = some cp ∧
    (persistedCheckpoints as)[h + 1]? = some next ∧ cp.height = h ∧ next.height = h + 1 ∧
    next.parent = cp.hash ∧ cp.hash ∈ (persistedQcs as).map (·.checkpointHash) ∧
    next.hash ∈ (persistedQcs as).map (·.checkpointHash) ∧ b = blobIdOfCheckpoint cp

def LastFinalized (r : TwoChainRule) (m : Height) : Prop :=
  ∃ a k, r.adopted[m]? = some a ∧ r.finalizedHead = some a.hash ∧
    r.justifiedHeadHeight = some k ∧ m < k

def FinalityInv (as : List Action) (c : MacroCore) : Prop :=
  ∃ hs : List Height, hs.Pairwise (· < ·) ∧
    List.Forall₂ (FinalizedAt as) (finalizedBlobs as) hs ∧
    ∀ m, hs.getLast? = some m → LastFinalized c.twoChain m

theorem lastFinalized_adopt {r : TwoChainRule} {cp : MacroCheckpoint} {m : Height}
    (hkeys : ∀ (h : Height) (a : MacroCheckpoint), r.adopted[h]? = some a → h ≤ cp.height)
    (h : LastFinalized r m) : LastFinalized (r.adopt cp) m := by
  obtain ⟨a, k, ha, hfin, hk, hlt⟩ := h
  obtain ⟨k', hk', hle⟩ := TwoChainRule.headHeight_adopt hkeys hk
  exact ⟨a, k', TwoChainRule.adopt_get_of_some ha, hfin, hk', Nat.lt_of_lt_of_le hlt hle⟩

theorem finalityInv_move {cr : Crypto} {call : NodeCall} {ps : List MacroCheckpoint}
    {as : List Action} {c d : MacroCore} {sg : List SignReq} {acts : List Action}
    (hgood : staleVote cr call = false) (hm : Move cr call c sg acts d)
    (hchain : ChainInv ps c) (hkeys : KeysBounded c) (hinv : FinalityInv as c) :
    FinalityInv as d := by
  obtain ⟨hs, hpair, hall, hlast⟩ := hinv
  cases hm with
  | recordVote p old locks hev hacc hpre hparent hold hroot hhash hlock =>
    have hnext := vote_at_next hchain hgood hev hacc hpre hold
    refine ⟨hs, hpair, hall, ?_⟩
    intro m hm
    exact lastFinalized_adopt (fun h a ha => hnext ▸ hkeys h a ha) (hlast m hm)
  | _ => exact ⟨hs, hpair, hall, hlast⟩

theorem FinalizedAt.mono {as bs : List Action} {b : BlobId} {h : Height}
    (hf : FinalizedAt as b h) : FinalizedAt (as ++ bs) b h := by
  obtain ⟨cp, next, hcp, hnext, hh, hh', hparent, hq, hq', hb⟩ := hf
  have hpre : ∀ (i : Nat) (q : MacroCheckpoint), (persistedCheckpoints as)[i]? = some q →
      (persistedCheckpoints (as ++ bs))[i]? = some q := by
    intro i q hqi
    rw [persistedCheckpoints_append, List.getElem?_append_left (List.getElem?_eq_some_iff.mp hqi).1]
    exact hqi
  refine ⟨cp, next, hpre h cp hcp, hpre (h + 1) next hnext, hh, hh', hparent, ?_, ?_, hb⟩
  · rw [persistedQcs_append, List.map_append]
    exact List.mem_append_left _ hq
  · rw [persistedQcs_append, List.map_append]
    exact List.mem_append_left _ hq'

theorem blobId_of_hash {cp q : MacroCheckpoint} (h : cp.hash = q.hash) :
    blobIdOfCheckpoint cp = blobIdOfCheckpoint q := by
  simp [blobIdOfCheckpoint, h]

theorem IsMacroChain.parent_hash {ps : List MacroCheckpoint} (h : IsMacroChain ps) {i : Nat}
    {cp next : MacroCheckpoint} (hcp : ps[i]? = some cp) (hnext : ps[i + 1]? = some next) :
    next.parent = cp.hash := by
  have hlt := (List.getElem?_eq_some_iff.mp hcp).1
  have hp := (h (i + 1) next hnext).2
  rw [hp, tipHash, List.getLast?_take]
  simp [hcp]

/-- A height whose finality an adoption settles is one the node has adopted. -/
theorem finalizedAt_of_chain {as : List Action} {c : MacroCore} {prev : Height}
    {cp : MacroCheckpoint} (h : ChainHistory [] as c) (hlt : prev + 1 < c.nextHeight)
    (hcp : c.candidate[prev]? = some cp) : FinalizedAt as (blobIdOfCheckpoint cp) prev := by
  have hlen := h.1.next
  obtain ⟨q, hq, hqh⟩ := Option.map_eq_some_iff.mp
    (h.1.done prev cp hcp (Nat.lt_of_succ_lt hlt))
  have hnext : (persistedCheckpoints as)[prev + 1]? =
      some ((persistedCheckpoints as).get ⟨prev + 1, hlen ▸ hlt⟩) :=
    List.getElem?_eq_getElem _
  refine ⟨q, _, hq, hnext, (h.1.chain prev q hq).1, (h.1.chain (prev + 1) _ hnext).1,
    h.1.chain.parent_hash hq hnext, ?_, ?_, blobId_of_hash hqh.symm⟩
  · rw [h.2]
    exact List.mem_map_of_mem (List.mem_of_getElem? hq)
  · rw [h.2]
    exact List.mem_map_of_mem (List.mem_of_getElem? hnext)

theorem le_getLast {hs : List Height} {m : Height} (hpair : hs.Pairwise (· < ·))
    (hlast : hs.getLast? = some m) : ∀ a ∈ hs, a ≤ m := by
  obtain ⟨ys, rfl⟩ := List.getLast?_eq_some_iff.mp hlast
  intro a ha
  cases List.mem_append.mp ha with
  | inl hl => exact ((List.pairwise_append.mp hpair).2.2 a hl m (by simp)).le
  | inr hr => exact (List.mem_singleton.mp hr).le

theorem pairwise_snoc {hs : List Height} {x : Height} (hpair : hs.Pairwise (· < ·))
    (hlast : ∀ m, hs.getLast? = some m → m < x) : (hs ++ [x]).Pairwise (· < ·) := by
  rw [List.pairwise_append]
  refine ⟨hpair, by simp, ?_⟩
  intro a ha b hb
  rw [List.mem_singleton.mp hb]
  cases hl : hs.getLast? with
  | none =>
    rw [List.getLast?_eq_none_iff.mp hl] at ha
    simp at ha
  | some m => exact Nat.lt_of_le_of_lt (le_getLast hpair hl a ha) (hlast m hl)

theorem lastFinalized_settle {r : TwoChainRule} {m : Height} (h : LastFinalized r m)
    (hnone : r.newlyFinalizedHeight = none) : LastFinalized r.settle m := by
  obtain ⟨a, k, ha, hfin, hk, hlt⟩ := h
  obtain ⟨hadopted, -, hset⟩ := r.settle_spec
  refine ⟨a, k, by rw [hadopted, ha], ?_, by rw [r.settle_headHeight, hk], hlt⟩
  cases hset with
  | inl hn => rw [hn.2, hfin]
  | inr hs =>
    obtain ⟨prev, cp, hprev, -, -⟩ := hs
    rw [hnone] at hprev
    cases hprev

theorem newly_final_above {r : TwoChainRule} {m prev : Height} (h : LastFinalized r m)
    (hprev : r.newlyFinalizedHeight = some prev) : m < prev := by
  obtain ⟨a, k, ha, hfin, hk, hlt⟩ := h
  obtain ⟨-, cp, hk', -, hcp, -, hne⟩ := TwoChainRule.newlyFinalized_spec hprev
  rw [hk'] at hk
  cases hk
  refine lt_of_le_of_ne (Nat.lt_succ_iff.mp hlt) ?_
  intro heq
  rw [heq, hcp] at ha
  cases ha
  exact hne hfin

theorem lastFinalized_new {r : TwoChainRule} {prev : Height}
    (hprev : r.newlyFinalizedHeight = some prev) : LastFinalized r.settle prev := by
  obtain ⟨-, cp, hk, -, hcp, -, -⟩ := TwoChainRule.newlyFinalized_spec hprev
  obtain ⟨hadopted, -, hset⟩ := r.settle_spec
  refine ⟨cp, prev + 1, by rw [hadopted, hcp], ?_, by rw [r.settle_headHeight, hk],
    Nat.lt_succ_self prev⟩
  cases hset with
  | inl hn =>
    rw [hprev] at hn
    cases hn.1
  | inr hs =>
    obtain ⟨prev', cp', hprev', hcp', hfin⟩ := hs
    rw [hprev] at hprev'
    cases hprev'
    rw [hcp] at hcp'
    cases hcp'
    exact hfin

theorem finalityInv_adopt {cr : Crypto} {call : NodeCall} {as : List Action}
    {c d : MacroCore} {acts : List Action} (hchain : ChainHistory [] as c)
    (hkeys : KeysBounded c) (hinv : FinalityInv as c) (ha : Adopt cr call c acts d) :
    FinalityInv (as ++ adoptionsIn acts) d := by
  have hchain' := chainHistory_adopt hchain ha
  cases ha with
  | mk set height cand qc own leak hset hpre hnew hc hnames hqc hleak =>
    obtain ⟨hs, hpair, hall, hlast⟩ := hinv
    obtain ⟨hh, -⟩ := hchain.1.height height cand hc
    have hnext := hchain.1.adopts_next hc hnew
    have hkeys' : ∀ (h : Height) (a : MacroCheckpoint), c.twoChain.adopted[h]? = some a →
        h ≤ cand.height := by
      intro h a hget
      rw [hh, hnext]
      exact hkeys h a hget
    have hlast' : ∀ m, hs.getLast? = some m → LastFinalized (c.twoChain.adopt cand) m :=
      fun m hm => lastFinalized_adopt hkeys' (hlast m hm)
    unfold FinalityInv
    rw [finalizedBlobs_append, finalizedBlobs_adoptionsIn,
      finalized_of_adoption c cand qc own leak hleak]
    have hold : ∀ bs, List.Forall₂ (FinalizedAt (as ++ bs)) (finalizedBlobs as) hs :=
      fun bs => hall.imp fun _ _ hf => hf.mono
    cases hprev : (c.twoChain.adopt cand).newlyFinalizedHeight with
    | none =>
      refine ⟨hs, hpair, ?_, fun m hm => lastFinalized_settle (hlast' m hm) hprev⟩
      simpa [newlyFinalBlobs, hprev] using hold _
    | some prev =>
      obtain ⟨head, -, -, hhead, -, -, -⟩ := TwoChainRule.newlyFinalized_spec hprev
      have hle : prev + 1 ≤ c.nextHeight := by
        have hb := keysBounded_adopt hkeys' (le_refl _) (prev + 1) head hhead
        rw [hh, hnext] at hb
        exact hb
      obtain ⟨q, hq⟩ := hchain.1.filled prev hle
      refine ⟨hs ++ [prev], ?_, ?_, ?_⟩
      · exact pairwise_snoc hpair fun m hm => newly_final_above (hlast' m hm) hprev
      · refine List.rel_append (hold _) ?_
        simp only [newlyFinalBlobs, hprev, hq, Option.map_some, Option.toList_some]
        refine List.Forall₂.cons ?_ List.Forall₂.nil
        refine finalizedAt_of_chain hchain' ?_ hq
        rw [MacroCore.adopted, hnext]
        exact Nat.lt_succ_of_le hle
      · intro m hm
        rw [List.getLast?_append, List.getLast?_singleton] at hm
        cases hm
        exact lastFinalized_new hprev

/-- Everything finality depends on, for calls that cast no stale vote. -/
def FinalityHistory (_log : List SignReq) (as : List Action) (c : MacroCore) : Prop :=
  ChainHistory [] as c ∧ KeysBounded c ∧ FinalityInv as c

theorem finalityHistory_kept {cr : Crypto} {call : NodeCall} (hgood : staleVote cr call = false) :
    KeptBy cr FinalityHistory call where
  move := fun _ _ _ _ _ _ _ hm h => ⟨⟨chainInv_move hm h.1.1, h.1.2⟩,
    keysBounded_move hm h.1.1 h.2.1, finalityInv_move hgood hm h.1.1 h.2.1 h.2.2⟩
  other := fun _ _ _ _ _ h => h

theorem finalityHistory_adopt {cr : Crypto} {call : NodeCall} {log : List SignReq}
    {as : List Action} {c d : MacroCore} {acts : List Action} (h : FinalityHistory log as c)
    (ha : Adopt cr call c acts d) : FinalityHistory log (as ++ adoptionsIn acts) d := by
  refine ⟨chainHistory_adopt h.1 ha, ?_, finalityInv_adopt h.1 h.2.1 h.2.2 ha⟩
  cases ha with
  | mk set height cand qc own leak hset hpre hnew hc hnames hqc hleak =>
    exact keysBounded_adopted h.1.1 h.2.1 hc hnew

/-- The finalized blobs of a run are adopted checkpoints with an adopted child, at
strictly increasing heights. -/
def FinalityIsSafe (acts : List Action) : Prop :=
  ∃ hs : List Height, hs.Pairwise (· < ·) ∧
    List.Forall₂ (FinalizedAt acts) (finalizedBlobs acts) hs

theorem finality_safe (cr : Crypto) (cfg : Config) (self : ValidatorId)
    (is : List StateMachine.Input)
    (hgood : ∀ call ∈ StateMachine.run cr cfg self is, staleVote cr call = false) :
    FinalityIsSafe (StateMachine.actions cr cfg self is) := by
  have hinv := run_invariant (P := FinalityHistory) (fun call => staleVote cr call = false)
    (fun _ hg => finalityHistory_kept hg) (fun _ _ _ _ _ _ _ => finalityHistory_adopt) cfg self
    ⟨⟨chainInv_init self, rfl⟩, by
      intro h a ha
      simp [MacroBook.new, MacroBook.core] at ha, [], by simp, by simp [finalizedBlobs], by simp⟩
    is hgood
  obtain ⟨-, -, hs, hpair, hall, -⟩ := hinv
  refine ⟨hs, hpair, ?_⟩
  rw [finalizedBlobs_adoptionsIn] at hall
  refine hall.imp ?_
  intro b h hf
  simpa [FinalizedAt] using hf

section Devnet
open Devnet

def finalityRecords : List Record :=
  partialsBy [0, 1, 3] a0 ++ partialsBy [0, 1, 3] a1 ++ partialsBy [0, 1, 3] a2 ++
    partialsBy [0, 1, 3] b3 ++ [proposedBy 0 a1, proposedBy 0 a3]

/-- Heights 0 to 2 are adopted, the node votes for `a3`, and `b3` becomes the candidate.
Then the proposal of `a1` arrives with the tip written in as parent, and the QC of `b3`. -/
def finalityScript : List (Round × Event) :=
  [closesWave 1, qcReceived [0, 1, 3] a0.hash, closesWave 2, qcReceived [0, 1, 3] a1.hash,
    closesWave 3, qcReceived [0, 1, 3] a2.hash, closesWave 4, proposal 0 a3, closesWave 5,
    proposal 0 { a1 with parent := a2.hash }, qcReceived [0, 1, 3] b3.hash]

theorem finality_safe_without_replay :
    FinalityIsSafe (StateMachine.actions (crypto (recordedIn finalityRecords)) config ⟨2⟩
      (script 2 (finalityScript.take 9))) :=
  finality_safe _ _ _ _ (by decide +kernel)

/-- The replayed proposal moves the justified head back, and height 0 is finalized a
second time. -/
theorem height_finalized_twice :
    ¬ FinalityIsSafe (StateMachine.actions (crypto (recordedIn finalityRecords)) config ⟨2⟩
      (script 2 finalityScript)) := by
  intro hsafe
  obtain ⟨hs, hpair, hall⟩ := hsafe
  have hblobs : finalizedBlobs (StateMachine.actions (crypto (recordedIn finalityRecords)) config
      ⟨2⟩ (script 2 finalityScript)) =
      [blobIdOfCheckpoint a0, blobIdOfCheckpoint a1, blobIdOfCheckpoint a0] := by decide +kernel
  have hnodup : ((persistedCheckpoints (StateMachine.actions (crypto (recordedIn finalityRecords))
      config ⟨2⟩ (script 2 finalityScript))).map blobIdOfCheckpoint).Nodup := by decide +kernel
  have hzero : ∀ h, FinalizedAt (StateMachine.actions (crypto (recordedIn finalityRecords)) config
      ⟨2⟩ (script 2 finalityScript)) (blobIdOfCheckpoint a0) h → h = 0 := by
    intro h hf
    obtain ⟨cp, next, hcp, -, -, -, -, -, -, hb⟩ := hf
    have hget : ((persistedCheckpoints (StateMachine.actions (crypto (recordedIn finalityRecords))
        config ⟨2⟩ (script 2 finalityScript))).map blobIdOfCheckpoint)[h]? =
        some (blobIdOfCheckpoint a0) := by
      rw [List.getElem?_map, hcp, hb]
      rfl
    refine (List.getElem?_inj (List.getElem?_eq_some_iff.mp hget).1 hnodup).mp (hget.trans ?_)
    decide +kernel
  rw [hblobs] at hall
  cases hall with
  | cons hfirst hrest =>
    cases hrest with
    | cons _ hlast =>
      cases hlast with
      | cons hthird _ =>
        rw [hzero _ hfirst, hzero _ hthird] at hpair
        simp at hpair

end Devnet

/- Completeness of finality. -/

/-- The call names the pending candidate while the two-chain state already holds
another checkpoint at its height. -/
def splitHeight (call : NodeCall) : Bool :=
  let book := call.pre.macros
  match call.names, book.candidate[book.nextHeight]?, book.twoChain.adopted[book.nextHeight]? with
  | some x, some cand, some a => decide (cand.hash = x) && decide (a.hash ≠ x)
  | _, _, _ => false

structure CompleteInv (ps : List MacroCheckpoint) (c : MacroCore) : Prop where
  keys : KeysBounded c
  below : ∀ (h : Height) (q : MacroCheckpoint), ps[h]? = some q →
    ∃ a, c.twoChain.adopted[h]? = some a ∧ a.hash = q.hash
  next : ∀ a, c.twoChain.adopted[c.nextHeight]? = some a → a.parent = c.lastMacroHash
  final : ∀ x, c.twoChain.finalizedHead = some x →
    ∃ (j : Height) (q : MacroCheckpoint), j + 1 < c.nextHeight ∧ ps[j]? = some q ∧ x = q.hash

theorem completeInv_move {cr : Crypto} {call : NodeCall} {ps : List MacroCheckpoint}
    {c d : MacroCore} {sg : List SignReq} {acts : List Action}
    (hm : Move cr call c sg acts d) (hchain : ChainInv ps c) (hinv : CompleteInv ps c) :
    CompleteInv ps d := by
  have hkeys := keysBounded_move hm hchain hinv.keys
  cases hm with
  | recordVote p old locks hev hacc hpre hparent hold hroot hhash hlock =>
    refine ⟨hkeys, ?_, ?_, hinv.final⟩
    · intro h q hq
      obtain ⟨a, ha, hah⟩ := hinv.below h q hq
      exact ⟨a, TwoChainRule.adopt_get_of_some ha, hah⟩
    · intro a ha
      cases hold' : c.twoChain.adopted[c.nextHeight]? with
      | some b =>
        rw [TwoChainRule.adopt_get_of_some hold'] at ha
        cases ha
        exact hinv.next _ hold'
      | none =>
        rw [TwoChainRule.adopt_get] at ha
        split at ha
        · rename_i heq
          rw [TwoChainRule.entry, heq, hold'] at ha
          cases ha
          exact hparent
        · rw [hold'] at ha
          cases ha
  | _ => exact ⟨hkeys, hinv.below, hinv.next, hinv.final⟩

theorem entry_of_unsplit {call : NodeCall} {c : MacroCore} {cand : MacroCheckpoint}
    {height : Height} (hgood : splitHeight call = false)
    (hpre : c.spine = call.pre.macros.core.spine) (hnames : call.names = some cand.hash)
    (hnext : height = c.nextHeight) (hh : cand.height = height)
    (hc : c.candidate[height]? = some cand) : (c.twoChain.entry cand).hash = cand.hash := by
  have hn : c.nextHeight = call.pre.macros.nextHeight := congrArg MacroCore.nextHeight hpre
  have hcand : c.candidate = call.pre.macros.candidate := congrArg MacroCore.candidate hpre
  have htwo : c.twoChain = call.pre.macros.twoChain := congrArg MacroCore.twoChain hpre
  unfold TwoChainRule.entry
  rw [hh, hnext, htwo, hn]
  rw [hnext, hcand, hn] at hc
  cases ha : call.pre.macros.twoChain.adopted[call.pre.macros.nextHeight]? with
  | none => rfl
  | some a => simpa [splitHeight, hnames, hc, ha] using hgood

theorem adoption_finalizes {ps : List MacroCheckpoint} {c : MacroCore} {cand : MacroCheckpoint}
    {h : Height} {cp : MacroCheckpoint} (hchain : ChainInv ps c) (hinv : CompleteInv ps c)
    (hc : c.candidate[h + 1]? = some cand) (hnext : c.nextHeight = h + 1)
    (hentry : (c.twoChain.entry cand).hash = cand.hash) (hcp : ps[h]? = some cp) :
    (c.twoChain.adopt cand).newlyFinalizedHeight = some h := by
  have hh := (hchain.height _ cand hc).1
  have hparent : cand.parent = cp.hash := by
    rw [hchain.pending cand (hnext ▸ hc), hchain.last, tipHash,
      List.getLast?_eq_getElem?, ← hchain.next, hnext]
    simp [hcp]
  obtain ⟨a, ha, hah⟩ := hinv.below h cp hcp
  refine @TwoChainRule.newlyFinalized_of _ h (c.twoChain.entry cand) a ?_ ?_
    (TwoChainRule.adopt_get_of_some ha) ?_ ?_
  · rw [← hh]
    exact TwoChainRule.headHeight_adopt_self
      (fun k b hb => by rw [hh, ← hnext]; exact hinv.keys k b hb) hentry
  · rw [TwoChainRule.adopt_get, if_pos hh]
  · unfold TwoChainRule.entry
    rw [hh]
    cases hb : c.twoChain.adopted[h + 1]? with
    | none => exact hparent.trans hah.symm
    | some b =>
      have hbp := hinv.next b (hnext ▸ hb)
      rw [Option.getD_some, hbp, ← hchain.pending cand (hnext ▸ hc), hparent, hah]
  · rw [TwoChainRule.adopt_finalizedHead, hah]
    intro hfin
    obtain ⟨j, q, hj, hq, hqh⟩ := hinv.final cp.hash hfin
    have hne : j ≠ h := by
      intro heq
      rw [heq, hnext] at hj
      exact Nat.lt_irrefl _ hj
    have hjm : (ps.map (·.hash))[j]? = some cp.hash := by simp [hq, hqh]
    have hhm : (ps.map (·.hash))[h]? = some cp.hash := by simp [hcp]
    exact hne ((List.getElem?_inj (List.getElem?_eq_some_iff.mp hjm).1 hchain.distinct).mp
      (hjm.trans hhm.symm))

/-- The two-chain state holds what has been adopted, also after the adoption of `cand`. -/
theorem CompleteInv.below_snoc {ps : List MacroCheckpoint} {c : MacroCore}
    {cand : MacroCheckpoint} (hinv : CompleteInv ps c) (hh : cand.height = ps.length)
    (hentry : (c.twoChain.entry cand).hash = cand.hash) (h : Height) (q : MacroCheckpoint)
    (hq : (ps ++ [cand])[h]? = some q) :
    ∃ a, (c.twoChain.adopt cand).adopted[h]? = some a ∧ a.hash = q.hash := by
  obtain ⟨-, hold⟩ | ⟨hlen, hlast⟩ := getElem_snoc_cases hq
  · obtain ⟨a, ha, hah⟩ := hinv.below h q hold
    exact ⟨a, TwoChainRule.adopt_get_of_some ha, hah⟩
  · refine ⟨c.twoChain.entry cand, ?_, by rw [hentry, hlast]⟩
    rw [TwoChainRule.adopt_get, if_pos (hh.trans hlen.symm)]

theorem CompleteInv.newly_final {ps : List MacroCheckpoint} {c : MacroCore}
    {cand : MacroCheckpoint} {prev : Height} (hinv : CompleteInv ps c)
    (hh : cand.height = c.nextHeight) (hentry : (c.twoChain.entry cand).hash = cand.hash)
    (hprev : (c.twoChain.adopt cand).newlyFinalizedHeight = some prev) :
    c.nextHeight = prev + 1 := by
  obtain ⟨head, -, hk, -, -, -, -⟩ := TwoChainRule.newlyFinalized_spec hprev
  rw [TwoChainRule.headHeight_adopt_self (fun k b hb => by rw [hh]; exact hinv.keys k b hb) hentry,
    hh] at hk
  exact Option.some.inj hk

theorem completeInv_adopted {call : NodeCall} {ps : List MacroCheckpoint} {c : MacroCore}
    {cand : MacroCheckpoint} {height : Height} (hgood : splitHeight call = false)
    (hpre : c.spine = call.pre.macros.core.spine) (hnames : call.names = some cand.hash)
    (hchain : ChainInv ps c) (hinv : CompleteInv ps c) (hc : c.candidate[height]? = some cand)
    (hnew : cand.hash ∉ c.emittedMacroQc) :
    CompleteInv (ps ++ [cand]) (c.adopted height cand) := by
  have hkeys := keysBounded_adopted hchain hinv.keys hc hnew
  have hnext := hchain.adopts_next hc hnew
  have hh := (hchain.height height cand hc).1
  have hentry := entry_of_unsplit hgood hpre hnames hnext hh hc
  have hbelow := hinv.below_snoc (hh.trans (hnext.trans hchain.next)) hentry
  obtain ⟨hadopted, -, hset⟩ := (c.twoChain.adopt cand).settle_spec
  refine ⟨hkeys, ?_, ?_, ?_⟩
  · intro h q hq
    rw [MacroCore.adopted, hadopted]
    exact hbelow h q hq
  · intro a ha
    rw [MacroCore.adopted, hadopted] at ha
    have hb := keysBounded_adopt hinv.keys
      (show cand.height ≤ c.nextHeight by rw [hh, hnext]) _ a ha
    rw [hnext] at hb
    exact absurd hb (Nat.not_succ_le_self _)
  · intro x hx
    cases hset with
    | inl hn =>
      rw [MacroCore.adopted, hn.2, TwoChainRule.adopt_finalizedHead] at hx
      obtain ⟨j, q, hj, hq, hqh⟩ := hinv.final x hx
      refine ⟨j, q, ?_, ?_, hqh⟩
      · rw [MacroCore.adopted, hnext]
        exact Nat.lt_succ_of_lt hj
      · rw [List.getElem?_append_left (List.getElem?_eq_some_iff.mp hq).1]
        exact hq
    | inr hs =>
      obtain ⟨prev, b, hprev, hb, hfin⟩ := hs
      rw [MacroCore.adopted, hfin] at hx
      cases hx
      have hn := hinv.newly_final (hh.trans hnext) hentry hprev
      have hlt : prev < (ps ++ [cand]).length := by
        rw [List.length_append, List.length_singleton, ← hchain.next, hn]
        exact Nat.lt_succ_of_lt (Nat.lt_succ_self prev)
      have hq : (ps ++ [cand])[prev]? = some ((ps ++ [cand]).get ⟨prev, hlt⟩) :=
        List.getElem?_eq_getElem hlt
      obtain ⟨a, ha, hah⟩ := hbelow prev _ hq
      rw [ha] at hb
      cases hb
      refine ⟨prev, _, ?_, hq, hah⟩
      rw [MacroCore.adopted, hnext, hn]
      exact Nat.lt_succ_self _

def CompleteHistory (_log : List SignReq) (as : List Action) (c : MacroCore) : Prop :=
  ChainHistory [] as c ∧ CompleteInv (persistedCheckpoints as) c

theorem completeHistory_kept (cr : Crypto) (call : NodeCall) :
    KeptBy cr CompleteHistory call where
  move := fun _ _ _ _ _ _ _ hm h =>
    ⟨⟨chainInv_move hm h.1.1, h.1.2⟩, completeInv_move hm h.1.1 h.2⟩
  other := fun _ _ _ _ _ h => h

theorem completeHistory_adopt {cr : Crypto} {call : NodeCall} (hgood : splitHeight call = false)
    {log : List SignReq} {as : List Action} {c d : MacroCore} {acts : List Action}
    (h : CompleteHistory log as c) (ha : Adopt cr call c acts d) :
    CompleteHistory log (as ++ adoptionsIn acts) d := by
  refine ⟨chainHistory_adopt h.1 ha, ?_⟩
  cases ha with
  | mk set height cand qc own leak hset hpre hnew hc hnames hqc hleak =>
    rw [persistedCheckpoints_append, persistedCheckpoints_adoptionsIn,
      (persisted_of_adoption c cand qc own leak hleak _).1]
    exact completeInv_adopted hgood hpre hnames h.1.1 h.2 hc hnew

theorem completeHistory_init (self : ValidatorId) :
    CompleteHistory [] [] (MacroBook.new self).core := by
  refine ⟨⟨chainInv_init self, rfl⟩, ?_, ?_, ?_, ?_⟩
  · intro h a ha
    simp [MacroBook.new, MacroBook.core] at ha
  · intro h q hq
    simp [persistedCheckpoints] at hq
  · intro a ha
    simp [MacroBook.new, MacroBook.core] at ha
  · intro x hx
    simp [MacroBook.new, MacroBook.core] at hx

/-- The call after `is` that adopts a child of an adopted checkpoint reports that
checkpoint final. -/
def FinalizesParent (cr : Crypto) (cfg : Config) (self : ValidatorId)
    (is : List StateMachine.Input) (i : StateMachine.Input) : Prop :=
  let now := (StateMachine.exec cr i (StateMachine.reached cr cfg self is)).actions
  ∀ cp cand, Action.persistMacroCheckpoint cp ∈ StateMachine.actions cr cfg self is →
    Action.persistMacroCheckpoint cand ∈ now → cand.height = cp.height + 1 →
    cand.parent = cp.hash →
    Action.updateBlobStatus (blobIdOfCheckpoint cp) .finalized ∈ now

theorem mem_finalizedBlobs {acts : List Action} {b : BlobId} (h : b ∈ finalizedBlobs acts) :
    Action.updateBlobStatus b .finalized ∈ acts := by
  obtain ⟨a, ha, hb⟩ := List.mem_filterMap.mp h
  cases a with
  | updateBlobStatus b' st =>
    cases st <;> simp_all [Action.finalizedBlob]
  | _ => simp [Action.finalizedBlob] at hb

theorem finalizes_of_adopt {cr : Crypto} {call : NodeCall} (hgood : splitHeight call = false)
    {log : List SignReq} {as : List Action} {c d : MacroCore} {acts : List Action}
    (hinv : CompleteHistory log as c) (ha : Adopt cr call c acts d)
    {cp cand : MacroCheckpoint} (hmem : cp ∈ persistedCheckpoints as)
    (hcand : cand ∈ persistedCheckpoints acts) (hheight : cand.height = cp.height + 1) :
    blobIdOfCheckpoint cp ∈ finalizedBlobs acts := by
  obtain ⟨h, hcp⟩ := List.mem_iff_getElem?.mp hmem
  rw [(hinv.1.1.chain h cp hcp).1] at hheight
  cases ha with
  | mk set height q qc own leak hset hpre hnew hc hnames hqc hleak =>
    rw [(persisted_of_adoption c q qc own leak hleak _).1, List.mem_singleton] at hcand
    subst hcand
    rw [finalized_of_adoption c cand qc own leak hleak]
    have hnext := hinv.1.1.adopts_next hc hnew
    have hh := (hinv.1.1.height height cand hc).1
    have hheight' : height = h + 1 := hh.symm.trans hheight
    subst hheight'
    have hentry := entry_of_unsplit hgood hpre hnames hnext hh hc
    have hfin := adoption_finalizes hinv.1.1 hinv.2 hc hnext.symm hentry hcp
    obtain ⟨q, hq⟩ := hinv.1.1.filled h (hnext ▸ Nat.lt_succ_self h)
    have hdone := hinv.1.1.done h q hq (hnext ▸ Nat.lt_succ_self h)
    rw [hcp] at hdone
    simp [newlyFinalBlobs, hfin, hq, blobId_of_hash (Option.some.inj hdone)]

theorem finality_complete (cr : Crypto) (cfg : Config) (self : ValidatorId)
    (is : List StateMachine.Input) (i : StateMachine.Input)
    (hgood : ∀ call ∈ StateMachine.run cr cfg self (is ++ [i]), splitHeight call = false) :
    FinalizesParent cr cfg self is i := by
  unfold StateMachine.run at hgood
  rw [Trace.calls_append] at hgood
  have hinv := run_invariant (P := CompleteHistory) (fun call => splitHeight call = false)
    (fun call _ => completeHistory_kept cr call)
    (fun _ hg _ _ _ _ _ => completeHistory_adopt hg) cfg self (completeHistory_init self) is
    (fun call hcall => hgood call (List.mem_append_left _ hcall))
  have hcall : splitHeight ⟨StateMachine.reached cr cfg self is, i⟩ = false :=
    hgood _ (List.mem_append_right _ (List.mem_singleton.mpr rfl))
  intro cp cand hcp hcand hheight hparent
  apply mem_finalizedBlobs
  replace hcp := mem_persistedCheckpoints hcp
  replace hcand := mem_persistedCheckpoints hcand
  rw [← persistedCheckpoints_adoptionsIn] at hcand hcp
  rw [← finalizedBlobs_adoptionsIn]
  cases (completeHistory_kept cr ⟨StateMachine.reached cr cfg self is, i⟩).call _ _ hinv with
  | inl hno =>
    rw [hno.2] at hcand
    simp [persistedCheckpoints] at hcand
  | inr ha =>
    obtain ⟨d, acts, hd, hadopt, heq⟩ := ha
    rw [heq, persistedCheckpoints_adoptionsIn] at hcand
    rw [heq, finalizedBlobs_adoptionsIn]
    exact finalizes_of_adopt hcall hd hadopt hcp hcand hheight

section Devnet
open Devnet

def replacedRecords : List Record :=
  proposedBy 0 a0 :: partialsBy [0, 1, 3] b0 ++ partialsBy [0, 1, 3] (checkpoint 1 b0.hash 3)

def replacedScript : List (Round × Event) :=
  [closesWave 1, proposal 0 a0, closesWave 2, qcReceived [0, 1, 3] b0.hash, closesWave 3,
    qcReceived [0, 1, 3] (checkpoint 1 b0.hash 3).hash]

def adoptedRecords : List Record := partialsBy [0, 1, 3] a0 ++ partialsBy [0, 1, 3] a1

theorem finality_complete_without_rival :
    FinalizesParent (crypto (recordedIn adoptedRecords)) config ⟨2⟩
      (script 2 [closesWave 1, qcReceived [0, 1, 3] a0.hash, closesWave 2])
      (.event (qcReceived [0, 1, 3] a1.hash).2, ports 2 9) :=
  finality_complete _ _ _ _ _ (by decide +kernel)

/-- The vote keeps `b0` out of the two-chain state, so its child finalizes nothing. -/
theorem parent_not_finalized :
    ¬ FinalizesParent (crypto (recordedIn replacedRecords)) config ⟨2⟩
      (script 2 (replacedScript.take 5))
      (.event (qcReceived [0, 1, 3] (checkpoint 1 b0.hash 3).hash).2, ports 2 13) := by
  intro h
  have hfinal := h b0 (checkpoint 1 b0.hash 3) (by decide +kernel) (by decide +kernel) rfl rfl
  revert hfinal
  decide +kernel

end Devnet

/- Justification. -/

def unbackedVote (cr : Crypto) (call : NodeCall) : Bool :=
  match call.event with
  | some (.macroProposalReceived p) =>
    accepts cr call.pre.cfg call.ctx p call.pre.macros &&
      decide (p.checkpoint.hash ∉ call.pre.macros.emittedMacroQc)
  | _ => false

structure BackedInv (c : MacroCore) : Prop where
  stored : ∀ (h : Height) (a : MacroCheckpoint), c.twoChain.adopted[h]? = some a →
    a.hash ∈ c.emittedMacroQc
  head : ∀ x, c.twoChain.justifiedHead = some x → x ∈ c.emittedMacroQc

theorem backed_adopt {r : TwoChainRule} {cp : MacroCheckpoint} {hashes : Finset Hash32}
    (hcp : cp.hash ∈ hashes)
    (hstored : ∀ (h : Height) (a : MacroCheckpoint), r.adopted[h]? = some a → a.hash ∈ hashes)
    (hhead : ∀ x, r.justifiedHead = some x → x ∈ hashes) :
    (∀ (h : Height) (a : MacroCheckpoint), (r.adopt cp).adopted[h]? = some a → a.hash ∈ hashes) ∧
      ∀ x, (r.adopt cp).justifiedHead = some x → x ∈ hashes := by
  refine ⟨?_, ?_⟩
  · intro h a ha
    rw [TwoChainRule.adopt_get] at ha
    split at ha
    · cases hold : r.adopted[cp.height]? with
      | none =>
        rw [TwoChainRule.entry, hold] at ha
        cases ha
        exact hcp
      | some b =>
        rw [TwoChainRule.entry, hold] at ha
        cases ha
        exact hstored _ _ hold
    · exact hstored h a ha
  · intro x hx
    rw [TwoChainRule.adopt_head] at hx
    split at hx
    · cases hx
      exact hcp
    · exact hhead x hx

theorem backedInv_move {cr : Crypto} {call : NodeCall} {c d : MacroCore} {sg : List SignReq}
    {acts : List Action} (hgood : unbackedVote cr call = false) (hm : Move cr call c sg acts d)
    (hinv : BackedInv c) : BackedInv d := by
  cases hm with
  | recordVote p old locks hev hacc hpre hparent hold hroot hhash hlock =>
    have hem : c.emittedMacroQc = call.pre.macros.emittedMacroQc :=
      congrArg MacroCore.emittedMacroQc hpre
    have hcp : p.checkpoint.hash ∈ c.emittedMacroQc := by
      rw [hem]
      simpa [unbackedVote, hev, hacc] using hgood
    have hb := backed_adopt hcp hinv.stored hinv.head
    exact ⟨hb.1, hb.2⟩
  | _ => exact ⟨hinv.stored, hinv.head⟩

theorem backedInv_adopted {c : MacroCore} {height : Height} {cand : MacroCheckpoint}
    (hinv : BackedInv c) : BackedInv (c.adopted height cand) := by
  obtain ⟨hadopted, hhead, -⟩ := (c.twoChain.adopt cand).settle_spec
  have hb := @backed_adopt c.twoChain cand (insert cand.hash c.emittedMacroQc) (by simp)
    (fun h a ha => Finset.mem_insert_of_mem (hinv.stored h a ha))
    (fun x hx => Finset.mem_insert_of_mem (hinv.head x hx))
  refine ⟨?_, ?_⟩
  · intro h a ha
    rw [MacroCore.adopted, hadopted] at ha
    exact hb.1 h a ha
  · intro x hx
    rw [MacroCore.adopted, hhead] at hx
    exact hb.2 x hx

/-- In the state `book`, after the QCs in `acts` have been adopted, everything the
two-chain rule calls justified has an adopted QC. -/
def JustifiedByQc (acts : List Action) (book : MacroBook) : Prop :=
  (∀ h, book.twoChain.isJustified h = true → ∃ a, book.twoChain.adopted[h]? = some a ∧
    a.hash ∈ (persistedQcs acts).map (·.checkpointHash)) ∧
  ∀ x, book.twoChain.justifiedHead = some x → x ∈ (persistedQcs acts).map (·.checkpointHash)

theorem justified_by_qc (cr : Crypto) (cfg : Config) (self : ValidatorId)
    (is : List StateMachine.Input)
    (hgood : ∀ call ∈ StateMachine.run cr cfg self is, unbackedVote cr call = false) :
    JustifiedByQc (StateMachine.actions cr cfg self is)
      (StateMachine.reached cr cfg self is).macros := by
  have hchain := run_chain cr cfg self is
  have hinv : BackedInv (StateMachine.reached cr cfg self is).macros.core :=
    run_invariant (P := fun _ _ c => BackedInv c) (fun call => unbackedVote cr call = false)
      (fun _ hg => ⟨fun _ _ _ _ _ _ _ hm h => backedInv_move hg hm h, fun _ _ _ _ _ h => h⟩)
      (fun _ _ _ _ _ _ _ h ha => by
        cases ha
        exact backedInv_adopted h)
      cfg self ⟨by
        intro h a ha
        simp [MacroBook.new, MacroBook.core] at ha, by
        intro x hx
        simp [MacroBook.new, MacroBook.core] at hx⟩ is hgood
  have hqcs : ∀ x, x ∈ (StateMachine.reached cr cfg self is).macros.emittedMacroQc →
      x ∈ (persistedQcs (StateMachine.actions cr cfg self is)).map (·.checkpointHash) := by
    intro x hx
    have hin := (hchain.1.emitted x).mp hx
    rw [← hchain.2, persistedQcs_adoptionsIn] at hin
    exact hin
  refine ⟨?_, fun x hx => hqcs x (hinv.head x hx)⟩
  intro h hj
  unfold TwoChainRule.isJustified at hj
  rw [Std.TreeMap.contains_eq_isSome_getElem?, Option.isSome_iff_exists] at hj
  obtain ⟨a, ha⟩ := hj
  exact ⟨a, ha, hqcs a.hash (hinv.stored h a ha)⟩

section Devnet
open Devnet

theorem justified_by_qc_without_vote :
    JustifiedByQc
      (StateMachine.actions (crypto (recordedIn adoptedRecords)) config ⟨2⟩
        (script 2 [closesWave 1, qcReceived [0, 1, 3] a0.hash]))
      (StateMachine.reached (crypto (recordedIn adoptedRecords)) config ⟨2⟩
        (script 2 [closesWave 1, qcReceived [0, 1, 3] a0.hash])).macros :=
  justified_by_qc _ _ _ _ (by decide +kernel)

/-- A vote alone makes its height justified. -/
theorem justified_without_qc :
    ¬ JustifiedByQc
      (StateMachine.actions (crypto (recordedIn replacedRecords)) config ⟨2⟩
        (script 2 (replacedScript.take 2)))
      (StateMachine.reached (crypto (recordedIn replacedRecords)) config ⟨2⟩
        (script 2 (replacedScript.take 2))).macros := by
  intro h
  have hhead := h.2 a0.hash (by decide +kernel)
  revert hhead
  decide +kernel

end Devnet
end LuaDag
