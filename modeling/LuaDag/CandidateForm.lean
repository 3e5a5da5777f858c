import LuaDag.MacroLock

/-! The form of candidates. A vote installs the checkpoint of the proposal after comparing
its micro root and hash only: the epoch is not looked at, and at an adopted height the
parent is compared with the present tip. -/
namespace LuaDag
open MacroFin

/-- `cp` belongs to height `h`, in epoch 0, and carries the hash of its own fields. -/
structure WellFormed (cr : Crypto) (h : Height) (cp : MacroCheckpoint) : Prop where
  height : cp.height = h
  epoch : cp.epoch = 0
  hash : cp.hash = (build cr cp.height cp.epoch cp.parent cp.microRoot).hash

def foreignEpoch (cr : Crypto) (call : NodeCall) : Bool :=
  match call.event with
  | some (.macroProposalReceived p) =>
    accepts cr call.pre.cfg call.ctx p call.pre.macros && decide (p.checkpoint.epoch ≠ 0)
  | _ => false

def CandidatesFormed (cr : Crypto) (c : MacroCore) : Prop :=
  ∀ (h : Height) (cp : MacroCheckpoint), c.candidate[h]? = some cp → WellFormed cr h cp

theorem CandidatesFormed.insert {cr : Crypto} {c : MacroCore} {height : Height}
    {new : MacroCheckpoint} (hinv : CandidatesFormed cr c) (hnew : WellFormed cr height new) :
    ∀ (h : Height) (cp : MacroCheckpoint), (c.candidate.insert height new)[h]? = some cp →
      WellFormed cr h cp := by
  intro h cp hcp
  rw [Maps.get_insert] at hcp
  split at hcp
  · rename_i heq
    cases hcp
    exact heq ▸ hnew
  · exact hinv h cp hcp

/-- A checkpoint of epoch 0 that agrees with the pending candidate in root and hash and
extends the tip has the form the candidate has. -/
theorem CandidatesFormed.replace {cr : Crypto} {ps : List MacroCheckpoint} {c : MacroCore}
    {old new : MacroCheckpoint} (hchain : ChainInv ps c) (hinv : CandidatesFormed cr c)
    (hold : c.candidate[c.nextHeight]? = some old) (hheight : new.height = c.nextHeight)
    (hepoch : new.epoch = 0) (hparent : new.parent = c.lastMacroHash)
    (hroot : old.microRoot = new.microRoot) (hhash : old.hash = new.hash) :
    WellFormed cr c.nextHeight new := by
  have hform := hinv c.nextHeight old hold
  refine ⟨hheight, hepoch, ?_⟩
  rw [← hhash, hform.hash, hform.height, hform.epoch, hheight, hepoch, hroot, hparent,
    hchain.pending old hold]

theorem candidatesFormed_move {cr : Crypto} {call : NodeCall} {ps : List MacroCheckpoint}
    {c d : MacroCore} {sg : List SignReq} {acts : List Action}
    (hstale : staleVote cr call = false) (hepoch : foreignEpoch cr call = false)
    (hm : Move cr call c sg acts d) (hchain : ChainInv ps c) (hinv : CandidatesFormed cr c) :
    CandidatesFormed cr d := by
  cases hm with
  | window root => exact hinv.insert ⟨rfl, rfl, rfl⟩
  | recordVote p old locks hev hacc hpre hparent hold hroot hhash hlock =>
    have hnext := vote_at_next hchain hstale hev hacc hpre hold
    have hzero : p.checkpoint.epoch = 0 := by
      simpa [foreignEpoch, hev, hacc] using hepoch
    rw [hnext] at hold
    have hform := hinv.replace hchain hold hnext hzero hparent hroot hhash
    exact hinv.insert (hnext ▸ hform)
  | _ => exact hinv

/-- Chain and form of the candidates, for calls that cast no forged vote. -/
def FormedHistory (cr : Crypto) (log : List SignReq) (as : List Action) (c : MacroCore) : Prop :=
  ChainHistory log as c ∧ CandidatesFormed cr c

theorem formedHistory_kept {cr : Crypto} {call : NodeCall} (hstale : staleVote cr call = false)
    (hepoch : foreignEpoch cr call = false) : KeptBy cr (FormedHistory cr) call where
  move := fun log as _ _ _ _ hsg hm h =>
    ⟨(chainHistory_kept cr call).move log as _ _ _ _ hsg hm h.1,
      candidatesFormed_move hstale hepoch hm h.1.1 h.2⟩
  other := fun _ _ _ _ _ h => h

theorem formedHistory_adopt {cr : Crypto} {call : NodeCall} {log : List SignReq}
    {as : List Action} {c d : MacroCore} {acts : List Action} (h : FormedHistory cr log as c)
    (ha : Adopt cr call c acts d) : FormedHistory cr log (as ++ adoptionsIn acts) d := by
  refine ⟨chainHistory_adopt h.1 ha, ?_⟩
  cases ha with
  | mk set height cand qc own leak hset hpre hnew hc hnames hqc hleak => exact h.2

/-- Every candidate of every reached state is well formed, in runs that vote neither on
an already adopted height nor in another epoch. -/
theorem candidate_integrity (cr : Crypto) (cfg : Config) (self : ValidatorId)
    (is : List StateMachine.Input)
    (hgood : ∀ call ∈ StateMachine.run cr cfg self is,
      staleVote cr call = false ∧ foreignEpoch cr call = false)
    (h : Height) (cp : MacroCheckpoint)
    (hcp : (StateMachine.reached cr cfg self is).macros.candidate[h]? = some cp) :
    WellFormed cr h cp := by
  have hrun := run_invariant
    (fun call => staleVote cr call = false ∧ foreignEpoch cr call = false)
    (fun _ hg => formedHistory_kept hg.1 hg.2) (fun _ _ _ _ _ _ _ => formedHistory_adopt) cfg self
    ⟨⟨chainInv_init self, rfl⟩, by
      intro h cp hcp
      simp [MacroBook.new, MacroBook.core] at hcp⟩ is hgood
  exact hrun.2 h cp hcp

section Devnet
open Devnet

theorem candidate_integrity_second_height :
    WellFormed (crypto (recordedIn lockRecords)) 1 a1 :=
  candidate_integrity (crypto (recordedIn lockRecords)) config ⟨2⟩
    (script 2 (lockScript.take 4)) (by decide) 1 a1 (by decide)

/-- The proposal of `a0` arrives with its epoch rewritten, and the node votes for it. -/
theorem candidate_of_another_epoch :
    ¬ ∀ (h : Height) (cp : MacroCheckpoint),
      (StateMachine.reached (crypto (recordedIn lockRecords)) config ⟨2⟩
        (script 2 [closesWave 1, proposal 0 { a0 with epoch := 7 }])).macros.candidate[h]? =
          some cp → WellFormed (crypto (recordedIn lockRecords)) h cp := by
  intro hall
  have hform := hall 0 { a0 with epoch := 7 } (by decide)
  exact absurd hform.epoch (by decide)

end Devnet
end LuaDag
