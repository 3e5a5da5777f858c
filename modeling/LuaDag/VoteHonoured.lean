import LuaDag.MacroFrame

/-! A vote can be honoured as long as its checkpoint stays in the candidate slot of its
height. The slot is single: the next window of the height, or a proposal with the same hash
and another body, takes it, and the QC of the vote then finds no candidate. -/
namespace LuaDag
open MacroFin

/-- The call sends a partial on `c`. -/
def SendsPartial (cr : Crypto) (call : NodeCall) (c : MacroCheckpoint) : Prop :=
  VotedFor (StateMachine.exec cr call.input call.pre).signed c ∧
    ∃ bp, Action.broadcastBlsPartial bp ∈ (StateMachine.exec cr call.input call.pre).actions ∧
      bp.checkpointHash = c.hash

/-- The call takes the slot of `c`: it closes a window at that height, or votes for a
proposal that differs from `c`. -/
def displaces (cr : Crypto) (c : MacroCheckpoint) (call : NodeCall) : Bool :=
  match call.event with
  | some (.certifiedVertexReceived cv) =>
    decide (call.pre.macros.nextHeight = c.height) && (activeSet call.ctx).isOk &&
      decide (1 ≤ closings call.pre.cfg.macroFin.macroWindowW call.pre.macros.microRing.length
        (freshMicroQcs cr call cv).length)
  | some (.macroProposalReceived p) =>
    accepts cr call.pre.cfg call.ctx p call.pre.macros &&
      decide (p.checkpoint.height = c.height) && decide (p.checkpoint ≠ c)
  | _ => false

section Slot
variable {cr : Crypto} {call : NodeCall} {c : MacroCheckpoint}

/-- A partial is signed for a checkpoint that is a candidate when the call ends. -/
theorem exec_backed (h : VotedFor (StateMachine.exec cr call.input call.pre).signed c) :
    ∃ height : Height,
      (StateMachine.exec cr call.input call.pre).state.macros.candidate[height]? = some c := by
  cases exec_runs cr call with
  | inl hskip => exact absurd (hskip.2 _ h) (by simp [Dst.isMacro])
  | inr hrun =>
    obtain ⟨f, hf, hstate, hsigned⟩ := hrun
    have hvote : VotedFor (f call.pre.macros).signed c := hsigned _ h rfl
    rw [hstate]
    cases hf with
    | micro cv acts hev hacts =>
      exact absurd rfl ((onLocalMicroQcs_feeds acts call.pre.macros).noVote _ hvote)
    | proposal p hev =>
      cases onMacroProposal_effect cr call.pre.cfg call.ctx p call.pre.macros with
      | inl hspares => exact hspares.backed c hvote
      | inr hrevises => exact hrevises.1.backed c hvote
    | vote bp hev => exact (effect_keeps (onBlsPartial_effect cr _ _ bp _)).2.2 c hvote
    | aggregate a hev => exact (effect_keeps (onSubnetAggregate_effect cr _ _ a _)).2.2 c hvote
    | qc qc hev => exact (effect_keeps (onMacroQcReceived_effect cr _ _ qc _)).2.2 c hvote
    | timer id hev => exact (onTimerFired_spares cr _ _ id _).backed c hvote

/-- The slot of `c` keeps it through every call that does not displace it. -/
theorem slot_kept (hslot : call.pre.macros.candidate[c.height]? = some c)
    (hd : displaces cr c call = false) :
    (StateMachine.exec cr call.input call.pre).state.macros.candidate[c.height]? = some c := by
  cases exec_runs cr call with
  | inl hskip => rwa [hskip.1]
  | inr hrun =>
    obtain ⟨f, hf, hstate, -⟩ := hrun
    rw [hstate]
    cases hf with
    | micro cv acts hev hacts =>
      by_cases hnext : call.pre.macros.nextHeight = c.height
      · have hfresh : freshMicroQcs cr call cv = acts.filterMap microQcHash := by
          simp [freshMicroQcs, Outcome.actions, hacts]
        rw [onLocalMicroQcs_idle acts call.pre.macros ?_]
        · exact hslot
        · intro set hset
          have hidle := hd
          simp only [displaces, hev, hnext, hset, hfresh] at hidle
          simpa [Except.isOk, Except.toBool] using hidle
      · rw [(onLocalMicroQcs_feeds acts call.pre.macros).others _ (Ne.symm hnext)]
        exact hslot
    | proposal p hev =>
      cases onMacroProposal_effect cr call.pre.cfg call.ctx p call.pre.macros with
      | inl hspares => rwa [hspares.candidate]
      | inr hrevises =>
        rw [hrevises.1.candidate, Maps.get_insert]
        split
        · rename_i hheight
          simpa [displaces, hev, hrevises.2, hheight] using hd
        · exact hslot
    | vote bp hev =>
      rwa [(effect_keeps (onBlsPartial_effect cr _ _ bp _)).1, MacroBook.noting_candidate]
    | aggregate a hev => rwa [(effect_keeps (onSubnetAggregate_effect cr _ _ a _)).1]
    | qc qc hev => rwa [(effect_keeps (onMacroQcReceived_effect cr _ _ qc _)).1]
    | timer id hev =>
      rwa [(onTimerFired_spares cr _ _ id _).candidate, MacroBook.noting_candidate]

/-- The candidate of a voted height is the first that carries its hash. -/
theorem findCandidate_slot {log : List SignReq} {as : List Action} {book : MacroBook}
    (hinj : HashInjective cr) (hform : FormHistory cr log as book.core)
    (hslot : book.candidate[c.height]? = some c) :
    book.findCandidate c.hash = some (c.height, c) := by
  have hbuilt := hform.2.candidate c.height c hslot
  cases hfind : book.findCandidate c.hash with
  | none =>
    have hnone := List.find?_eq_none.mp hfind (c.height, c) ((Maps.mem_toList _ _ _).mpr hslot)
    simp at hnone
  | some e =>
    obtain ⟨height, q⟩ := e
    obtain ⟨hq, hhash⟩ := findCandidate_spec hfind
    have hother := hform.2.candidate height q hq
    rw [hhash] at hother
    have hheight := hother.height_unique hinj hbuilt
    subst hheight
    rw [hslot] at hq
    cases hq
    rfl

theorem slot_open {log : List SignReq} {as : List Action} {book : MacroBook}
    (hinj : HashInjective cr) (hform : FormHistory cr log as book.core)
    (hslot : book.candidate[c.height]? = some c)
    (hopen : ∀ cp ∈ persistedCheckpoints as, cp.height ≠ c.height) :
    c.hash ∉ book.emittedMacroQc := by
  intro hmem
  obtain ⟨hchain, -⟩ := hform.1
  obtain ⟨cp, hcp, hhash⟩ := List.mem_map.mp ((hchain.emitted c.hash).mp hmem)
  obtain ⟨k, hk⟩ := List.mem_iff_getElem?.mp hcp
  have hlt : k < (persistedCheckpoints as).length := (List.getElem?_eq_some_iff.mp hk).1
  have hnext : k < book.core.nextHeight := hchain.next ▸ hlt
  obtain ⟨q, hq⟩ := hchain.filled k hnext
  have hdone := hchain.done k q hq hnext
  rw [hk, Option.map_some, Option.some.injEq] at hdone
  -- both hashes were built for a height, so the heights are equal
  have hbuilt := hform.2.candidate k q hq
  rw [← hdone, hhash] at hbuilt
  have hheight := hbuilt.height_unique hinj (hform.2.candidate c.height c hslot)
  exact hopen cp hcp ((hchain.chain k cp hk).1.trans hheight)

theorem slot_adopts {cfg : Config} {ctx : HostContext} {set : ValidatorSet} {book : MacroBook}
    {qc : MacroQc} (hset : activeSet ctx = .ok set) (hqc : verifyMacroQc cr set qc c = true)
    (hnew : c.hash ∉ book.emittedMacroQc)
    (hfind : book.findCandidate c.hash = some (c.height, c)) :
    Action.persistMacroQc qc ∈ (onMacroQcReceived cr cfg ctx qc book).actions := by
  have hhash : qc.checkpointHash = c.hash := verifyMacroQc_hash hqc
  obtain ⟨-, acts, hacts⟩ := settleFinality_spares cfg
    (adoptCheckpoint c.height c qc (book.signersOf qc.checkpointHash) book)
  unfold onMacroQcReceived
  rw [hhash, if_neg hnew, hset]
  dsimp only
  rw [hfind]
  dsimp only
  rw [hqc, ← hhash, Outcome.andThen_of_ok rfl]
  simp only [Outcome.ok_state, Outcome.actions, hacts, Except.map]
  exact List.mem_append_left _ (by simp [adoptionActions])

end Slot

/-- In every run, a node that has sent its partial on `c` and adopted nothing at its height
adopts every valid QC for `c`, if no call since the vote has displaced `c`. -/
theorem vote_honoured (cr : Crypto) (hinj : HashInjective cr) (cfg : Config) (self : ValidatorId)
    (before after : List StateMachine.Input) (vote : StateMachine.Input) (c : MacroCheckpoint)
    (hvote : SendsPartial cr ⟨StateMachine.reached cr cfg self before, vote⟩ c)
    (hopen : ∀ cp ∈ persistedCheckpoints
      (StateMachine.actions cr cfg self (before ++ vote :: after)), cp.height ≠ c.height)
    (hgood : ∀ call ∈ Trace.calls (StateMachine.exec cr)
      (StateMachine.reached cr cfg self (before ++ [vote])) after, displaces cr c call = false)
    (ctx : HostContext) (set : ValidatorSet) (hset : activeSet ctx = .ok set) (qc : MacroQc)
    (hqc : verifyMacroQc cr set qc c = true) :
    Action.persistMacroQc qc ∈ (StateMachine.exec cr (.event (.macroQcReceived qc), ctx)
      (StateMachine.reached cr cfg self (before ++ vote :: after))).actions := by
  have hsplit : before ++ vote :: after = (before ++ [vote]) ++ after := by simp
  have hvoted : (StateMachine.reached cr cfg self (before ++ [vote])).macros.candidate[c.height]? =
      some c := by
    obtain ⟨height, hslot⟩ := exec_backed hvote.1
    rw [StateMachine.reached, Trace.final_append]
    have hchain := (run_chain cr cfg self (before ++ [vote])).1
    rw [StateMachine.reached, Trace.final_append] at hchain
    have hheight := (hchain.height height c hslot).1
    exact hheight ▸ hslot
  have hslot : (StateMachine.reached cr cfg self
      (before ++ vote :: after)).macros.candidate[c.height]? = some c := by
    rw [hsplit, StateMachine.reached, Trace.final_append]
    exact Trace.invariant (StateMachine.exec cr) (fun call => displaces cr c call = false)
      (fun _ sm => sm.macros.candidate[c.height]? = some c) _ hvoted
      (fun _ sm i hs hd => @slot_kept cr ⟨sm, i⟩ c hs hd) after hgood
  have hform := run_form cr cfg self (before ++ vote :: after)
  rw [← persistedCheckpoints_adoptionsIn] at hopen
  exact slot_adopts hset hqc (slot_open hinj hform hslot hopen)
    (findCandidate_slot hinj hform hslot)

section Devnet
open Devnet

instance (log : List SignReq) (cp : MacroCheckpoint) : Decidable (VotedFor log cp) :=
  inferInstanceAs (Decidable (_ ∈ log))

theorem sendsPartial_a0 : SendsPartial openCrypto
    ⟨StateMachine.reached openCrypto config ⟨2⟩ (script 2 [closesWave 1]),
      (.event (proposal 0 a0).2, ports 2 0)⟩ a0 :=
  ⟨by decide, ⟨0, ⟨2⟩, a0.hash, sigOf ⟨2⟩⟩, by decide, rfl⟩

theorem vote_honoured_devnet : Action.persistMacroQc (qcBy [1, 2, 3] a0.hash) ∈
    (StateMachine.exec openCrypto
      (.event (.macroQcReceived (qcBy [1, 2, 3] a0.hash)), ports 2 0)
      (StateMachine.reached openCrypto config ⟨2⟩ (script 2 [closesWave 1] ++
        (.event (proposal 0 a0).2, ports 2 0) :: script 2 [partialOn 1 a0.hash]))).actions := by
  refine vote_honoured openCrypto (hashInjective _) config ⟨2⟩ _ _ _ a0 sendsPartial_a0 ?_ ?_
    (ports 2 0) validators rfl _ ?_
  · decide
  · decide
  · decide

/-- The next window closes after the vote: the valid QC of the vote is dropped, although
nothing has been adopted at its height. -/
theorem vote_displaced :
    SendsPartial openCrypto ⟨StateMachine.reached openCrypto config ⟨2⟩ (script 2 [closesWave 1]),
        (.event (proposal 0 a0).2, ports 2 0)⟩ a0 ∧
      persistedCheckpoints (StateMachine.actions openCrypto config ⟨2⟩
        (script 2 [closesWave 1, proposal 0 a0, closesWave 2])) = [] ∧
      activeSet (ports 2 9) = .ok validators ∧
      verifyMacroQc openCrypto validators (qcBy [1, 2, 3] a0.hash) a0 = true ∧
      Action.persistMacroQc (qcBy [1, 2, 3] a0.hash) ∉
        (StateMachine.exec openCrypto
          (.event (.macroQcReceived (qcBy [1, 2, 3] a0.hash)), ports 2 9)
          (StateMachine.reached openCrypto config ⟨2⟩
            (script 2 [closesWave 1, proposal 0 a0, closesWave 2]))).actions := by
  exact ⟨sendsPartial_a0, by decide, rfl, by decide, by decide⟩

end Devnet
end LuaDag
