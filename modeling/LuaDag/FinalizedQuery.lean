import LuaDag.MacroChain
import LuaDag.Maps
import LuaDag.Devnet

/-! The query for the latest finalized macro QC (`apps/node/src/query.rs`) over the rows that the
host has written (`action_applier`, `macro_store`). It scans a fixed range of heights for the
last one with a QC, so it answers with the tip of the chain where the tip is in range. -/
namespace LuaDag
open MacroFin

structure MacroRows where
  checkpoints : Std.TreeMap Height MacroCheckpoint := ∅
  qcs : Std.TreeMap Hash32 MacroQc := ∅

structure MacroReads where
  macroCheckpointAt : Height → Except Error (Option MacroCheckpoint)
  macroQcFor : Hash32 → Except Error (Option MacroQc)

namespace MacroRows

def apply (rows : MacroRows) : Action → MacroRows
  | .persistMacroCheckpoint cp =>
    { rows with checkpoints := rows.checkpoints.insert cp.height cp }
  | .persistMacroQc qc => { rows with qcs := rows.qcs.insert qc.checkpointHash qc }
  | _ => rows

def applied (acts : List Action) : MacroRows := acts.foldl apply {}

def reads (rows : MacroRows) : MacroReads where
  macroCheckpointAt := fun h => .ok rows.checkpoints[h]?
  macroQcFor := fun x => .ok rows.qcs[x]?

def FinalizedAt (rows : MacroRows) (h : Height) (qc : MacroQc) : Prop :=
  ∃ cp next, rows.checkpoints[h]? = some cp ∧ rows.qcs[cp.hash]? = some qc ∧
    rows.checkpoints[h + 1]? = some next ∧ (rows.qcs[next.hash]?).isSome ∧ next.parent = cp.hash

def IsLatestFinalized (rows : MacroRows) : Option MacroQc → Prop
  | none => ∀ h qc, ¬ rows.FinalizedAt h qc
  | some qc => ∃ h, rows.FinalizedAt h qc ∧ ∀ h' qc', rows.FinalizedAt h' qc' → h' ≤ h

end MacroRows

def scanHeight (reads : MacroReads) (best : Option (Height × MacroQc)) (height : Height) :
    Except Error (Option (Height × MacroQc)) := do
  match ← reads.macroCheckpointAt height with
  | none => return best
  | some cp =>
    match ← reads.macroQcFor cp.hash with
    | none => return best
    | some qc => return if best.all fun b => decide (b.1 < height) then some (height, qc) else best

def latestFinalized (reads : MacroReads) : Except Error (Option MacroQc) := do
  let best ← (List.range 128).foldlM (scanHeight reads) none
  return best.map (·.2)

/- The rows of a run. -/

structure MacroRows.Hold (rows : MacroRows) (ps : List MacroCheckpoint) (qs : List MacroQc) :
    Prop where
  checkpoint : ∀ h : Height, rows.checkpoints[h]? = ps[h]?
  qc : ∀ (h : Height) (cp : MacroCheckpoint), ps[h]? = some cp → rows.qcs[cp.hash]? = qs[h]?
  chain : IsMacroChain ps
  length : qs.length = ps.length
  distinct : qs.Nodup

namespace MacroRows

theorem applied_rows (acts : List Action) : applied acts =
    ⟨Maps.index (·.height) (persistedCheckpoints acts),
      Maps.index (·.checkpointHash) (persistedQcs acts)⟩ := by
  induction acts using List.reverseRecOn with
  | nil => rfl
  | append_singleton acts a ih =>
    have hlast : applied (acts ++ [a]) = (applied acts).apply a := by simp [applied]
    rw [hlast, ih, persistedCheckpoints_append, persistedQcs_append]
    cases a with
    | persistMacroCheckpoint cp =>
      change _ = MacroRows.mk (Maps.index _ (_ ++ [cp])) (Maps.index _ (_ ++ []))
      rw [Maps.index_snoc, List.append_nil]
      rfl
    | persistMacroQc qc =>
      change _ = MacroRows.mk (Maps.index _ (_ ++ [])) (Maps.index _ (_ ++ [qc]))
      rw [Maps.index_snoc, List.append_nil]
      rfl
    | _ =>
      change _ = MacroRows.mk (Maps.index _ (_ ++ [])) (Maps.index _ (_ ++ []))
      rw [List.append_nil, List.append_nil]
      rfl

end MacroRows

theorem run_rows (cr : Crypto) (cfg : Config) (self : ValidatorId)
    (is : List StateMachine.Input) :
    let acts := StateMachine.actions cr cfg self is
    (MacroRows.applied acts).Hold (persistedCheckpoints acts) (persistedQcs acts) := by
  intro acts
  obtain ⟨hinv, hqcs⟩ := run_chain cr cfg self is
  rw [persistedCheckpoints_adoptionsIn] at hinv hqcs
  rw [persistedQcs_adoptionsIn] at hqcs
  have hdistinct : ((persistedQcs acts).map (·.checkpointHash)).Nodup := by
    rw [hqcs]
    exact hinv.distinct
  have hlength : (persistedQcs acts).length = (persistedCheckpoints acts).length := by
    simpa using congrArg List.length hqcs
  have hheights : (persistedCheckpoints acts).map (·.height) =
      List.range (persistedCheckpoints acts).length := by
    apply List.ext_getElem
    · simp
    · intro i hi _
      rw [List.getElem_map, List.getElem_range]
      exact (hinv.chain i _ (List.getElem?_eq_getElem (by simpa using hi))).1
  rw [MacroRows.applied_rows]
  refine ⟨?_, ?_, hinv.chain, hlength, hdistinct.of_map⟩
  · intro h
    cases hcp : (persistedCheckpoints acts)[h]? with
    | none =>
      refine Maps.get_index_none ?_
      rw [hheights, List.mem_range, Nat.not_lt]
      exact List.getElem?_eq_none_iff.mp hcp
    | some cp =>
      have hget := Maps.get_index (hheights ▸ List.nodup_range) (List.mem_of_getElem? hcp)
      rwa [(hinv.chain h cp hcp).1] at hget
  · intro h cp hcp
    have hlt : h < (persistedQcs acts).length := by
      rw [hlength]
      exact (List.getElem?_eq_some_iff.mp hcp).1
    have hqc := List.getElem?_eq_getElem hlt
    have hhash := congrArg (·[h]?) hqcs
    change ((persistedQcs acts).map _)[h]? = ((persistedCheckpoints acts).map _)[h]? at hhash
    simp only [List.getElem?_map, hcp, hqc, Option.map_some, Option.some.injEq] at hhash
    rw [← hhash, hqc]
    exact Maps.get_index hdistinct (List.getElem_mem hlt)

section Query
variable {rows : MacroRows} {ps : List MacroCheckpoint} {qs : List MacroQc}

theorem MacroRows.Hold.finalizedAt_iff (hrows : rows.Hold ps qs) (h : ℕ) (qc : MacroQc) :
    rows.FinalizedAt h qc ↔ h + 1 < qs.length ∧ qs[h]? = some qc := by
  constructor
  · rintro ⟨cp, next, hcp, hqc, hnext, -, -⟩
    rw [hrows.checkpoint] at hcp hnext
    rw [hrows.qc h cp hcp] at hqc
    rw [hrows.length]
    exact ⟨(List.getElem?_eq_some_iff.mp hnext).1, hqc⟩
  · rintro ⟨hlt, hqc⟩
    have hlt' : h + 1 < ps.length := hrows.length ▸ hlt
    have hbelow : h < ps.length := Nat.lt_of_succ_lt hlt'
    have hcp : ps[h]? = some ps[h] := List.getElem?_eq_getElem hbelow
    have hnext : ps[h + 1]? = some ps[h + 1] := List.getElem?_eq_getElem hlt'
    refine ⟨ps[h], ps[h + 1], ?_, ?_, ?_, ?_, ?_⟩
    · rw [hrows.checkpoint, hcp]
    · rw [hrows.qc h _ hcp, hqc]
    · rw [hrows.checkpoint, hnext]
    · rw [hrows.qc _ _ hnext, List.getElem?_eq_getElem hlt]
      rfl
    · have htip := (hrows.chain (h + 1) _ hnext).2
      rwa [List.take_add_one, hcp, Option.toList_some, tipHash_snoc] at htip

theorem MacroRows.Hold.scan (hrows : rows.Hold ps qs) (k : ℕ) :
    (List.range k).foldlM (scanHeight rows.reads) none =
      .ok ((qs.take k).getLast?.map fun qc => ((qs.take k).length - 1, qc)) := by
  induction k with
  | zero => rfl
  | succ k ih =>
    rw [List.range_succ, List.foldlM_append, ih]
    change (scanHeight rows.reads _ k >>= pure) = _
    rw [bind_pure, scanHeight, List.take_add_one]
    change (match rows.checkpoints[k]? with
      | none => _
      | some cp => _) = _
    rw [hrows.checkpoint]
    cases hcp : ps[k]? with
    | none =>
      have hnone : qs[k]? = none := by
        rw [List.getElem?_eq_none_iff, hrows.length]
        exact List.getElem?_eq_none_iff.mp hcp
      rw [hnone, Option.toList_none, List.append_nil]
      rfl
    | some cp =>
      have hlt : k < qs.length := by
        rw [hrows.length]
        exact (List.getElem?_eq_some_iff.mp hcp).1
      have hqc : rows.qcs[cp.hash]? = some qs[k] := by
        rw [hrows.qc k cp hcp, List.getElem?_eq_getElem hlt]
      have hlen : (qs.take k).length = k := List.length_take_of_le hlt.le
      have hbelow : ((qs.take k).getLast?.map fun qc => ((qs.take k).length - 1, qc)).all
          (fun b => decide (b.1 < k)) = true := by
        cases hlast : (qs.take k).getLast? with
        | none => rfl
        | some qc =>
          have hpos : 0 < k := by
            rw [← hlen]
            exact List.length_pos_iff.mpr fun hnil => by simp [hnil] at hlast
          simp only [Option.map_some, Option.all_some, hlen, decide_eq_true_eq]
          omega
      change (match rows.qcs[cp.hash]? with
        | none => _
        | some qc => _) = _
      rw [hqc, List.getElem?_eq_getElem hlt]
      dsimp only
      rw [if_pos hbelow, Option.toList_some, List.getLast?_concat, List.length_append, hlen]
      rfl

theorem MacroRows.Hold.latest (hrows : rows.Hold ps qs) :
    latestFinalized rows.reads = .ok (qs.take 128).getLast? := by
  rw [latestFinalized, hrows.scan]
  change Except.ok _ = Except.ok _
  rw [Option.map_map]
  simp

/-- The last QC in range is that of the greatest finalized height if there is none at all, or if
the chain ends right behind the range. -/
theorem MacroRows.Hold.isLatest_iff (hrows : rows.Hold ps qs) :
    rows.IsLatestFinalized (qs.take 128).getLast? ↔ qs.length = 0 ∨ qs.length = 129 := by
  have hfinal := hrows.finalizedAt_iff
  by_cases hempty : qs = []
  · subst hempty
    simp [MacroRows.IsLatestFinalized, hfinal]
  have hpos : 0 < qs.length := List.length_pos_iff.mpr hempty
  -- the height of the answer
  obtain ⟨top, htop⟩ : ∃ top, top = min qs.length 128 - 1 := ⟨_, rfl⟩
  have hbound : top < qs.length := by omega
  have hlast : (qs.take 128).getLast? = some qs[top] := by
    rw [List.getLast?_eq_getElem?, List.length_take, Nat.min_comm, ← htop,
      List.getElem?_take_of_lt (by omega), List.getElem?_eq_getElem hbound]
  rw [hlast]
  constructor
  · rintro ⟨h, hh, hmax⟩
    obtain ⟨hlt, hqc⟩ := (hfinal h _).mp hh
    have hheight : h = top := by
      rw [← List.getElem?_eq_getElem hbound] at hqc
      exact (List.getElem?_inj (Nat.lt_of_succ_lt hlt) hrows.distinct).mp hqc
    rw [hheight] at hlt
    have hnext : qs.length - 2 < qs.length := by omega
    have hle : qs.length - 2 ≤ h := hmax _ qs[qs.length - 2] ((hfinal _ _).mpr
      ⟨by omega, List.getElem?_eq_getElem hnext⟩)
    rw [hheight] at hle
    omega
  · intro hlength
    refine ⟨top, (hfinal _ _).mpr ⟨by omega, List.getElem?_eq_getElem hbound⟩, ?_⟩
    have hle : ∀ x : ℕ, x + 1 < qs.length → x ≤ top := by omega
    intro h qc hh
    exact hle h ((hfinal h qc).mp hh).1

end Query

/-- After a run the query gives the latest finalized QC exactly if nothing has been adopted, or
so many checkpoints that the last one in range is the last but one of all. -/
theorem latest_finalized_iff (cr : Crypto) (cfg : Config) (self : ValidatorId)
    (is : List StateMachine.Input) :
    let acts := StateMachine.actions cr cfg self is
    let rows := MacroRows.applied acts
    (∃ answer, latestFinalized rows.reads = .ok answer ∧ rows.IsLatestFinalized answer) ↔
      (persistedCheckpoints acts).length = 0 ∨ (persistedCheckpoints acts).length = 129 := by
  intro acts rows
  have hrows := run_rows cr cfg self is
  rw [← hrows.length, ← hrows.isLatest_iff, hrows.latest]
  constructor
  · rintro ⟨answer, hanswer, hlatest⟩
    rwa [Except.ok.inj hanswer]
  · exact fun h => ⟨_, rfl, h⟩

section Devnet
open Devnet

def twoAdoptions : List StateMachine.Input :=
  script 0 [closesWave 1, qcReceived [0, 1, 3] a0.hash, closesWave 2, qcReceived [0, 1, 3] a1.hash]

theorem latest_finalized_ahead :
    let rows := MacroRows.applied (StateMachine.actions openCrypto config ⟨0⟩ twoAdoptions)
    rows.IsLatestFinalized (some (qcBy [0, 1, 3] a0.hash)) ∧
      latestFinalized rows.reads = .ok (some (qcBy [0, 1, 3] a1.hash)) ∧
      ¬ rows.IsLatestFinalized (some (qcBy [0, 1, 3] a1.hash)) := by
  intro rows
  have hrows := run_rows openCrypto config ⟨0⟩ twoAdoptions
  have hqcs : persistedQcs (StateMachine.actions openCrypto config ⟨0⟩ twoAdoptions) =
      [qcBy [0, 1, 3] a0.hash, qcBy [0, 1, 3] a1.hash] := by decide
  have hfinal := hrows.finalizedAt_iff
  have hlatest := hrows.latest
  have hiff := hrows.isLatest_iff
  rw [hqcs] at hfinal hlatest hiff
  refine ⟨⟨0, (hfinal _ _).mpr ⟨by decide, rfl⟩, ?_⟩, hlatest, ?_⟩
  · intro h qc hh
    have hlt := ((hfinal h qc).mp hh).1
    exact Nat.le_of_lt_succ (Nat.lt_of_succ_lt_succ hlt)
  · exact fun h => absurd (hiff.mp h) (by decide)

end Devnet
end LuaDag
