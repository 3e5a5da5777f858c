import LuaDag.MacroWindow
import LuaDag.Devnet

/-! The proposer schedule (`macro_fin::proposer`). A set of at least two validators has the two
lowest of them as its proposers, in whatever order it lists them; a smaller one has no schedule. -/
namespace LuaDag
open MacroFin

section Schedule
variable (cr : Crypto) (beacon : Hash32) (set : ValidatorSet) (height : Height)
  (reputation : ValidatorId → Reputation)

def slotOf (e : ValidatorEntry) : Nat ×ₗ ValidatorId :=
  toLex (cr.sortitionScore (macroSortitionBeta cr beacon height e.id) set.totalStake e.stake
    (reputation e.id), e.id)

structure LowestTwo (schedule : ProposerSchedule) : Prop where
  window : schedule.height = height
  primary : ∃ e ∈ set.entries, e.id = schedule.primary ∧ ∀ x ∈ set.entries,
    slotOf cr beacon set height reputation e ≤ slotOf cr beacon set height reputation x
  backup : ∃ e ∈ set.entries, e.id = schedule.backup ∧ ∀ x ∈ set.entries,
    x.id ≠ schedule.primary →
      slotOf cr beacon set height reputation e ≤ slotOf cr beacon set height reputation x
  apart : schedule.primary = schedule.backup → set.entries.length = 1

/-- The lowest two make the schedule, in any order of the entries. -/
def SchedulesLowest : Prop :=
  ∃ schedule, vrfSortition cr beacon set height reputation = .ok schedule ∧
    LowestTwo cr beacon set height reputation schedule ∧
    ∀ entries, entries.Perm set.entries →
      vrfSortition cr beacon { set with entries := entries } height reputation = .ok schedule

variable {cr beacon set height reputation}

theorem vrfSortition_perm {entries : List ValidatorEntry} (hperm : entries.Perm set.entries) :
    vrfSortition cr beacon { set with entries := entries } height reputation =
      vrfSortition cr beacon set height reputation := by
  let slots := fun es : List ValidatorEntry => es.map (slotOf cr beacon set height reputation)
  have hsorted : (slots entries).insertionSort (· ≤ ·) =
      (slots set.entries).insertionSort (· ≤ ·) := by
    refine List.Perm.eq_of_pairwise' (List.pairwise_insertionSort _ _)
      (List.pairwise_insertionSort _ _) ?_
    have hleft := List.perm_insertionSort (· ≤ ·) (slots entries)
    have hright := List.perm_insertionSort (· ≤ ·) (slots set.entries)
    exact (hleft.trans (hperm.map _)).trans hright.symm
  unfold slots slotOf at hsorted
  unfold vrfSortition
  dsimp only
  rw [hsorted]

theorem vrfSortition_lowest (hids : (set.entries.map (·.id)).Nodup) {schedule : ProposerSchedule}
    (h : vrfSortition cr beacon set height reputation = .ok schedule) :
    LowestTwo cr beacon set height reputation schedule := by
  let slot := slotOf cr beacon set height reputation
  have hperm := List.perm_insertionSort (· ≤ ·) (set.entries.map slot)
  have hordered := List.pairwise_insertionSort (· ≤ ·) (set.entries.map slot)
  unfold vrfSortition at h
  dsimp only at h
  split at h
  · rename_i a b rest hsort
    change (set.entries.map slot).insertionSort (· ≤ ·) = _ at hsort
    rw [hsort] at hperm hordered
    obtain ⟨hfirst, hrest⟩ := List.pairwise_cons.mp hordered
    obtain ⟨hsecond, -⟩ := List.pairwise_cons.mp hrest
    have hmem : ∀ {s}, s ∈ a :: b :: rest ↔ ∃ e ∈ set.entries, slot e = s := by
      intro s
      rw [hperm.mem_iff, List.mem_map]
    obtain ⟨ea, hea, rfl⟩ := hmem.mp List.mem_cons_self
    obtain ⟨eb, heb, rfl⟩ := hmem.mp (List.mem_cons_of_mem _ List.mem_cons_self)
    have hall : ∀ x ∈ set.entries, slot x = slot ea ∨ slot x = slot eb ∨ slot x ∈ rest := by
      intro x hx
      simpa using hmem.mpr ⟨x, hx, rfl⟩
    have hdistinct : ea.id ≠ eb.id := by
      have hnames := (hperm.map fun s => (ofLex s).2).nodup_iff.mpr (by
        rw [List.map_map]
        exact hids)
      exact fun heq => (List.nodup_cons.mp hnames).1 (by simp [slot, slotOf, heq])
    cases h
    refine ⟨rfl, ⟨ea, hea, rfl, ?_⟩, ⟨eb, heb, rfl, ?_⟩, ?_⟩
    · intro x hx
      obtain heq | heq | hin := hall x hx
      · exact heq.symm.le
      · exact (hfirst _ List.mem_cons_self).trans heq.symm.le
      · exact hfirst _ (List.mem_cons_of_mem _ hin)
    · intro x hx hne
      obtain heq | heq | hin := hall x hx
      · exact absurd (congrArg (fun s => (ofLex s).2) heq) hne
      · exact heq.symm.le
      · exact hsecond _ hin
    · exact fun heq => absurd heq hdistinct
  · cases h

end Schedule

/-- A set of different validators has its schedule exactly if there are two of them. -/
theorem vrf_sortition_iff (cr : Crypto) (beacon : Hash32) (set : ValidatorSet) (height : Height)
    (reputation : ValidatorId → Reputation) (hids : (set.entries.map (·.id)).Nodup) :
    SchedulesLowest cr beacon set height reputation ↔ 2 ≤ set.entries.length := by
  constructor
  · rintro ⟨schedule, hok, -⟩
    by_contra hshort
    obtain ⟨e, he⟩ := @vrfSortition_short cr set (by omega) beacon height reputation
    rw [he] at hok
    cases hok
  · intro hlen
    obtain ⟨schedule, hok⟩ := @vrfSortition_ok cr set beacon height reputation hlen
    refine ⟨schedule, hok, vrfSortition_lowest hids hok, ?_⟩
    intro entries hperm
    rw [vrfSortition_perm hperm, hok]

section Devnet
open Devnet

theorem vrf_sortition_devnet : SchedulesLowest openCrypto ⟨0⟩ validators 0 (fun _ => 0) :=
  (vrf_sortition_iff openCrypto ⟨0⟩ validators 0 (fun _ => 0) (by decide)).mpr (by decide)

/-- A validator alone. -/
theorem vrf_sortition_alone : let alone : ValidatorSet := ⟨0, [entry 0], 1⟩
    alone.entries ≠ [] ∧ (alone.entries.map (·.id)).Nodup ∧
      vrfSortition openCrypto ⟨0⟩ alone 0 (fun _ => 0) = .error (.panic "index out of bounds") ∧
      ¬ SchedulesLowest openCrypto ⟨0⟩ alone 0 (fun _ => 0) := by
  refine ⟨by decide, by decide, rfl, ?_⟩
  rintro ⟨schedule, hok, -⟩
  cases hok

end Devnet
end LuaDag
