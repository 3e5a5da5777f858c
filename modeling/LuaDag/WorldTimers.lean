import LuaDag.Monitor
import LuaDag.World
import LuaDag.Devnet

/-! Whose timers fire in a simulated world. The ledger says what each validator is owed, and reads
the journal of the world: every run whose timer events the shared queue can tell apart serves it,
and a run in which two validators wait for one id does not. -/
namespace LuaDag

structure Timer where
  owner : Nat
  id : TimerId
  due : Nat
deriving DecidableEq

/-- The timers that validators wait for, and those that were due when the host began and have not
fired. Cancelled ones are kept on record until their time is over. -/
structure Ledger where
  waiting : List Timer := []
  owed : List Timer := []
  lapsed : List Timer := []

namespace Ledger

/-- What a timer event means; `none` where it must not happen. A timer fires for its owner when it
was due and not cancelled, once, and before the host is done. -/
def serve (l : Ledger) : TimerEvent → Option Ledger
  | .scheduled owner id due => some { l with waiting := ⟨owner, id, due⟩ :: l.waiting }
  | .cancelled owner id => some {
      waiting := l.waiting.filter fun t => ¬ (t.owner = owner ∧ t.id = id)
      owed := l.owed.filter fun t => ¬ (t.owner = owner ∧ t.id = id)
      lapsed := (l.waiting.filter fun t => t.owner = owner ∧ t.id = id) ++ l.lapsed }
  | .begins now =>
    if l.owed = [] then some {
      waiting := l.waiting.filter fun t => now < t.due
      owed := l.waiting.filter fun t => t.due ≤ now
      lapsed := l.lapsed.filter fun t => now < t.due }
    else none
  | .fired validator id =>
    match l.owed.find? fun t => t.owner = validator ∧ t.id = id with
    | none => none
    | some t => some { l with owed := l.owed.erase t }
  | .ends => if l.owed = [] then some l else none

/-- What the shared queue of `n` validators can tell apart. An id is not scheduled again before
the time of a cancelled timer of that id is over; an id is cancelled where at most one timer waits
under it and is the validator's own, and none of its own is about to fire; and timers come due only
where there is one validator. -/
def Apart (n : Nat) (l : Ledger) : TimerEvent → Prop
  | .scheduled _ id _ => ∀ t ∈ l.lapsed, t.id ≠ id
  | .cancelled owner id =>
    (l.waiting.filter fun t => t.id = id).length ≤ 1 ∧
      (∀ t ∈ l.waiting, t.id = id → t.owner = owner) ∧
      ∀ t ∈ l.owed, ¬ (t.owner = owner ∧ t.id = id)
  | .begins now => n = 1 ∨ ∀ t ∈ l.waiting, now < t.due
  | .fired _ _ | .ends => True

instance (n : Nat) (l : Ledger) (e : TimerEvent) : Decidable (Apart n l e) := by
  cases e <;> unfold Apart <;> infer_instance

end Ledger

def Timer.entry (t : Timer) : Nat ×ₗ TimerId := toLex (t.due, t.id)

/-- The queue holds what the ledger has on record, cancelled ids belong to lapsed timers, and the
batch is what is owed. -/
structure Records (n : Nat) (timer : VirtualTimer) (batch : List (Nat × TimerId)) (l : Ledger) :
    Prop where
  sorted : timer.pending.Pairwise (· ≤ ·)
  pending : timer.pending.Perm ((l.waiting ++ l.lapsed).map Timer.entry)
  once : (l.lapsed.map Timer.id).Nodup
  lapsed : ∀ t ∈ l.lapsed, t.id ∈ timer.cancelled
  waiting : ∀ t ∈ l.waiting, t.id ∉ timer.cancelled
  owners : ∀ t ∈ l.waiting, t.owner < n
  owed : batch.Perm (l.owed.map fun t => (t.owner, t.id))

section Records
variable {n : Nat} {timer : VirtualTimer} {batch : List (Nat × TimerId)} {l : Ledger}

theorem Records.new (n : Nat) : Records n .new [] {} :=
  ⟨List.Pairwise.nil, List.Perm.refl _, List.nodup_nil, by simp, by simp, by simp,
    List.Perm.refl _⟩

theorem Records.schedule (h : Records n timer batch l) {owner : Nat} (howner : owner < n)
    {id : TimerId} (due : Nat) (hapart : l.Apart n (.scheduled owner id due)) :
    ∃ l', l.serve (.scheduled owner id due) = some l' ∧
      Records n (timer.schedule due id) batch l' := by
  refine ⟨_, rfl, ?_, ?_, h.once, ?_, ?_, ?_, h.owed⟩
  · exact List.Pairwise.orderedInsert _ _ h.sorted
  · have hnew : ((⟨owner, id, due⟩ :: l.waiting) ++ l.lapsed).map Timer.entry =
        toLex (due, id) :: (l.waiting ++ l.lapsed).map Timer.entry := rfl
    rw [hnew]
    exact (List.perm_orderedInsert (· ≤ ·) _ _).trans (h.pending.cons _)
  · intro t ht
    exact Finset.mem_erase.mpr ⟨hapart t ht, h.lapsed t ht⟩
  · intro t ht hmem
    obtain ⟨hne, hcancelled⟩ := Finset.mem_erase.mp hmem
    cases List.mem_cons.mp ht with
    | inl hnew => exact hne (by rw [hnew])
    | inr hold => exact h.waiting t hold hcancelled
  · intro t ht
    cases List.mem_cons.mp ht with
    | inl hnew => rwa [hnew]
    | inr hold => exact h.owners t hold

theorem nodup_of_length_le_one {α : Type} {l : List α} (h : l.length ≤ 1) : l.Nodup := by
  cases l with
  | nil => exact List.nodup_nil
  | cons a l =>
    have hnil : l = [] := List.eq_nil_of_length_eq_zero (by simpa using h)
    rw [hnil]
    exact List.nodup_singleton a

theorem Records.cancel (h : Records n timer batch l) {owner : Nat} {id : TimerId}
    (hapart : l.Apart n (.cancelled owner id)) :
    ∃ l', l.serve (.cancelled owner id) = some l' ∧
      Records n (timer.cancel id) batch l' := by
  obtain ⟨hone, hown, howed⟩ := hapart
  have hmine : ∀ t ∈ l.waiting, t.id = id ↔ t.owner = owner ∧ t.id = id := by
    intro t ht
    exact ⟨fun hid => ⟨hown t ht hid, hid⟩, fun hboth => hboth.2⟩
  have hfew : (l.waiting.filter fun t => t.owner = owner ∧ t.id = id).length ≤ 1 := by
    have hsame : (l.waiting.filter fun t => t.owner = owner ∧ t.id = id) =
        l.waiting.filter fun t => t.id = id :=
      List.filter_congr fun t ht => decide_eq_decide.mpr (hmine t ht).symm
    rwa [hsame]
  refine ⟨_, rfl, h.sorted, ?_, ?_, ?_, ?_, ?_, ?_⟩
  · refine h.pending.trans (List.Perm.map _ ?_)
    rw [← List.append_assoc]
    refine List.Perm.append_right _ ?_
    have hsplit := List.filter_append_perm (fun t : Timer => decide (t.owner = owner ∧ t.id = id))
      l.waiting
    refine hsplit.symm.trans (List.perm_append_comm.trans ?_)
    simp only [decide_not]
    exact List.Perm.refl _
  · rw [List.map_append]
    refine List.nodup_append.mpr ⟨nodup_of_length_le_one (by rwa [List.length_map]), h.once, ?_⟩
    intro i hi j hj heq
    obtain ⟨t, ht, rfl⟩ := List.mem_map.mp hi
    obtain ⟨u, hu, rfl⟩ := List.mem_map.mp hj
    exact h.waiting t (List.mem_of_mem_filter ht) (heq ▸ h.lapsed u hu)
  · intro t ht
    cases List.mem_append.mp ht with
    | inl hnew =>
      have hid := (of_decide_eq_true (List.mem_filter.mp hnew).2).2
      exact Finset.mem_insert.mpr (.inl hid)
    | inr hold => exact Finset.mem_insert_of_mem (h.lapsed t hold)
  · intro t ht hmem
    obtain ⟨hwaiting, hother⟩ := List.mem_filter.mp ht
    cases Finset.mem_insert.mp hmem with
    | inl hid => exact of_decide_eq_true hother ((hmine t hwaiting).mp hid)
    | inr hcancelled => exact h.waiting t hwaiting hcancelled
  · intro t ht
    exact h.owners t (List.mem_of_mem_filter ht)
  · have hall : (l.owed.filter fun t => ¬ (t.owner = owner ∧ t.id = id)) = l.owed :=
      List.filter_eq_self.mpr fun t ht => decide_eq_true (howed t ht)
    dsimp only
    rw [hall]
    exact h.owed

/- Draining. -/

theorem Records.count_id (h : Records n timer batch l) (id : TimerId) :
    (timer.pending.map fun e => (ofLex e).2).count id =
      (l.waiting.map Timer.id).count id + (l.lapsed.map Timer.id).count id := by
  rw [(h.pending.map _).count_eq, List.map_map, List.map_append, List.count_append]
  rfl

theorem Records.tidy (h : Records n timer batch l) :
    VirtualTimer.Tidy timer.pending timer.cancelled := by
  refine ⟨h.sorted, ?_⟩
  intro id hid
  have hnone : (l.waiting.map Timer.id).count id = 0 := by
    refine List.count_eq_zero.mpr ?_
    intro hmem
    obtain ⟨t, ht, rfl⟩ := List.mem_map.mp hmem
    exact h.waiting t ht hid
  rw [h.count_id, hnone, Nat.zero_add]
  exact List.nodup_iff_count_le_one.mp h.once id

theorem Records.out_perm (h : Records n timer batch l) (now : Nat) :
    (timer.drainDue now).1.Perm ((l.waiting.filter fun t => t.due ≤ now).map Timer.id) := by
  have hout := (@VirtualTimer.drainDue_popped now timer h.tidy).out
  rw [List.nil_append] at hout
  have hperm := (h.pending.filter fun e =>
    decide ((ofLex e).1 ≤ now ∧ (ofLex e).2 ∉ timer.cancelled)).map fun e => (ofLex e).2
  rw [← hout] at hperm
  refine hperm.trans ?_
  have hwaiting : l.waiting.filter (fun t => decide (t.due ≤ now ∧ t.id ∉ timer.cancelled)) =
      l.waiting.filter fun t => t.due ≤ now := by
    refine List.filter_congr ?_
    intro t ht
    simp [h.waiting t ht]
  have hlapsed : l.lapsed.filter (fun t => decide (t.due ≤ now ∧ t.id ∉ timer.cancelled)) = [] := by
    refine List.filter_eq_nil_iff.mpr ?_
    intro t ht
    simp [h.lapsed t ht]
  have hsplit : (((l.waiting ++ l.lapsed).map Timer.entry).filter fun e =>
      decide ((ofLex e).1 ≤ now ∧ (ofLex e).2 ∉ timer.cancelled)) =
        (l.waiting.filter fun t => t.due ≤ now).map Timer.entry := by
    rw [List.filter_map, List.filter_append]
    change (l.waiting.filter (fun t => decide (t.due ≤ now ∧ t.id ∉ timer.cancelled)) ++
      l.lapsed.filter fun t => decide (t.due ≤ now ∧ t.id ∉ timer.cancelled)).map _ = _
    rw [hwaiting, hlapsed, List.append_nil]
  rw [hsplit, List.map_map]
  exact List.Perm.refl _

def batchFor (n : Nat) (ids : List TimerId) : List (Nat × TimerId) :=
  ids.flatMap fun id => (List.range n).map fun idx => (idx, id)

/-- One validator gets what is due; where nothing is due, nobody gets anything. -/
theorem Records.batch_perm (h : Records n timer batch l) {now : Nat}
    (hapart : l.Apart n (.begins now)) :
    (batchFor n (timer.drainDue now).1).Perm
      ((l.waiting.filter fun t => t.due ≤ now).map fun t => (t.owner, t.id)) := by
  have hout := h.out_perm now
  cases hapart with
  | inl hone =>
    have hbatch : ∀ ids : List TimerId, batchFor 1 ids = ids.map fun id => (0, id) := by
      intro ids
      simp [batchFor, List.map_eq_flatMap]
    have howner : ((l.waiting.filter fun t => t.due ≤ now).map fun t => (t.owner, t.id)) =
        ((l.waiting.filter fun t => t.due ≤ now).map Timer.id).map fun id => (0, id) := by
      rw [List.map_map]
      refine List.map_congr_left ?_
      intro t ht
      have hlt := h.owners t (List.mem_of_mem_filter ht)
      have hzero : t.owner = 0 := by omega
      simp [hzero]
    rw [howner, hone, hbatch]
    exact hout.map _
  | inr hnone =>
    have hempty : (l.waiting.filter fun t => t.due ≤ now) = [] := by
      refine List.filter_eq_nil_iff.mpr ?_
      intro t ht
      simpa using hnone t ht
    rw [hempty] at hout ⊢
    rw [List.Perm.eq_nil hout]
    exact List.Perm.refl _

theorem Records.owed_nil (h : Records n timer [] l) : l.owed = [] :=
  List.map_eq_nil_iff.mp (List.Perm.nil_eq h.owed).symm

theorem Records.drain (h : Records n timer [] l) {now : Nat} (hapart : l.Apart n (.begins now)) :
    ∃ l', l.serve (.begins now) = some l' ∧
      Records n (timer.drainDue now).2 (batchFor n (timer.drainDue now).1) l' := by
  have hpopped := @VirtualTimer.drainDue_popped now timer h.tidy
  refine ⟨_, if_pos h.owed_nil, ?_, ?_, ?_, ?_, ?_, ?_, h.batch_perm hapart⟩
  · rw [hpopped.pending]
    exact h.sorted.filter _
  · rw [hpopped.pending]
    have hperm := h.pending.filter fun e => decide (now < (ofLex e).1)
    rwa [List.filter_map, List.filter_append] at hperm
  · exact h.once.sublist (List.filter_sublist.map _)
  · intro t ht
    obtain ⟨hmem, hlate⟩ := List.mem_filter.mp ht
    refine (hpopped.cancelled t.id).mpr ⟨h.lapsed t hmem, ?_⟩
    intro e he hdue heq
    obtain ⟨u, hu, rfl⟩ := List.mem_map.mp (h.pending.mem_iff.mp he)
    have hid : u.id = t.id := heq
    cases List.mem_append.mp hu with
    | inl hwaiting => exact h.waiting u hwaiting (hid ▸ h.lapsed t hmem)
    | inr hlapsed =>
      have hut : u = t := List.inj_on_of_nodup_map h.once hlapsed hmem hid
      have hlt : now < t.due := of_decide_eq_true hlate
      have hle : t.due ≤ now := hut ▸ hdue
      omega
  · intro t ht hmem
    exact h.waiting t (List.mem_of_mem_filter ht) ((hpopped.cancelled t.id).mp hmem).1
  · intro t ht
    exact h.owners t (List.mem_of_mem_filter ht)

theorem Records.fire {validator : Nat} {id : TimerId}
    (h : Records n timer ((validator, id) :: batch) l) :
    ∃ l', l.serve (.fired validator id) = some l' ∧ Records n timer batch l' := by
  have hmem : (validator, id) ∈ l.owed.map fun t => (t.owner, t.id) :=
    h.owed.mem_iff.mp (List.mem_cons_self ..)
  obtain ⟨u, hu, heq⟩ := List.mem_map.mp hmem
  cases hfind : l.owed.find? fun t => decide (t.owner = validator ∧ t.id = id) with
  | none =>
    have hnot := List.find?_eq_none.mp hfind u hu
    simp only [Prod.mk.injEq] at heq
    exact absurd (decide_eq_true heq) hnot
  | some t =>
    refine ⟨{ l with owed := l.owed.erase t }, ?_, h.sorted, h.pending, h.once, h.lapsed,
      h.waiting, h.owners, ?_⟩
    · simp only [Ledger.serve, hfind]
    · have hfound : t.owner = validator ∧ t.id = id := by simpa using List.find?_some hfind
      obtain ⟨howner, hid⟩ := hfound
      have hsplit := (List.perm_cons_erase (List.mem_of_find?_eq_some hfind)).map
        fun t : Timer => (t.owner, t.id)
      have hcons := h.owed.trans hsplit
      rw [List.map_cons, howner, hid] at hcons
      exact hcons.cons_inv

theorem Records.finish (h : Records n timer [] l) : l.serve .ends = some l :=
  if_pos h.owed_nil

end Records

/- The world. -/

/-- Not a timer. -/
def Event.Plain (e : Event) : Prop := ∀ id, e ≠ .timerFired id

theorem plain_of_wire {action : Action} {e : Event} (h : VirtualNet.wireEvent action = some e) :
    e.Plain := by
  intro id heq
  rw [heq] at h
  cases action <;> cases h

/-- The world of `n` validators whose bus carries no timers, with what the ledger has on record. -/
structure Settled {ρ : Type} (n : Nat) (batch : List (Nat × TimerId)) (w : SimWorld ρ)
    (l : Ledger) : Prop where
  machines : w.machines.length = n
  net : ∀ m ∈ w.net.pending, m.event.Plain
  records : Records n w.timer batch l

theorem Settled.set {ρ : Type} {n idx : Nat} {batch : List (Nat × TimerId)} {w : SimWorld ρ}
    {l : Ledger} (h : Settled n batch w l) (sm : StateMachine) :
    Settled n batch { w with machines := w.machines.set idx sm } l :=
  ⟨by rw [List.length_set, h.machines], h.net, h.records⟩

namespace SimWorld
variable {ρ : Type} {sim : Sim ρ} {n now idx : Nat} {batch : List (Nat × TimerId)} {w : SimWorld ρ}
  {l : Ledger}

abbrev Serves (n : Nat) (l : Ledger) (o : SimResult ρ) (Post : SimWorld ρ → Ledger → Prop) : Prop :=
  Monitor.Accepted Ledger.serve (Ledger.Apart n) l o Post

def Keeps (n : Nat) (batch : List (Nat × TimerId)) (f : SimWorld ρ → SimResult ρ) : Prop :=
  ∀ w l, Settled n batch w l → Serves n l (f w) (Settled n batch)

theorem Keeps.andThen {f g : SimWorld ρ → SimResult ρ} (hf : Keeps n batch f)
    (hg : Keeps n batch g) : Keeps n batch fun w => (f w).andThen g := by
  intro w l h
  exact (hf w l h).andThen fun l' h' => hg _ l' h'

theorem keeps_quiet : Keeps n batch (Outcome.quiet : SimWorld ρ → SimResult ρ) :=
  fun _ _ h => Monitor.Accepted.quiet h

theorem keeps_send {action : Action} : Keeps n batch (send sim idx action now) := by
  intro w l h
  unfold send
  split
  · exact Monitor.Accepted.fail _ _
  · rename_i net rng hsent
    refine Monitor.Accepted.quiet ⟨h.machines, ?_, h.records⟩
    intro m hm
    unfold VirtualNet.enqueueFromAction at hsent
    split at hsent
    · cases hsent
      exact h.net m hm
    · rename_i event hwire
      cases VirtualNet.sendToAll_adds hsent m hm with
      | inl hold => exact h.net m hold
      | inr hnew =>
        rw [hnew]
        exact plain_of_wire hwire

def Steps (n : Nat) (batch : List (Nat × TimerId))
    (stepV : Nat → Event → Nat → SimWorld ρ → SimResult ρ) : Prop :=
  ∀ idx (event : Event), event.Plain → ∀ now, Keeps n batch (stepV idx event now)

section Apply
variable {stepV : Nat → Event → Nat → SimWorld ρ → SimResult ρ}

theorem applyAction_keeps (hstep : Steps n batch stepV) (hidx : idx < n) (action : Action) :
    Keeps n batch (applyAction sim stepV idx now action) := by
  intro w l h
  cases action with
  | broadcastMacroProposal p =>
    unfold applyAction
    dsimp only
    split
    · exact Monitor.Accepted.quiet h
    · have hseen : Serves n l
          (if MacroFin.modeAActive (MacroFin.computeKe w.config w.machines.length) then
            stepV idx (.macroProposalReceived p) now w
          else .quiet w) (Settled n batch) := by
        split
        · exact hstep idx _ (by simp [Event.Plain]) now w l h
        · exact Monitor.Accepted.quiet h
      exact hseen.andThen fun l' h' => keeps_send _ l' h'
  | persistMacroQc qc =>
    unfold applyAction
    dsimp only
    split
    · exact Monitor.Accepted.quiet h
    · exact Monitor.Accepted.quiet ⟨h.machines, h.net, h.records⟩
  | scheduleTimer id delayNanos =>
    refine Monitor.Accepted.request ?_
    intro hapart
    obtain ⟨l', hserve, hrecords⟩ := h.records.schedule hidx _ hapart
    exact ⟨l', hserve, h.machines, h.net, hrecords⟩
  | cancelTimer id =>
    refine Monitor.Accepted.request ?_
    intro hapart
    obtain ⟨l', hserve, hrecords⟩ := h.records.cancel hapart
    exact ⟨l', hserve, h.machines, h.net, hrecords⟩
  | broadcastCertifiedVertex cv =>
    have hseen := hstep idx (.certifiedVertexReceived cv) (by simp [Event.Plain]) now
      { w with dag := w.dag.ingest cv } l ⟨h.machines, h.net, h.records⟩
    exact hseen.andThen fun l' h' => keeps_send _ l' h'
  | persistMacroCheckpoint cp => exact Monitor.Accepted.quiet h
  | updateBlobStatus blob status => exact Monitor.Accepted.quiet h
  | notifyInactivityLeak windows bps => exact Monitor.Accepted.quiet h
  | broadcastMicroQc qc => exact keeps_send w l h
  | broadcastBlsPartial bp => exact keeps_send w l h
  | broadcastSubnetAggregate a => exact keeps_send w l h
  | broadcastMacroQc qc => exact keeps_send w l h
  | emitSlashEvidence offender evidence => exact keeps_send w l h
  | broadcastVertexProposal p => exact keeps_send w l h
  | broadcastVertexPartial bp => exact keeps_send w l h

theorem applyActions_keeps (hstep : Steps n batch stepV) (hidx : idx < n) (actions : List Action) :
    Keeps n batch (applyActions sim stepV idx now actions) := by
  induction actions with
  | nil => exact keeps_quiet
  | cons action rest ih => exact (applyAction_keeps hstep hidx action).andThen ih

theorem enter_serves (hstep : Steps n batch stepV) (hidx : idx < n) {o : Result StateMachine}
    {journal : List TimerEvent}
    (h : Serves n l ⟨{ w with machines := w.machines.set idx o.state }, journal, .ok []⟩
      (Settled n batch)) :
    Serves n l (enter sim stepV idx o journal now w) (Settled n batch) := by
  refine h.andThen ?_
  intro l' h'
  split
  · exact Monitor.Accepted.fail _ _
  · exact applyActions_keeps hstep hidx _ _ l' h'

end Apply

theorem index_lt {n : Nat} {w : SimWorld ρ} (h : Settled n batch w l) {sm : StateMachine}
    (hsm : w.machines[idx]? = some sm) : idx < n := by
  obtain ⟨hlt, -⟩ := List.getElem?_eq_some_iff.mp hsm
  rwa [h.machines] at hlt

theorem firedTimer_plain {event : Event} (h : event.Plain) : firedTimer idx event = [] := by
  cases event with
  | timerFired id => exact absurd rfl (h id)
  | _ => rfl

theorem stepValidator_keeps (depth : Nat) : Steps n batch (stepValidator sim depth) := by
  induction depth with
  | zero => exact fun _ _ _ _ w l _ => Monitor.Accepted.fail w _
  | succ depth ih =>
    intro idx event hplain now w l h
    unfold stepValidator
    rw [firedTimer_plain hplain]
    split
    · exact Monitor.Accepted.quiet h
    split
    · exact Monitor.Accepted.fail _ _
    · rename_i sm hsm
      exact enter_serves ih (index_lt h hsm) (Monitor.Accepted.quiet (h.set _))

theorem stepValidator_fires (depth : Nat) {id : TimerId} (h : Settled n ((idx, id) :: batch) w l) :
    Serves n l (stepValidator sim depth idx (.timerFired id) now w) (Settled n batch) := by
  cases depth with
  | zero => exact Monitor.Accepted.fail w _
  | succ depth =>
    unfold stepValidator
    rw [if_neg (by simp [muted])]
    split
    · exact Monitor.Accepted.fail _ _
    · rename_i sm hsm
      refine enter_serves (stepValidator_keeps depth) (index_lt h hsm) ?_
      refine Monitor.Accepted.request ?_
      intro _
      obtain ⟨l', hserve, hrecords⟩ := h.records.fire
      exact ⟨l', hserve, (h.set _).machines, h.net, hrecords⟩

theorem stepEach_keeps {event : Event} (hplain : event.Plain) (idxs : List Nat) :
    Keeps n batch (stepEach sim event now idxs) := by
  induction idxs with
  | nil => exact keeps_quiet
  | cons idx rest ih => exact (stepValidator_keeps sim.depth idx event hplain now).andThen ih

theorem stepEach_fires {id : TimerId} {idxs : List Nat}
    (h : Settled n (idxs.map (fun idx => (idx, id)) ++ batch) w l) :
    Serves n l (stepEach sim (.timerFired id) now idxs w) (Settled n batch) := by
  induction idxs generalizing w l with
  | nil => exact Monitor.Accepted.quiet h
  | cons idx rest ih => exact (stepValidator_fires sim.depth h).andThen fun l' h' => ih h'

theorem fireAll_serves {ids : List TimerId} (h : Settled n (batchFor n ids) w l) :
    Serves n l (fireAll sim now ids w) (Settled n []) := by
  induction ids generalizing w l with
  | nil => exact Monitor.Accepted.quiet h
  | cons id rest ih =>
    have hbatch : Settled n ((List.range w.machines.length).map (fun idx => (idx, id)) ++
        batchFor n rest) w l := by
      rw [h.machines]
      exact h
    exact (stepEach_fires hbatch).andThen fun l' h' => ih h'

theorem drainTimersAndApply_keeps : Keeps n [] (drainTimersAndApply sim now) := by
  intro w l h
  have hdrained : Serves n l (⟨{ w with timer := (w.timer.drainDue now).2 }, [.begins now],
      .ok []⟩ : SimResult ρ) (Settled n (batchFor n (w.timer.drainDue now).1)) := by
    refine Monitor.Accepted.request ?_
    intro hapart
    obtain ⟨l', hserve, hrecords⟩ := h.records.drain hapart
    exact ⟨l', hserve, h.machines, h.net, hrecords⟩
  have hfired := hdrained.andThen fun l' h' => @fireAll_serves ρ sim n now _ l' _ h'
  refine hfired.andThen fun l' h' => Monitor.Accepted.request ?_
  exact fun _ => ⟨l', h'.records.finish, h'⟩

theorem deliver_keeps {msgs : List InFlight} (hplain : ∀ m ∈ msgs, m.event.Plain) :
    Keeps n batch (deliver sim now msgs) := by
  induction msgs with
  | nil => exact keeps_quiet
  | cons msg rest ih =>
    have hfirst := hplain msg (List.mem_cons_self ..)
    exact (stepValidator_keeps sim.depth msg.recipient msg.event hfirst now).andThen
      (ih fun m hm => hplain m (List.mem_cons_of_mem _ hm))

theorem drainNetAndApply_keeps : Keeps n batch (drainNetAndApply sim now) := by
  intro w l h
  refine deliver_keeps (fun m hm => h.net m (VirtualNet.mem_popDue (.inl hm))) _ l ?_
  exact ⟨h.machines, fun m hm => h.net m (VirtualNet.mem_popDue (.inr hm)), h.records⟩

theorem deliverVertices_keeps (cvs : List CertifiedVertex) :
    Keeps n batch (deliverVertices sim now cvs) := by
  induction cvs with
  | nil => exact keeps_quiet
  | cons cv rest ih =>
    intro w l h
    have hplain : Event.Plain (.certifiedVertexReceived cv) := by simp [Event.Plain]
    exact (stepEach_keeps hplain _ w l h).andThen fun l' h' => ih _ l' h'

theorem produceVertexTick_keeps : Keeps n batch (produceVertexTick sim now) := by
  intro w l h
  unfold produceVertexTick
  split
  · exact Monitor.Accepted.fail _ _
  split
  · exact Monitor.Accepted.fail _ _
  · exact deliverVertices_keeps _ _ l ⟨h.machines, h.net, h.records⟩

theorem genesisProposeAll_keeps (idxs : List Nat) :
    Keeps n batch (genesisProposeAll sim now idxs) := by
  induction idxs with
  | nil => exact keeps_quiet
  | cons idx rest ih =>
    have hfirst : Keeps n batch (genesisPropose sim now idx) := by
      intro w l h
      unfold genesisPropose
      split
      · exact Monitor.Accepted.fail _ _
      · rename_i sm hsm
        exact enter_serves (stepValidator_keeps sim.depth) (index_lt h hsm)
          (Monitor.Accepted.quiet (h.set _))
    exact hfirst.andThen ih

theorem vertexTick_keeps : Keeps n batch (vertexTick sim now) := by
  intro w l h
  unfold vertexTick
  split
  · split
    · exact genesisProposeAll_keeps _ w l h
    · exact Monitor.Accepted.quiet h
  · exact produceVertexTick_keeps w l h

theorem advance_keeps : Keeps n batch (advance : SimWorld ρ → SimResult ρ) := by
  intro w l h
  unfold advance
  dsimp only
  split
  · exact Monitor.Accepted.fail _ _
  · exact Monitor.Accepted.quiet ⟨h.machines, h.net, h.records⟩

theorem tickRound_keeps : Keeps n [] (tickRound sim) := by
  intro w l h
  have hnet := @drainNetAndApply_keeps ρ sim n w.clock []
  have hvertices := @vertexTick_keeps ρ sim n w.clock []
  have htimers := @drainTimersAndApply_keeps ρ sim n w.clock
  exact ((hnet.andThen hvertices).andThen htimers).andThen advance_keeps w l h

def Op.Plain : Op → Prop
  | .deliverProposal _ event _ => event.Plain
  | .enqueue msg => msg.event.Plain
  | _ => True

theorem exec_keeps {op : Op} (hop : op.Plain) : Keeps n [] (exec sim op) := by
  intro w l h
  cases op with
  | tickRound => exact tickRound_keeps w l h
  | deliverProposal recipient event now =>
    exact stepValidator_keeps sim.depth recipient event hop now w l h
  | enqueue msg =>
    refine Monitor.Accepted.quiet ⟨h.machines, ?_, h.records⟩
    intro m hm
    cases VirtualNet.mem_enqueue hm with
    | inl heq => exact heq ▸ hop
    | inr hold => exact h.net m hold
  | _ => exact Monitor.Accepted.quiet ⟨h.machines, h.net, h.records⟩

theorem run_keeps {ops : List Op} (hops : ∀ op ∈ ops, op.Plain) : Keeps n [] (run sim ops) := by
  induction ops with
  | nil => exact keeps_quiet
  | cons op rest ih =>
    exact (exec_keeps (hops op (List.mem_cons_self ..))).andThen
      (ih fun op' hop => hops op' (List.mem_cons_of_mem _ hop))

theorem settled_new (sim : Sim ρ) (n : Nat) (seed : ρ) (config : Config) :
    Settled n [] (SimWorld.new sim n seed config) {} :=
  ⟨by simp [SimWorld.new], by simp [SimWorld.new, VirtualNet.new], Records.new n⟩

/-- In every run of a world, with any number of validators, in which the scenario makes up no
timers and the shared queue can tell the timers apart at each of its calls, every timer fires for
its owner and for nobody else, once it is due, unless its owner has cancelled it, exactly once. -/
theorem timers_per_validator (sim : Sim ρ) (n : Nat) (seed : ρ) (config : Config) (ops : List Op)
    (hops : ∀ op ∈ ops, op.Plain)
    (hapart : Monitor.FairAll Ledger.serve (Ledger.Apart n) {}
      (run sim ops (SimWorld.new sim n seed config)).signed) :
    ∃ l, Monitor.serveAll Ledger.serve {} (run sim ops (SimWorld.new sim n seed config)).signed =
      some l := by
  obtain ⟨l, hserve, -⟩ := run_keeps hops _ _ (settled_new sim n seed config) hapart
  exact ⟨l, hserve⟩

end SimWorld

namespace Devnet
open SimWorld

def sim : Sim Unit where
  cr := openCrypto
  rng := ⟨fun p seed => (decide (0 < p), seed), fun _ seed => (0, seed)⟩
  ring := ⟨fun i => ⟨i⟩, fun _ => ⟨0⟩, fun i _ _ => sigOf ⟨i⟩, fun _ _ => (⟨0⟩, ⟨0⟩)⟩
  simVertexHash := fun round author => ⟨round * 2 ^ 256 + author.val + 1⟩
  beaconSeed := ⟨0⟩
  depth := 60

theorem timers_one_validator : ∃ l, Monitor.serveAll Ledger.serve {}
    (run sim [.tickRound, .tickRound]
      (SimWorld.new sim 1 () { config with bullshark := ⟨0, 2⟩ })).signed = some l :=
  timers_per_validator sim 1 () _ [.tickRound, .tickRound] (by simp [Op.Plain]) (by decide)

def splitInTwo : List Op :=
  [.enableDistributedVertices, .setPartition [0, 1] [2, 3], .tickRound, .tickRound]

/-- Each of them schedules timer 0 once, and gets it four times. -/
theorem timers_of_others :
    let journal := (run sim splitInTwo (SimWorld.new sim 4 () Config.defaultTable171)).signed
    journal.filter (fun e => e = .fired 0 0) = List.replicate 4 (.fired 0 0) ∧
      journal.filter (fun e => e = .scheduled 0 0 250000000) = [.scheduled 0 0 250000000] ∧
      ¬ ∃ l, Monitor.serveAll Ledger.serve {} journal = some l := by
  have hnone : (Monitor.serveAll Ledger.serve {} (run sim splitInTwo
      (SimWorld.new sim 4 () Config.defaultTable171)).signed).isSome = false := by
    decide
  refine ⟨by decide +kernel, by decide +kernel, ?_⟩
  intro ⟨l, hl⟩
  rw [hl] at hnone
  cases hnone

end Devnet
end LuaDag
