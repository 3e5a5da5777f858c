import Mathlib.Data.Finset.Card
import Mathlib.Logic.Relation

/-! Breadth-first search over a successor function: a walk that records the order of
visits, and a search for a target. What they visit, that they end, and that they depend on
the successors of reachable nodes only. General library. -/
namespace Search
variable {α : Type} [DecidableEq α]

def push : List α → Finset α → List α → Finset α × List α
  | [], visited, queue => (visited, queue)
  | a :: as, visited, queue =>
    if a ∈ visited then push as visited queue
    else push as (insert a visited) (queue ++ [a])

section Loops
variable (next : α → List α)

def walk : Nat → Finset α → List α → List α → Option (List α)
  | _, _, [], order => some order
  | 0, _, _ :: _, _ => none
  | fuel + 1, visited, a :: queue, order =>
    walk fuel (push (next a) visited queue).1 (push (next a) visited queue).2 (order ++ [a])

def seek (target : α) : Nat → Finset α → List α → Option Bool
  | _, _, [] => some false
  | 0, _, _ :: _ => none
  | fuel + 1, visited, a :: queue =>
    if a = target then some true
    else seek target fuel (push (next a) visited queue).1 (push (next a) visited queue).2

abbrev Reach : α → α → Prop := Relation.ReflTransGen fun a b => b ∈ next a

end Loops

/- One expansion. -/

theorem mem_push_visited (as : List α) (visited : Finset α) (queue : List α) (b : α) :
    b ∈ (push as visited queue).1 ↔ b ∈ visited ∨ b ∈ as := by
  induction as generalizing visited queue with
  | nil => simp [push]
  | cons a as ih =>
    unfold push
    by_cases ha : a ∈ visited
    · rw [if_pos ha, ih, List.mem_cons]
      constructor
      · exact fun h => h.imp_right Or.inr
      · rintro (h | h | h)
        · exact Or.inl h
        · exact Or.inl (h ▸ ha)
        · exact Or.inr h
    · rw [if_neg ha, ih, List.mem_cons, Finset.mem_insert]
      tauto

theorem mem_push_queue (as : List α) (visited : Finset α) (queue : List α) (b : α) :
    b ∈ (push as visited queue).2 ↔ b ∈ queue ∨ (b ∈ as ∧ b ∉ visited) := by
  induction as generalizing visited queue with
  | nil => simp [push]
  | cons a as ih =>
    unfold push
    by_cases ha : a ∈ visited
    · rw [if_pos ha, ih, List.mem_cons]
      constructor
      · rintro (h | ⟨h, hv⟩)
        · exact Or.inl h
        · exact Or.inr ⟨Or.inr h, hv⟩
      · rintro (h | ⟨h | h, hv⟩)
        · exact Or.inl h
        · exact absurd (h ▸ ha) hv
        · exact Or.inr ⟨h, hv⟩
    · rw [if_neg ha, ih, List.mem_append, List.mem_singleton, List.mem_cons, Finset.mem_insert]
      by_cases hb : b = a
      · simp [hb, ha]
      · simp [hb]

theorem push_stale {as : List α} {visited : Finset α} (h : ∀ a ∈ as, a ∈ visited)
    (queue : List α) : push as visited queue = (visited, queue) := by
  induction as with
  | nil => rfl
  | cons a as ih =>
    unfold push
    rw [if_pos (h a (by simp))]
    exact ih fun b hb => h b (by simp [hb])

theorem push_card (as : List α) (visited : Finset α) (queue : List α) :
    (push as visited queue).1.card + queue.length =
      visited.card + (push as visited queue).2.length := by
  induction as generalizing visited queue with
  | nil => simp [push]
  | cons a as ih =>
    unfold push
    by_cases ha : a ∈ visited
    · rw [if_pos ha]
      exact ih visited queue
    · rw [if_neg ha]
      have h := ih (insert a visited) (queue ++ [a])
      rw [Finset.card_insert_of_notMem ha, List.length_append, List.length_singleton] at h
      omega

section Spec
variable {next : α → List α}

omit [DecidableEq α] in
theorem reach_of_step {a b : α} (h : b ∈ next a) {c : α} (hr : Reach next b c) : Reach next a c :=
  Relation.ReflTransGen.head h hr

/-- `done` has left the queue; all of it has been expanded. -/
structure Explored (next : α → List α) (done : α → Prop) (visited : Finset α)
    (queue : List α) : Prop where
  waiting : ∀ a ∈ visited, done a ∨ a ∈ queue
  queued : ∀ a ∈ queue, a ∈ visited
  closed : ∀ a, done a → ∀ b ∈ next a, b ∈ visited

theorem Explored.step {done : α → Prop} {visited : Finset α} {a : α} {queue : List α}
    (h : Explored next done visited (a :: queue)) :
    Explored next (fun b => done b ∨ b = a) (push (next a) visited queue).1
      (push (next a) visited queue).2 := by
  have hwait : ∀ b ∈ visited, (done b ∨ b = a) ∨ b ∈ queue := by
    intro b hv
    cases h.waiting b hv with
    | inl hd => exact Or.inl (Or.inl hd)
    | inr hq =>
      cases List.mem_cons.mp hq with
      | inl heq => exact Or.inl (Or.inr heq)
      | inr hin => exact Or.inr hin
  refine ⟨?_, ?_, ?_⟩
  · intro b hb
    rw [mem_push_queue]
    by_cases hv : b ∈ visited
    · exact (hwait b hv).imp_right Or.inl
    · have hn := ((mem_push_visited _ _ _ _).mp hb).resolve_left hv
      exact Or.inr (Or.inr ⟨hn, hv⟩)
  · intro b hb
    rw [mem_push_visited]
    cases (mem_push_queue _ _ _ _).mp hb with
    | inl hq => exact Or.inl (h.queued b (List.mem_cons_of_mem _ hq))
    | inr hn => exact Or.inr hn.1
  · intro b hb c hc
    rw [mem_push_visited]
    cases hb with
    | inl hd => exact Or.inl (h.closed b hd c hc)
    | inr heq =>
      subst heq
      exact Or.inr hc

omit [DecidableEq α] in
/-- Once the queue is empty, what was visited is closed under successors. -/
theorem Explored.reach {done : α → Prop} {visited : Finset α} (h : Explored next done visited [])
    {a b : α} (ha : done a) (hr : Reach next a b) : done b := by
  induction hr with
  | refl => exact ha
  | tail _ hstep ih =>
    cases h.waiting _ (h.closed _ ih _ hstep) with
    | inl hd => exact hd
    | inr hq => cases hq

theorem reach_of_push {visited : Finset α} {a : α} {queue : List α} {b : α}
    (hb : ∃ c ∈ (push (next a) visited queue).2, Reach next c b) :
    ∃ c ∈ a :: queue, Reach next c b := by
  obtain ⟨c, hc, hr⟩ := hb
  cases (mem_push_queue _ _ _ _).mp hc with
  | inl hq => exact ⟨c, List.mem_cons_of_mem _ hq, hr⟩
  | inr hn => exact ⟨a, by simp, reach_of_step hn.1 hr⟩

/- The walk. -/

theorem walk_sound {fuel : Nat} {visited : Finset α} {queue order o : List α}
    (hw : walk next fuel visited queue order = some o) :
    ∀ b ∈ o, b ∈ order ∨ ∃ a ∈ queue, Reach next a b := by
  induction fuel generalizing visited queue order with
  | zero =>
    cases queue with
    | nil =>
      cases hw
      exact fun b hb => Or.inl hb
    | cons a queue => cases hw
  | succ fuel ih =>
    cases queue with
    | nil =>
      cases hw
      exact fun b hb => Or.inl hb
    | cons a queue =>
      intro b hb
      cases ih hw b hb with
      | inl ho =>
        cases List.mem_append.mp ho with
        | inl hold => exact Or.inl hold
        | inr hnew =>
          rw [List.mem_singleton] at hnew
          exact Or.inr ⟨a, by simp, hnew ▸ Relation.ReflTransGen.refl⟩
      | inr hr => exact Or.inr (reach_of_push hr)

theorem walk_explored {fuel : Nat} {visited : Finset α} {queue order o : List α}
    (h : Explored next (· ∈ order) visited queue)
    (hw : walk next fuel visited queue order = some o) :
    (∃ visited', Explored next (· ∈ o) visited' []) ∧ ∀ a, a ∈ order ∨ a ∈ queue → a ∈ o := by
  induction fuel generalizing visited queue order with
  | zero =>
    cases queue with
    | nil =>
      cases hw
      exact ⟨⟨visited, h⟩, fun a ha => ha.resolve_right (by simp)⟩
    | cons a queue => cases hw
  | succ fuel ih =>
    cases queue with
    | nil =>
      cases hw
      exact ⟨⟨visited, h⟩, fun a ha => ha.resolve_right (by simp)⟩
    | cons a queue =>
      have hdone : (fun b => b ∈ order ∨ b = a) = (· ∈ order ++ [a]) := by
        funext b
        simp
      have hstep := h.step
      rw [hdone] at hstep
      obtain ⟨hend, hsub⟩ := ih hstep hw
      refine ⟨hend, ?_⟩
      intro b hb
      apply hsub
      rw [mem_push_queue, List.mem_append, List.mem_singleton]
      cases hb with
      | inl ho => exact Or.inl (Or.inl ho)
      | inr hq =>
        cases List.mem_cons.mp hq with
        | inl heq => exact Or.inl (Or.inr heq)
        | inr hin => exact Or.inr (Or.inl hin)

/-- The walk from `a` visits what can be reached from `a`. -/
theorem mem_walk {fuel : Nat} {a : α} {o : List α}
    (hw : walk next fuel {a} [a] [] = some o) (b : α) : b ∈ o ↔ Reach next a b := by
  have hinit : Explored next (· ∈ ([] : List α)) {a} [a] :=
    ⟨by simp, by simp, by simp⟩
  obtain ⟨⟨visited, hend⟩, hsub⟩ := walk_explored hinit hw
  constructor
  · intro hb
    obtain ⟨c, hc, hr⟩ := (walk_sound hw b hb).resolve_left (by simp)
    rwa [List.mem_singleton.mp hc] at hr
  · exact hend.reach (hsub a (by simp))

/-- Only the successors of what is reached matter, and no more room than is needed. -/
theorem walk_agree {next' : α → List α} {fuel fuel' : Nat} {visited : Finset α}
    {queue order o o' : List α}
    (hagree : ∀ a ∈ queue, ∀ b, Reach next a b → next b = next' b)
    (hw : walk next fuel visited queue order = some o)
    (hw' : walk next' fuel' visited queue order = some o') : o = o' := by
  induction fuel generalizing fuel' visited queue order with
  | zero =>
    cases queue with
    | nil =>
      cases fuel' <;> (cases hw; cases hw'; rfl)
    | cons a queue => cases hw
  | succ fuel ih =>
    cases queue with
    | nil =>
      cases fuel' <;> (cases hw; cases hw'; rfl)
    | cons a queue =>
      cases fuel' with
      | zero => cases hw'
      | succ fuel' =>
        have hnext : next a = next' a := hagree a (by simp) a Relation.ReflTransGen.refl
        unfold walk at hw hw'
        rw [← hnext] at hw'
        refine ih ?_ hw hw'
        intro b hb c hr
        obtain ⟨d, hd, hrd⟩ := reach_of_push ⟨b, hb, hr⟩
        exact hagree d hd c hrd

theorem walk_stale {fuel : Nat} {visited : Finset α} {queue order o : List α}
    (h : ∀ a ∈ queue, ∀ b ∈ next a, b ∈ visited)
    (hw : walk next fuel visited queue order = some o) : o = order ++ queue := by
  induction fuel generalizing queue order with
  | zero =>
    cases queue with
    | nil =>
      cases hw
      simp
    | cons a queue => cases hw
  | succ fuel ih =>
    cases queue with
    | nil =>
      cases hw
      simp
    | cons a queue =>
      unfold walk at hw
      rw [push_stale (h a (by simp))] at hw
      rw [ih (fun b hb => h b (by simp [hb])) hw]
      simp

theorem walk_extends {fuel : Nat} {visited : Finset α} {queue order o : List α}
    (hw : walk next fuel visited queue order = some o) : order <+: o := by
  induction fuel generalizing visited queue order with
  | zero =>
    cases queue with
    | nil =>
      cases hw
      exact List.prefix_refl _
    | cons a queue => cases hw
  | succ fuel ih =>
    cases queue with
    | nil =>
      cases hw
      exact List.prefix_refl _
    | cons a queue => exact (List.prefix_append order [a]).trans (ih hw)

/-- A walk begins with the node it starts from. -/
theorem walk_head {fuel : Nat} {a : α} {o : List α}
    (hw : walk next fuel {a} [a] [] = some o) : o.head? = some a := by
  cases fuel with
  | zero => cases hw
  | succ fuel =>
    obtain ⟨rest, rfl⟩ := @walk_extends _ _ next fuel _ _ ([] ++ [a]) o hw
    rfl

/- Room. -/

/-- A finite set that holds all that is visited. -/
structure Within (next : α → List α) (S visited : Finset α) (queue : List α) : Prop where
  closed : ∀ a ∈ S, ∀ b ∈ next a, b ∈ S
  visited : visited ⊆ S
  queue : ∀ a ∈ queue, a ∈ S

theorem Within.step {S visited : Finset α} {a : α} {queue : List α}
    (h : Within next S visited (a :: queue)) :
    Within next S (push (next a) visited queue).1 (push (next a) visited queue).2 := by
  refine ⟨h.closed, ?_, ?_⟩
  · intro b hb
    cases (mem_push_visited _ _ _ _).mp hb with
    | inl hv => exact h.visited hv
    | inr hn => exact h.closed a (h.queue a (by simp)) b hn
  · intro b hb
    cases (mem_push_queue _ _ _ _).mp hb with
    | inl hq => exact h.queue b (List.mem_cons_of_mem _ hq)
    | inr hn => exact h.closed a (h.queue a (by simp)) b hn.1

theorem push_room {as visited queue} {a : α} {n fuel : Nat}
    (hroom : (a :: queue).length + n ≤ visited.card + (fuel + 1)) :
    (push as visited queue).2.length + n ≤ (push as visited queue).1.card + fuel := by
  have hcard := push_card as visited queue
  rw [List.length_cons] at hroom
  omega

theorem walk_returns {S : Finset α} {fuel : Nat} {visited : Finset α} {queue order : List α}
    (h : Within next S visited queue) (hroom : queue.length + S.card ≤ visited.card + fuel) :
    ∃ o, walk next fuel visited queue order = some o := by
  induction fuel generalizing visited queue order with
  | zero =>
    cases queue with
    | nil => exact ⟨order, rfl⟩
    | cons a queue =>
      have hcard := Finset.card_le_card h.visited
      rw [List.length_cons] at hroom
      omega
  | succ fuel ih =>
    cases queue with
    | nil => exact ⟨order, rfl⟩
    -- one element leaves the queue, and what enters it becomes visited
    | cons a queue => exact ih h.step (push_room hroom)

theorem seek_returns {S : Finset α} {target : α} {fuel : Nat} {visited : Finset α}
    {queue : List α} (h : Within next S visited queue)
    (hroom : queue.length + S.card ≤ visited.card + fuel) :
    ∃ found, seek next target fuel visited queue = some found := by
  induction fuel generalizing visited queue with
  | zero =>
    cases queue with
    | nil => exact ⟨false, rfl⟩
    | cons a queue =>
      have hcard := Finset.card_le_card h.visited
      rw [List.length_cons] at hroom
      omega
  | succ fuel ih =>
    cases queue with
    | nil => exact ⟨false, rfl⟩
    | cons a queue =>
      unfold seek
      split
      · exact ⟨true, rfl⟩
      · exact ih h.step (push_room hroom)

/- The search for a target. -/

theorem seek_sound {target : α} {fuel : Nat} {visited : Finset α} {queue : List α}
    (hs : seek next target fuel visited queue = some true) :
    ∃ a ∈ queue, Reach next a target := by
  induction fuel generalizing visited queue with
  | zero => cases queue <;> cases hs
  | succ fuel ih =>
    cases queue with
    | nil => cases hs
    | cons a queue =>
      unfold seek at hs
      split at hs
      · rename_i heq
        exact ⟨a, by simp, heq ▸ Relation.ReflTransGen.refl⟩
      · exact reach_of_push (ih hs)

theorem seek_complete {target : α} {fuel : Nat} {visited : Finset α} {queue : List α}
    {done : α → Prop} (h : Explored next done visited queue) (hdone : ¬ done target)
    (hs : seek next target fuel visited queue = some false) :
    ∀ a, done a ∨ a ∈ queue → ¬ Reach next a target := by
  induction fuel generalizing visited queue done with
  | zero =>
    cases queue with
    | nil => exact fun a ha hr => hdone (h.reach (ha.resolve_right (by simp)) hr)
    | cons a queue => cases hs
  | succ fuel ih =>
    cases queue with
    | nil => exact fun a ha hr => hdone (h.reach (ha.resolve_right (by simp)) hr)
    | cons a queue =>
      unfold seek at hs
      split at hs
      · cases hs
      rename_i hne
      have hnot : ¬ (done target ∨ target = a) := by
        rintro (hd | heq)
        · exact hdone hd
        · exact hne heq.symm
      intro b hb
      refine ih h.step hnot hs b ?_
      rw [mem_push_queue]
      cases hb with
      | inl hd => exact Or.inl (Or.inl hd)
      | inr hq =>
        cases List.mem_cons.mp hq with
        | inl heq => exact Or.inl (Or.inr heq)
        | inr hin => exact Or.inr (Or.inl hin)

end Spec
end Search
