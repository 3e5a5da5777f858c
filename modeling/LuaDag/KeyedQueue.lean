import Mathlib.Data.Finset.Basic

/-! Queues in order of arrival that hold at most one item of a key: an item whose key is in the
queue is turned away. General library. -/

structure KeyedQueue {α κ : Type} [DecidableEq κ] (key : α → κ) where
  queue : List α
  ids : Finset κ
  ids_eq : ids = (queue.map key).toFinset
  nodup : (queue.map key).Nodup

namespace KeyedQueue
variable {α κ : Type} [DecidableEq κ] {key : α → κ}

def empty : KeyedQueue key := ⟨[], ∅, rfl, List.nodup_nil⟩

theorem mem_ids (q : KeyedQueue key) (k : κ) : k ∈ q.ids ↔ k ∈ q.queue.map key := by
  rw [q.ids_eq, List.mem_toFinset]

def enqueue (q : KeyedQueue key) (a : α) : Bool × KeyedQueue key :=
  if h : key a ∈ q.ids then (false, q)
  else (true, {
    queue := q.queue ++ [a]
    ids := insert (key a) q.ids
    ids_eq := by
      ext k
      rw [Finset.mem_insert, q.mem_ids, List.mem_toFinset, List.map_append, List.mem_append,
        List.map_singleton, List.mem_singleton, or_comm]
    nodup := by
      rw [q.mem_ids] at h
      rw [List.map_append, List.nodup_append]
      refine ⟨q.nodup, List.nodup_singleton _, ?_⟩
      intro x hx y hy
      rw [List.mem_singleton.mp hy]
      exact fun heq => h (heq ▸ hx) })

theorem eraseAll_queue (items : List α) :
    items.foldl (fun ids a => ids.erase (key a)) (items.map key).toFinset = ∅ := by
  have hall : ∀ (items : List α) (ids : Finset κ), ids ⊆ (items.map key).toFinset →
      items.foldl (fun ids a => ids.erase (key a)) ids = ∅ := by
    intro items
    induction items with
    | nil =>
      intro ids hids
      exact Finset.subset_empty.mp hids
    | cons a items ih =>
      intro ids hids
      refine ih _ ?_
      intro k hk
      obtain ⟨hne, hin⟩ := Finset.mem_erase.mp hk
      have hk := hids hin
      rw [List.map_cons, List.toFinset_cons] at hk
      exact (Finset.mem_insert.mp hk).resolve_left hne
  exact hall items _ subset_rfl

def drain (q : KeyedQueue key) : List α × KeyedQueue key :=
  (q.queue, {
    queue := []
    ids := q.queue.foldl (fun ids a => ids.erase (key a)) q.ids
    ids_eq := by
      rw [q.ids_eq, eraseAll_queue]
      rfl
    nodup := List.nodup_nil })

@[simp] theorem empty_queue : (empty : KeyedQueue key).queue = [] := rfl
@[simp] theorem drain_fst (q : KeyedQueue key) : q.drain.1 = q.queue := rfl
@[simp] theorem drain_queue (q : KeyedQueue key) : q.drain.2.queue = [] := rfl

theorem enqueue_queue (q : KeyedQueue key) (a : α) : (q.enqueue a).2.queue =
    if key a ∈ q.queue.map key then q.queue else q.queue ++ [a] := by
  unfold enqueue
  by_cases h : key a ∈ q.ids
  · rw [dif_pos h, if_pos ((q.mem_ids _).mp h)]
  · rw [dif_neg h, if_neg fun hin => h ((q.mem_ids _).mpr hin)]

/- What a queue holds after a number of arrivals. -/

def firsts (key : α → κ) : List α → List α
  | [] => []
  | a :: items => a :: (firsts key items).filter fun b => decide (key b ≠ key a)

theorem mem_firsts_keys (items : List α) (k : κ) :
    k ∈ (firsts key items).map key ↔ k ∈ items.map key := by
  induction items with
  | nil => rfl
  | cons a items ih =>
    rw [firsts, List.map_cons, List.map_cons, List.mem_cons, List.mem_cons]
    by_cases heq : k = key a
    · exact ⟨fun _ => Or.inl heq, fun _ => Or.inl heq⟩
    · refine or_congr_right (Iff.trans ?_ ih)
      simp only [List.mem_map, List.mem_filter, decide_eq_true_eq]
      constructor
      · rintro ⟨b, ⟨hb, -⟩, rfl⟩
        exact ⟨b, hb, rfl⟩
      · rintro ⟨b, hb, rfl⟩
        exact ⟨b, ⟨hb, heq⟩, rfl⟩

theorem firsts_nodup (items : List α) : ((firsts key items).map key).Nodup := by
  induction items with
  | nil => exact List.nodup_nil
  | cons a items ih =>
    rw [firsts, List.map_cons, List.nodup_cons]
    refine ⟨?_, ih.sublist (List.filter_sublist.map key)⟩
    intro hin
    obtain ⟨b, hb, heq⟩ := List.mem_map.mp hin
    exact of_decide_eq_true (List.mem_filter.mp hb).2 heq

theorem firsts_snoc (items : List α) (a : α) : firsts key (items ++ [a]) =
    if key a ∈ items.map key then firsts key items else firsts key items ++ [a] := by
  induction items with
  | nil => rfl
  | cons b items ih =>
    rw [List.cons_append, firsts, ih, List.map_cons]
    by_cases hb : key a = key b
    · rw [if_pos (List.mem_cons.mpr (Or.inl hb))]
      split
      · rfl
      · simp [firsts, hb]
    · by_cases hin : key a ∈ items.map key
      · rw [if_pos hin, if_pos (List.mem_cons_of_mem _ hin), firsts]
      · rw [if_neg hin, if_neg fun h => (List.mem_cons.mp h).elim hb hin, firsts]
        simp [hb]

theorem firsts_of_nodup {items : List α} (h : (items.map key).Nodup) :
    firsts key items = items := by
  induction items with
  | nil => rfl
  | cons a items ih =>
    rw [List.map_cons, List.nodup_cons] at h
    rw [firsts, ih h.2, List.filter_eq_self.mpr]
    intro b hb
    exact decide_eq_true fun heq => h.1 (heq ▸ List.mem_map_of_mem hb)

theorem enqueue_firsts {q : KeyedQueue key} {items : List α} (h : q.queue = firsts key items)
    (a : α) : (q.enqueue a).2.queue = firsts key (items ++ [a]) := by
  rw [enqueue_queue, firsts_snoc, h]
  refine if_congr ?_ rfl rfl
  rw [mem_firsts_keys]

end KeyedQueue
