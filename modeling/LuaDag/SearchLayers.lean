import LuaDag.Search
import Mathlib.Data.List.Flatten
import Mathlib.Order.Lattice.Nat

/-! The layers of a breadth-first walk: what it visits comes by its distance from the start, and
each layer is what the successor lists of the layer before bring that is new. General library. -/
namespace Search
variable {α : Type} [DecidableEq α]

inductive Path (next : α → List α) : ℕ → α → α → Prop
  | refl (a : α) : Path next 0 a a
  | tail {n : ℕ} {a b c : α} (h : Path next n a b) (hstep : c ∈ next b) : Path next (n + 1) a c

noncomputable def dist (next : α → List α) (a b : α) : ℕ := sInf {n | Path next n a b}

def front (next : α → List α) (a : α) : ℕ → Finset α × List α
  | 0 => ({a}, [a])
  | d + 1 => push ((front next a d).2.flatMap next) (front next a d).1 []

def layer (next : α → List α) (a : α) (d : ℕ) : List α := (front next a d).2

def layersBelow (next : α → List α) (a : α) (d : ℕ) : List α :=
  (List.range d).flatMap (layer next a)

section Distance
variable {next : α → List α}
omit [DecidableEq α]

theorem Path.reach {n : ℕ} {a b : α} (h : Path next n a b) : Reach next a b := by
  induction h with
  | refl => exact Relation.ReflTransGen.refl
  | tail _ hstep ih => exact ih.tail hstep

theorem exists_path {a b : α} (h : Reach next a b) : ∃ n, Path next n a b := by
  induction h with
  | refl => exact ⟨0, .refl a⟩
  | tail _ hstep ih =>
    obtain ⟨n, hn⟩ := ih
    exact ⟨n + 1, hn.tail hstep⟩

theorem Path.dist_le {n : ℕ} {a b : α} (h : Path next n a b) : dist next a b ≤ n :=
  Nat.sInf_le h

theorem path_dist {a b : α} (h : Reach next a b) : Path next (dist next a b) a b :=
  Nat.sInf_mem (exists_path h)

theorem dist_self (a : α) : dist next a a = 0 :=
  Nat.le_zero.mp (Path.refl a).dist_le

theorem dist_zero_iff {a b : α} : b = a ↔ Reach next a b ∧ dist next a b = 0 := by
  constructor
  · intro hb
    rw [hb]
    exact ⟨Relation.ReflTransGen.refl, dist_self a⟩
  · intro h
    have hpath := path_dist h.1
    rw [h.2] at hpath
    cases hpath
    rfl

theorem dist_step {a b c : α} (h : Reach next a b) (hstep : c ∈ next b) :
    dist next a c ≤ dist next a b + 1 :=
  ((path_dist h).tail hstep).dist_le

theorem exists_before {a c : α} {d : ℕ} (h : Reach next a c) (hd : dist next a c = d + 1) :
    ∃ b, Reach next a b ∧ dist next a b = d ∧ c ∈ next b := by
  have hpath := path_dist h
  rw [hd] at hpath
  cases hpath with
  | @tail _ _ b _ hb hstep =>
    have hle := hb.dist_le
    have hge := dist_step hb.reach hstep
    exact ⟨b, hb.reach, by omega, hstep⟩

/-- The next distance: successors of what is at distance `d` that are not that near themselves. -/
theorem dist_succ_iff {a b : α} {d : ℕ} : Reach next a b ∧ dist next a b = d + 1 ↔
    (∃ c, (Reach next a c ∧ dist next a c = d) ∧ b ∈ next c) ∧
      ¬ (Reach next a b ∧ dist next a b ≤ d) := by
  constructor
  · intro h
    obtain ⟨c, hc, hd, hb⟩ := exists_before h.1 h.2
    exact ⟨⟨c, ⟨hc, hd⟩, hb⟩, fun hnear => by omega⟩
  · intro h
    obtain ⟨⟨c, ⟨hc, hd⟩, hb⟩, hfar⟩ := h
    have hreach : Reach next a b := hc.tail hb
    have hle := dist_step hc hb
    have hgt : ¬ dist next a b ≤ d := fun hnear => hfar ⟨hreach, hnear⟩
    exact ⟨hreach, by omega⟩

theorem path_congr {next' : α → List α} (hnext : ∀ a b, b ∈ next a ↔ b ∈ next' a) {n : ℕ}
    {a b : α} (h : Path next n a b) : Path next' n a b := by
  induction h with
  | refl => exact .refl _
  | tail _ hstep ih => exact ih.tail ((hnext _ _).mp hstep)

theorem dist_congr {next' : α → List α} (hnext : ∀ a b, b ∈ next a ↔ b ∈ next' a) (a b : α) :
    dist next a b = dist next' a b := by
  have hset : {n | Path next n a b} = {n | Path next' n a b} := by
    ext n
    exact ⟨path_congr hnext, path_congr fun a b => (hnext a b).symm⟩
  rw [dist, hset, dist]

end Distance

/- One layer. -/

theorem push_queue (as : List α) (visited : Finset α) (queue : List α) :
    push as visited queue = ((push as visited []).1, queue ++ (push as visited []).2) := by
  induction as generalizing visited queue with
  | nil => simp [push]
  | cons a as ih =>
    by_cases ha : a ∈ visited
    · simpa [push, ha] using ih visited queue
    · simp only [push, ha, if_false, List.nil_append]
      rw [ih (insert a visited) (queue ++ [a]), ih (insert a visited) [a]]
      simp

theorem push_append (as bs : List α) (visited : Finset α) (queue : List α) :
    push (as ++ bs) visited queue =
      push bs (push as visited queue).1 (push as visited queue).2 := by
  induction as generalizing visited queue with
  | nil => simp [push]
  | cons a as ih =>
    by_cases ha : a ∈ visited
    · simpa [push, ha] using ih visited queue
    · simpa [push, ha] using ih (insert a visited) (queue ++ [a])

theorem push_sublist (as : List α) (visited : Finset α) : (push as visited []).2.Sublist as := by
  induction as generalizing visited with
  | nil => simp [push]
  | cons a as ih =>
    by_cases ha : a ∈ visited
    · simpa [push, ha] using (ih visited).cons a
    · simp only [push, ha, if_false, List.nil_append]
      rw [push_queue]
      simpa using (ih (insert a visited)).cons_cons a

theorem push_nodup (as : List α) (visited : Finset α) : (push as visited []).2.Nodup := by
  induction as generalizing visited with
  | nil => simp [push]
  | cons a as ih =>
    by_cases ha : a ∈ visited
    · simpa [push, ha] using ih visited
    · simp only [push, ha, if_false, List.nil_append]
      rw [push_queue]
      have hnew : a ∉ (push as (insert a visited) []).2 := by
        simp [mem_push_queue]
      simpa [hnew] using ih (insert a visited)

theorem mem_pushed (as : List α) (visited : Finset α) (b : α) :
    b ∈ (push as visited []).2 ↔ b ∈ as ∧ b ∉ visited := by
  simp [mem_push_queue]

section Layers
variable {next : α → List α} {a : α}

theorem walk_layer (fuel : ℕ) (bs : List α) (visited : Finset α) (queue order : List α) :
    walk next (fuel + bs.length) visited (bs ++ queue) order =
      walk next fuel (push (bs.flatMap next) visited queue).1
        (push (bs.flatMap next) visited queue).2 (order ++ bs) := by
  induction bs generalizing visited queue order with
  | nil => simp [push]
  | cons b bs ih =>
    have hqueue : (push (next b) visited (bs ++ queue)).2 =
        bs ++ (push (next b) visited queue).2 := by
      rw [push_queue, push_queue (next b) visited queue, List.append_assoc]
    have hvisited : (push (next b) visited (bs ++ queue)).1 =
        (push (next b) visited queue).1 := by
      rw [push_queue, push_queue (next b) visited queue]
    rw [List.length_cons, ← Nat.add_assoc, List.cons_append, walk, hqueue, hvisited, ih,
      List.flatMap_cons, push_append, List.append_assoc]
    rfl

theorem walk_layers (d fuel : ℕ) :
    walk next (fuel + (layersBelow next a d).length) {a} [a] [] =
      walk next fuel (front next a d).1 (layer next a d) (layersBelow next a d) := by
  induction d generalizing fuel with
  | zero => simp [layersBelow, layer, front]
  | succ d ih =>
    have hsplit : layersBelow next a (d + 1) = layersBelow next a d ++ layer next a d := by
      simp [layersBelow, List.range_succ]
    have hlayer := @walk_layer _ _ next fuel (layer next a d) (front next a d).1 []
      (layersBelow next a d)
    rw [List.append_nil] at hlayer
    rw [hsplit, List.length_append, Nat.add_comm (layersBelow next a d).length, ← Nat.add_assoc,
      ih, hlayer]
    rfl

theorem mem_front (d : ℕ) :
    (∀ b, b ∈ (front next a d).1 ↔ Reach next a b ∧ dist next a b ≤ d) ∧
      ∀ b, b ∈ layer next a d ↔ Reach next a b ∧ dist next a b = d := by
  induction d with
  | zero =>
    constructor
    · intro b
      simpa [front] using dist_zero_iff
    · intro b
      simpa [layer, front] using dist_zero_iff
  | succ d ih =>
    have hnew : ∀ b, (b ∈ (layer next a d).flatMap next ∧ b ∉ (front next a d).1) ↔
        Reach next a b ∧ dist next a b = d + 1 := by
      intro b
      rw [dist_succ_iff, ih.1, List.mem_flatMap]
      simp only [ih.2]
    constructor
    · intro b
      have hor : b ∈ (front next a (d + 1)).1 ↔
          b ∈ (front next a d).1 ∨
            (b ∈ (layer next a d).flatMap next ∧ b ∉ (front next a d).1) := by
        simp only [front, mem_push_visited, layer]
        tauto
      rw [hor, hnew, ih.1, ← and_or_left, Nat.le_succ_iff]
    · intro b
      rw [← hnew, layer, front, mem_pushed]
      rfl

theorem mem_layer (d : ℕ) (b : α) :
    b ∈ layer next a d ↔ Reach next a b ∧ dist next a b = d :=
  (mem_front d).2 b

theorem layer_nodup (d : ℕ) : (layer next a d).Nodup := by
  cases d with
  | zero => simp [layer, front]
  | succ d => exact push_nodup _ _

theorem mem_layersBelow (d : ℕ) (b : α) :
    b ∈ layersBelow next a d ↔ Reach next a b ∧ dist next a b < d := by
  simp only [layersBelow, List.mem_flatMap, List.mem_range, mem_layer]
  constructor
  · intro h
    obtain ⟨i, hi, hreach, hd⟩ := h
    exact ⟨hreach, by omega⟩
  · intro h
    exact ⟨dist next a b, h.2, h.1, rfl⟩

/-- Distances do not decrease, and whatever holds along each layer holds at equal distances. -/
theorem pairwise_layersBelow {R : α → α → Prop} (d : ℕ) :
    (layersBelow next a d).Pairwise (fun x y => dist next a x ≤ dist next a y ∧
      (dist next a x = dist next a y → R x y)) ↔ ∀ i < d, (layer next a i).Pairwise R := by
  rw [layersBelow, List.pairwise_flatMap]
  constructor
  · intro h i hi
    refine (h.1 i (List.mem_range.mpr hi)).imp_of_mem ?_
    intro x y hx hy hxy
    exact hxy.2 (((mem_layer i x).mp hx).2.trans ((mem_layer i y).mp hy).2.symm)
  · intro h
    constructor
    · intro i hi
      refine (h i (List.mem_range.mp hi)).imp_of_mem ?_
      intro x y hx hy hxy
      have hx := ((mem_layer i x).mp hx).2
      have hy := ((mem_layer i y).mp hy).2
      exact ⟨by omega, fun _ => hxy⟩
    · refine List.pairwise_lt_range.imp ?_
      intro i j hij x hx y hy
      have hx := ((mem_layer i x).mp hx).2
      have hy := ((mem_layer j y).mp hy).2
      exact ⟨by omega, fun heq => by omega⟩

theorem layersBelow_nodup (d : ℕ) : (layersBelow next a d).Nodup := by
  have h := (@pairwise_layersBelow _ _ next a (· ≠ ·) d).mpr fun i _ => layer_nodup i
  refine h.imp ?_
  intro x y hxy heq
  exact hxy.2 (by rw [heq]) heq

theorem exists_layer_empty {S : Finset α} (hS : ∀ b, Reach next a b → b ∈ S) :
    ∃ d, layer next a d = [] := by
  by_contra hnone
  have hlong : ∀ d, d ≤ (layersBelow next a d).length := by
    intro d
    induction d with
    | zero => simp
    | succ d ih =>
      have hpos : 0 < (layer next a d).length :=
        List.length_pos_iff.mpr fun hempty => hnone ⟨d, hempty⟩
      simp only [layersBelow, List.range_succ, List.flatMap_append, List.length_append,
        List.flatMap_singleton] at ih ⊢
      omega
  have hsub : (layersBelow next a (S.card + 1)).toFinset ⊆ S := by
    intro b hb
    exact hS b ((mem_layersBelow _ b).mp (List.mem_toFinset.mp hb)).1
  have hcard := Finset.card_le_card hsub
  rw [List.toFinset_card_of_nodup (layersBelow_nodup _)] at hcard
  have := hlong (S.card + 1)
  omega

/-- The walk in closed form: it ends after as many turns as there are nodes to reach, with all
layers one after the other. -/
theorem walk_closed {S : Finset α} (hS : ∀ b, Reach next a b → b ∈ S) :
    ∃ d, (∀ i, d ≤ i → layer next a i = []) ∧
      ∀ fuel, (layersBelow next a d).length ≤ fuel →
        walk next fuel {a} [a] [] = some (layersBelow next a d) := by
  obtain ⟨d, hd⟩ := exists_layer_empty hS
  refine ⟨d, ?_, ?_⟩
  · intro i hi
    induction i, hi using Nat.le_induction with
    | base => exact hd
    | succ i _ ih =>
      have hnone : (front next a i).2 = [] := ih
      simp [layer, front, hnone, push]
  · intro fuel hfuel
    obtain ⟨extra, rfl⟩ := Nat.exists_eq_add_of_le' hfuel
    rw [walk_layers, hd]
    cases extra <;> rfl

end Layers

/- The order within a layer. -/

section Order
variable [LinearOrder α]

/-- Sorted lists that are merged one after the other come out sorted iff every element has come by
the time a greater one does. -/
theorem push_pairwise_lt {next : α → List α} (hnext : ∀ a, (next a).Pairwise (· ≤ ·))
    {bs : List α} (hbs : bs.Pairwise (· < ·)) (visited : Finset α) :
    (push (bs.flatMap next) visited []).2.Pairwise (· < ·) ↔
      ∀ x y, x ∉ visited → y ∉ visited → x ∈ bs.flatMap next → x < y →
        ∀ v ∈ bs, y ∈ next v → ∃ u ∈ bs, u ≤ v ∧ x ∈ next u := by
  induction bs generalizing visited with
  | nil => simp [push]
  | cons b bs ih =>
    have hlt : ∀ v ∈ bs, b < v := (List.pairwise_cons.mp hbs).1
    have hhead : (push (next b) visited []).2.Pairwise (· < ·) := by
      have hle := (hnext b).sublist (push_sublist (next b) visited)
      exact (hle.and (push_nodup (next b) visited)).imp fun h => lt_of_le_of_ne h.1 h.2
    rw [List.flatMap_cons, push_append, push_queue, List.pairwise_append,
      ih (List.pairwise_cons.mp hbs).2]
    simp only [mem_pushed, mem_push_visited, not_or, List.mem_append, List.mem_cons]
    constructor
    · intro h x y hx hy hin hxy v hv hyv
      obtain ⟨-, hrest, hcross⟩ := h
      by_cases hxb : x ∈ next b
      · refine ⟨b, Or.inl rfl, ?_, hxb⟩
        cases hv with
        | inl heq => exact le_of_eq heq.symm
        | inr hmem => exact le_of_lt (hlt v hmem)
      · have hxbs := hin.resolve_left hxb
        by_cases hyb : y ∈ next b
        · exact absurd (hcross y ⟨hyb, hy⟩ x ⟨hxbs, hx, hxb⟩) (not_lt.mpr hxy.le)
        · have hvbs := hv.resolve_left fun heq => hyb (heq ▸ hyv)
          obtain ⟨u, hu, huv, hxu⟩ := hrest x y ⟨hx, hxb⟩ ⟨hy, hyb⟩ hxbs hxy v hvbs hyv
          exact ⟨u, Or.inr hu, huv, hxu⟩
    · intro h
      refine ⟨hhead, ?_, ?_⟩
      · intro x y hx hy hin hxy v hv hyv
        obtain ⟨u, hu, huv, hxu⟩ := h x y hx.1 hy.1 (Or.inr hin) hxy v (Or.inr hv) hyv
        exact ⟨u, hu.resolve_left fun heq => hx.2 (heq ▸ hxu), huv, hxu⟩
      · intro y hy x hx
        by_contra hnot
        have hne : x ≠ y := fun heq => hx.2.2 (heq ▸ hy.1)
        have hxy : x < y := lt_of_le_of_ne (not_lt.mp hnot) hne
        obtain ⟨u, hu, hub, hxu⟩ := h x y hx.2.1 hy.2 (Or.inr hx.1) hxy b (Or.inl rfl) hy.1
        cases hu with
        | inl heq => exact hx.2.2 (heq ▸ hxu)
        | inr hmem => exact absurd (hlt u hmem) (not_lt.mpr hub)

/-- Of two nodes at one distance, the smaller one follows a node no greater than any the other
follows, among those one step nearer. -/
def LeastFirst (next : α → List α) (a : α) : Prop :=
  ∀ x y v, Reach next a x → Reach next a v → dist next a x = dist next a v + 1 →
    dist next a y = dist next a v + 1 → x < y → y ∈ next v →
      ∃ u, Reach next a u ∧ dist next a u = dist next a v ∧ u ≤ v ∧ x ∈ next u

/-- Every layer is sorted iff its nodes come by the order of the layer before. -/
theorem layers_sorted_iff {next : α → List α} (hnext : ∀ a, (next a).Pairwise (· ≤ ·)) (a : α) :
    (∀ d, (layer next a d).Pairwise (· < ·)) ↔ LeastFirst next a := by
  have hstep : ∀ d, (layer next a d).Pairwise (· < ·) →
      ((layer next a (d + 1)).Pairwise (· < ·) ↔
        ∀ x y v, Reach next a x → Reach next a v → dist next a v = d →
          dist next a x = d + 1 → dist next a y = d + 1 → x < y → y ∈ next v →
            ∃ u, Reach next a u ∧ dist next a u = d ∧ u ≤ v ∧ x ∈ next u) := by
    intro d hd
    have hpush := push_pairwise_lt hnext hd (front next a d).1
    change (push ((layer next a d).flatMap next) (front next a d).1 []).2.Pairwise (· < ·) ↔ _
    rw [hpush]
    simp only [(mem_front d).1, mem_layer, not_and, not_le]
    constructor
    · intro h x y v hx hv hdv hdx hdy hxy hyv
      obtain ⟨w, hw, hdw, hxw⟩ := exists_before hx hdx
      have hin : x ∈ (layer next a d).flatMap next :=
        List.mem_flatMap.mpr ⟨w, (mem_layer d w).mpr ⟨hw, hdw⟩, hxw⟩
      obtain ⟨u, hu, huv, hxu⟩ :=
        h x y (fun _ => by omega) (fun _ => by omega) hin hxy v ⟨hv, hdv⟩ hyv
      exact ⟨u, hu.1, hu.2, huv, hxu⟩
    · intro h x y hx hy hin hxy v hv hyv
      obtain ⟨w, hw, hxw⟩ := List.mem_flatMap.mp hin
      have hw := (mem_layer d w).mp hw
      have hxr : Reach next a x := hw.1.tail hxw
      have hyr : Reach next a y := hv.1.tail hyv
      have hdx := dist_step hw.1 hxw
      have hdy := dist_step hv.1 hyv
      have := hx hxr
      have := hy hyr
      obtain ⟨u, hu, hdu, huv, hxu⟩ := h x y v hxr hv.1 hv.2 (by omega) (by omega) hxy hyv
      exact ⟨u, ⟨hu, hdu⟩, huv, hxu⟩
  constructor
  · intro h x y v hx hv hdx hdy hxy hyv
    exact (hstep _ (h _)).mp (h _) x y v hx hv rfl hdx hdy hxy hyv
  · intro h d
    induction d with
    | zero => simp [layer, front]
    | succ d ih =>
      refine (hstep d ih).mpr ?_
      intro x y v hx hv hdv hdx hdy hxy hyv
      rw [← hdv] at hdx hdy ⊢
      exact h x y v hx hv hdx hdy hxy hyv

end Order
end Search
