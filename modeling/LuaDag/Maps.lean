import Mathlib.Order.Lattice
import Mathlib.Order.Compare
import Mathlib.Data.Finset.Card
import Std.Data.TreeMap

/-! Ordered maps over a linear order: lookups after an update, and searches by value
in key order. General library. -/
namespace Maps
variable {α β : Type} [LinearOrder α]

@[simp] theorem get_insert (m : Std.TreeMap α β) (k a : α) (v : β) :
    (m.insert k v)[a]? = if k = a then some v else m[a]? := by
  rw [Std.TreeMap.getElem?_insert]
  simp only [compare_eq_iff_eq]

@[simp] theorem get_erase (m : Std.TreeMap α β) (k a : α) :
    (m.erase k)[a]? = if k = a then none else m[a]? := by
  rw [Std.TreeMap.getElem?_erase]
  simp only [compare_eq_iff_eq]

/- An entry that is written again: the tree is the same, node for node. -/

theorem impl_insert_same {k : α} {v : β} {t : Std.DTreeMap.Internal.Impl α fun _ => β}
    (hb : t.Balanced) (h : Std.DTreeMap.Internal.Impl.Const.get? t k = some v) :
    t.insert! k v = t := by
  open Std.DTreeMap.Internal in
  induction t with
  | leaf => cases h
  | inner sz k' v' l r ihl ihr =>
    have hroot := (Impl.balanced_inner_iff.mp hb).2.2.1
    have hsame : Impl.balance! k' v' l r = .inner sz k' v' l r := by
      rw [← @Impl.balance_eq_balance! _ _ k' v' l r hb.left hb.right
        (Or.inl (Or.inr (Or.inr hroot)))]
      exact Impl.balance_eq_inner hb
    unfold Impl.insert!
    unfold Impl.Const.get? at h
    cases hc : compare k k' with
    | lt =>
      simp only [hc] at h ⊢
      rw [ihl hb.left h, Impl.balanceL!_eq_balance! hb.left hb.right (Or.inr (Or.inr hroot)), hsame]
    | gt =>
      simp only [hc] at h ⊢
      rw [ihr hb.right h, Impl.balanceR!_eq_balance! hb.left hb.right
        (Or.inr (Or.inr hroot.symm)), hsame]
    | eq =>
      simp only [hc, Option.some.injEq] at h ⊢
      rw [compare_eq_iff_eq.mp hc, h]

theorem insert_same {m : Std.TreeMap α β} {k : α} {v : β} : m.insert k v = m ↔ m[k]? = some v := by
  constructor
  · intro h
    rw [← h, get_insert, if_pos rfl]
  · intro h
    obtain ⟨⟨t, ht⟩⟩ := m
    have hsame : (Std.DTreeMap.Internal.Impl.insert k v t ht.balanced).impl = t := by
      rw [Std.DTreeMap.Internal.Impl.insert_eq_insert!]
      exact impl_insert_same ht.balanced h
    unfold Std.TreeMap.insert Std.DTreeMap.insert
    simp only [hsame]

theorem get_of_erase {m : Std.TreeMap α β} {k a : α} {v : β} (h : (m.erase k)[a]? = some v) :
    m[a]? = some v := by
  rw [get_erase] at h
  split at h
  · cases h
  · exact h

/-- What an insertion adds, by key and by value. -/
theorem get_of_insert {m : Std.TreeMap α β} {k a : α} {v w : β}
    (h : (m.insert k v)[a]? = some w) : (a = k ∧ w = v) ∨ m[a]? = some w := by
  rw [get_insert] at h
  split at h
  · rename_i hk
    cases h
    exact Or.inl ⟨hk.symm, rfl⟩
  · exact Or.inr h

theorem get_filter_iff {m : Std.TreeMap α β} {f : α → β → Bool} {k : α} {v : β} :
    (m.filter f)[k]? = some v ↔ m[k]? = some v ∧ f k v = true := by
  rw [Std.TreeMap.getElem?_filter', Option.filter_eq_some_iff]

theorem get_of_filter {m : Std.TreeMap α β} {f : α → β → Bool} {k : α} {v : β}
    (h : (m.filter f)[k]? = some v) : m[k]? = some v :=
  (get_filter_iff.mp h).1

theorem mem_toList (m : Std.TreeMap α β) (k : α) (v : β) :
    (k, v) ∈ m.toList ↔ m[k]? = some v :=
  Std.TreeMap.mem_toList_iff_getElem?_eq_some

theorem size_insert (m : Std.TreeMap α β) (k : α) (v : β) :
    (m.insert k v).size = if m[k]?.isSome = true then m.size else m.size + 1 := by
  rw [Std.TreeMap.size_insert, Std.TreeMap.contains_eq_isSome_getElem?]

theorem one_le_size_insert (m : Std.TreeMap α β) (k : α) (v : β) : 1 ≤ (m.insert k v).size := by
  rw [← Std.TreeMap.length_toList, Nat.one_le_iff_ne_zero, ne_eq, List.length_eq_zero_iff]
  have hmem := (mem_toList (m.insert k v) k v).mpr (by simp)
  exact List.ne_nil_of_mem hmem

theorem toList_singleton (k : α) (v : β) :
    ((∅ : Std.TreeMap α β).insert k v).toList = [(k, v)] := by
  have hlen : ((∅ : Std.TreeMap α β).insert k v).toList.length = 1 := by
    rw [Std.TreeMap.length_toList, Std.TreeMap.size_insert]
    simp
  obtain ⟨e, he⟩ := List.length_eq_one_iff.mp hlen
  have hmem := (mem_toList ((∅ : Std.TreeMap α β).insert k v) k v).mpr (by simp)
  rw [he, List.mem_singleton] at hmem
  rw [he, hmem]

theorem keys_lt (m : Std.TreeMap α β) : m.toList.Pairwise fun a b => a.1 < b.1 := by
  have h := Std.TreeMap.ordered_keys_toList (t := m)
  exact h.imp fun hlt => compare_lt_iff_lt.mp hlt

/- The values, in key order. -/

theorem values_eq (m : Std.TreeMap α β) : m.values = m.toList.map (·.2) := by
  have hfold : m.values = m.toList.foldr (fun e l => e.2 :: l) [] :=
    @Std.TreeMap.foldr_eq_foldr_toList α β compare m _ (fun _ v l => v :: l) []
  rw [hfold, List.map_eq_foldr]

theorem length_values (m : Std.TreeMap α β) : m.values.length = m.size := by
  rw [values_eq, List.length_map, Std.TreeMap.length_toList]

theorem mem_values {m : Std.TreeMap α β} {v : β} : v ∈ m.values ↔ ∃ k : α, m[k]? = some v := by
  rw [values_eq, List.mem_map]
  constructor
  · rintro ⟨e, he, rfl⟩
    exact ⟨e.1, (mem_toList m e.1 e.2).mp he⟩
  · rintro ⟨k, hk⟩
    exact ⟨(k, v), (mem_toList m k v).mpr hk, rfl⟩

/-- Values that occur under one key only are distinct. -/
theorem values_nodup {m : Std.TreeMap α β}
    (h : ∀ (a b : α) (v : β), m[a]? = some v → m[b]? = some v → a = b) : m.values.Nodup := by
  rw [values_eq, List.Nodup, List.pairwise_map]
  refine (keys_lt m).imp_of_mem ?_
  intro x y hx hy hlt heq
  have hx' := (mem_toList m x.1 x.2).mp hx
  have hy' := (mem_toList m y.1 y.2).mp hy
  rw [← heq] at hy'
  exact absurd (h _ _ _ hx' hy') (ne_of_lt hlt)

/-- A map whose entries are told apart by what lies in a finite set is no larger than it. -/
theorem size_le_card {γ : Type} [DecidableEq γ] (m : Std.TreeMap α β) (s : Finset γ) (f : α → γ)
    (hmem : ∀ (k : α) (v : β), m[k]? = some v → f k ∈ s)
    (hinj : ∀ (k k' : α) (v v' : β), m[k]? = some v → m[k']? = some v' → f k = f k' → k = k') :
    m.size ≤ s.card := by
  have hget : ∀ e ∈ m.toList, m[e.1]? = some e.2 := fun e he => (mem_toList m e.1 e.2).mp he
  have hnodup : (m.toList.map fun e => f e.1).Nodup := by
    rw [List.Nodup, List.pairwise_map]
    refine (keys_lt m).imp_of_mem ?_
    intro a b ha hb hlt heq
    exact absurd (hinj a.1 b.1 a.2 b.2 (hget a ha) (hget b hb) heq) (ne_of_lt hlt)
  have hsub : (m.toList.map fun e => f e.1).toFinset ⊆ s := by
    intro x hx
    obtain ⟨e, he, rfl⟩ := List.mem_map.mp (List.mem_toFinset.mp hx)
    exact hmem e.1 e.2 (hget e he)
  have hcard := Finset.card_le_card hsub
  rwa [List.toFinset_card_of_nodup hnodup, List.length_map, Std.TreeMap.length_toList] at hcard

/-- Keys that are present are no more than the entries. -/
theorem card_le_size (m : Std.TreeMap α β) (s : Finset α) (h : ∀ a ∈ s, m[a]?.isSome = true) :
    s.card ≤ m.size := by
  have hsub : s ⊆ (m.toList.map (·.1)).toFinset := by
    intro a ha
    obtain ⟨v, hv⟩ := Option.isSome_iff_exists.mp (h a ha)
    exact List.mem_toFinset.mpr (List.mem_map.mpr ⟨(a, v), (mem_toList m a v).mpr hv, rfl⟩)
  refine (Finset.card_le_card hsub).trans ((List.toFinset_card_le _).trans ?_)
  rw [List.length_map, Std.TreeMap.length_toList]

/-- A search in key order ends at an entry of the map. -/
theorem find_spec (m : Std.TreeMap α β) (p : α × β → Bool) (k : α) (v : β)
    (h : m.toList.find? p = some (k, v)) : m[k]? = some v ∧ p (k, v) = true :=
  ⟨(mem_toList m k v).mp (List.mem_of_find?_eq_some h), List.find?_some h⟩

/-- A search in reverse key order ends at the greatest matching key. -/
theorem find_reverse_spec (m : Std.TreeMap α β) (p : α × β → Bool) (k : α) (v : β)
    (h : m.toList.reverse.find? p = some (k, v)) :
    m[k]? = some v ∧ p (k, v) = true ∧
      ∀ (k' : α) (v' : β), m[k']? = some v' → p (k', v') = true → k' ≤ k := by
  have hmem := List.mem_of_find?_eq_some h
  refine ⟨(mem_toList m k v).mp (List.mem_reverse.mp hmem), List.find?_some h, ?_⟩
  intro k' v' hk' hp'
  rw [List.find?_eq_some_iff_append] at h
  obtain ⟨-, as, bs, heq, has⟩ := h
  have hin : (k', v') ∈ m.toList.reverse :=
    List.mem_reverse.mpr ((mem_toList m k' v').mpr hk')
  have hord : m.toList.reverse.Pairwise fun a b => b.1 < a.1 :=
    List.pairwise_reverse.mpr (keys_lt m)
  rw [heq] at hin hord
  obtain ⟨-, htail, -⟩ := List.pairwise_append.mp hord
  have hlater := (List.pairwise_cons.mp htail).1
  cases List.mem_append.mp hin with
  | inl hleft =>
    have := has (k', v') hleft
    simp [hp'] at this
  | inr hright =>
    cases List.mem_cons.mp hright with
    | inl hkv => exact le_of_eq (congrArg Prod.fst hkv)
    | inr hbs => exact le_of_lt (hlater (k', v') hbs)

/-- A map with two entries has one besides any given key. -/
theorem exists_other (m : Std.TreeMap α β) (a : α) (h : 2 ≤ m.size) :
    ∃ (k : α) (v : β), m[k]? = some v ∧ k ≠ a := by
  have hord := keys_lt m
  rw [← Std.TreeMap.length_toList] at h
  have hget := fun k v => (mem_toList m k v).mp
  match hl : m.toList, h with
  | x :: y :: rest, _ =>
    rw [hl] at hord hget
    have hlt : x.1 < y.1 := (List.pairwise_cons.mp hord).1 y (by simp)
    by_cases hx : x.1 = a
    · refine ⟨y.1, y.2, hget y.1 y.2 (by simp), ?_⟩
      rw [← hx]
      exact ne_of_gt hlt
    · exact ⟨x.1, x.2, hget x.1 x.2 (by simp), hx⟩

theorem exists_bound_list (es : List (Nat × β)) : ∃ n, ∀ e ∈ es, e.1 < n := by
  induction es with
  | nil => exact ⟨0, by simp⟩
  | cons e es ih =>
    obtain ⟨n, hn⟩ := ih
    refine ⟨max (e.1 + 1) n, ?_⟩
    intro e' he
    cases List.mem_cons.mp he with
    | inl heq =>
      subst heq
      omega
    | inr hes =>
      have := hn e' hes
      omega

theorem exists_bound (m : Std.TreeMap Nat β) :
    ∃ n, ∀ (k : Nat) (v : β), m[k]? = some v → k < n := by
  obtain ⟨n, hn⟩ := exists_bound_list m.toList
  exact ⟨n, fun k v hk => hn (k, v) ((mem_toList m k v).mpr hk)⟩

def index (key : β → α) (l : List β) : Std.TreeMap α β :=
  l.foldl (fun m x => m.insert (key x) x) ∅

theorem index_snoc (key : β → α) (l : List β) (x : β) :
    index key (l ++ [x]) = (index key l).insert (key x) x := by
  simp [index]

theorem get_index_none {key : β → α} {l : List β} {k : α} (h : k ∉ l.map key) :
    (index key l)[k]? = none := by
  induction l using List.reverseRecOn with
  | nil => simp [index]
  | append_singleton l x ih =>
    rw [List.map_append, List.mem_append, not_or] at h
    rw [index_snoc, get_insert, if_neg, ih h.1]
    intro heq
    exact h.2 (by simp [heq])

theorem get_index {key : β → α} {l : List β} (hkeys : (l.map key).Nodup) {x : β} (hx : x ∈ l) :
    (index key l)[key x]? = some x := by
  induction l using List.reverseRecOn with
  | nil => cases hx
  | append_singleton l y ih =>
    rw [List.map_append] at hkeys
    obtain ⟨hrest, -, hfresh⟩ := List.nodup_append.mp hkeys
    rw [index_snoc, get_insert]
    cases List.mem_append.mp hx with
    | inl hold =>
      have hne := hfresh _ (List.mem_map_of_mem hold) _ (List.mem_singleton_self _)
      rw [if_neg (Ne.symm hne), ih hrest hold]
    | inr hnew => rw [List.mem_singleton.mp hnew, if_pos rfl]

end Maps
