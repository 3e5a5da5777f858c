import LuaDag.Gf256
import LuaDag.Elimination

/-! The matrices of the erasure codec: the Vandermonde matrix with its row numbers as points,
its systematic form, and the inversion by elimination, which fails on singular matrices and on
no others. -/
namespace LuaDag
namespace ReedSolomon
open Elimination

abbrev Rows := List (List Byte)

def cell (m : Rows) (i j : ℕ) : Byte := (m.getD i []).getD j 0

def tabulate (rows cols : ℕ) (f : ℕ → ℕ → Byte) : Rows :=
  (List.range rows).map fun i => (List.range cols).map fun j => f i j

def vandermonde (rows cols : ℕ) : Except ErasureError Rows :=
  (List.range rows).mapM fun r =>
    if r < 256 then .ok ((List.range cols).map fun c => Gf256.pow ⟨BitVec.ofNat 8 r⟩ c)
    else .error (.panic "row index fits u8")

def matMul (a b : Rows) : Rows :=
  tabulate a.length (b.getD 0 []).length fun i j =>
    (List.range b.length).foldl
      (fun sum t => Gf256.add sum (Gf256.mul (cell a i t) (cell b t j))) 0

def submatrix (mat : Rows) (rows : List ℕ) : Rows := rows.map fun r => mat.getD r []

def augment (mat : Rows) : Rows :=
  let n := mat.length
  tabulate n (2 * n) fun i j => if j < n then cell mat i j else if j = n + i then 1 else 0

def swapRows (m : Rows) (a b : ℕ) : Rows := (m.set a (m.getD b [])).set b (m.getD a [])

def findPivot (n : ℕ) (aug : Rows) (col : ℕ) : Option ℕ :=
  (List.range' col (n - col)).find? fun r => decide (cell aug r col ≠ 0)

def eliminateRow (col : ℕ) (aug : Rows) (i : ℕ) : Rows :=
  if i = col ∨ cell aug i col = 0 then aug
  else
    let factor := cell aug i col
    aug.set i (List.zipWith (fun x y => Gf256.add x (Gf256.mul factor y)) (aug.getD i [])
      (aug.getD col []))

def eliminateColumn (n : ℕ) (aug : Rows) (col : ℕ) : Except String Rows :=
  match findPivot n aug col with
  | none => .error "matrix is singular"
  | some pivot =>
    let aug := if pivot ≠ col then swapRows aug col pivot else aug
    let invPivot := Gf256.inv (cell aug col col)
    if invPivot = 0 then .error "matrix is singular"
    else
      let aug := aug.set col ((aug.getD col []).map fun x => Gf256.mul x invPivot)
      .ok ((List.range n).foldl (eliminateRow col) aug)

def invertMatrix (mat : Rows) : Except String Rows :=
  let n := mat.length
  if n = 0 ∨ ∃ row ∈ mat, row.length ≠ n then .error "matrix must be square"
  else
    match (List.range n).foldlM (eliminateColumn n) (augment mat) with
    | .error e => .error e
    | .ok aug => .ok ((List.range n).map fun i => (aug.getD i []).drop n)

def buildEncodingMatrix (n k : ℕ) : Except ErasureError Rows :=
  match vandermonde n k with
  | .error e => .error e
  | .ok v =>
    match invertMatrix (v.take k) with
    | .error e => .error (.codec e)
    | .ok inv => .ok (matMul v inv)

/- Cells. -/

structure Shaped (rows cols : ℕ) (m : Rows) : Prop where
  length : m.length = rows
  width : ∀ row ∈ m, row.length = cols

def toMatrix (rows cols : ℕ) (m : Rows) : Matrix (Fin rows) (Fin cols) Byte :=
  fun i j => cell m i j

section Cells
variable {rows cols : ℕ} {m : Rows}

theorem Shaped.row (h : Shaped rows cols m) {i : ℕ} (hi : i < rows) :
    (m.getD i []).length = cols := by
  rw [← h.length] at hi
  rw [List.getD_eq_getElem?_getD, List.getElem?_eq_getElem hi]
  exact h.width _ (List.getElem_mem hi)

theorem Shaped.set (h : Shaped rows cols m) (i : ℕ) {row : List Byte} (hrow : row.length = cols) :
    Shaped rows cols (m.set i row) := by
  refine ⟨by rw [List.length_set, h.length], ?_⟩
  intro r hr
  cases List.mem_or_eq_of_mem_set hr with
  | inl hold => exact h.width r hold
  | inr hnew => rw [hnew, hrow]

theorem cell_set {i : ℕ} (hi : i < m.length) (row : List Byte) (r j : ℕ) :
    cell (m.set i row) r j = if i = r then row.getD j 0 else cell m r j := by
  unfold cell
  rw [getD_set]
  by_cases heq : i = r
  · rw [if_pos ⟨heq, hi⟩, if_pos heq]
  · rw [if_neg (fun hc => heq hc.1), if_neg heq]

theorem getD_zipWith (f : Byte → Byte → Byte) {a b : List Byte} {j : ℕ} (ha : j < a.length)
    (hb : j < b.length) : (List.zipWith f a b).getD j 0 = f (a.getD j 0) (b.getD j 0) := by
  simp [List.getD_eq_getElem?_getD, ha, hb]

theorem getD_map (f : Byte → Byte) {a : List Byte} {j : ℕ} (ha : j < a.length) :
    (a.map f).getD j 0 = f (a.getD j 0) := by
  simp [List.getD_eq_getElem?_getD, ha]

theorem tabulate_shaped (rows cols : ℕ) (f : ℕ → ℕ → Byte) :
    Shaped rows cols (tabulate rows cols f) := by
  refine ⟨by simp [tabulate], ?_⟩
  intro row hrow
  obtain ⟨i, -, rfl⟩ := List.mem_map.mp hrow
  simp

theorem cell_tabulate {f : ℕ → ℕ → Byte} {i j : ℕ} (hi : i < rows) (hj : j < cols) :
    cell (tabulate rows cols f) i j = f i j := by
  simp [cell, tabulate, List.getD_eq_getElem?_getD, hi, hj]

/-- Matrices of one shape with the same cells are equal. -/
theorem Shaped.ext {m' : Rows} (h : Shaped rows cols m) (h' : Shaped rows cols m')
    (hcells : toMatrix rows cols m = toMatrix rows cols m') : m = m' := by
  refine List.ext_getElem (h.length.trans h'.length.symm) ?_
  intro i hi hi'
  have hw := h.width _ (List.getElem_mem hi)
  have hw' := h'.width _ (List.getElem_mem hi')
  refine List.ext_getElem (hw.trans hw'.symm) ?_
  intro j hj hj'
  have hcell := congrFun (congrFun hcells ⟨i, h.length ▸ hi⟩) ⟨j, hw ▸ hj⟩
  simpa [toMatrix, cell, List.getD_eq_getElem?_getD, hi, hi', hj, hj'] using hcell

end Cells
/- Elimination. -/

def left (n : ℕ) (aug : Rows) : Matrix (Fin n) (Fin n) Byte := toMatrix n n aug

def right (n : ℕ) (aug : Rows) : Matrix (Fin n) (Fin n) Byte := fun i j => cell aug i (n + j)

section Elimination
variable {n w : ℕ} {aug : Rows}

theorem swapRows_shaped (h : Shaped n w aug) {a b : ℕ} (ha : a < n) (hb : b < n) :
    Shaped n w (swapRows aug a b) :=
  (h.set a (h.row hb)).set b (h.row ha)

theorem cell_swapRows (h : Shaped n w aug) {a b : ℕ} (ha : a < n) (hb : b < n) (r j : ℕ) :
    cell (swapRows aug a b) r j =
      cell aug (if r = a then b else if r = b then a else r) j := by
  have hcell : ∀ i, (aug.getD i []).getD j 0 = cell aug i j := fun _ => rfl
  unfold swapRows
  rw [cell_set (by rw [List.length_set, h.length]; exact hb), cell_set (by rw [h.length]; exact ha),
    hcell, hcell]
  by_cases hra : r = a
  · subst hra
    by_cases hrb : b = r
    · rw [if_pos hrb, if_pos rfl, hrb]
    · rw [if_neg hrb, if_pos rfl, if_pos rfl]
  · by_cases hrb : r = b
    · rw [if_pos hrb.symm, if_neg hra, if_pos hrb]
    · rw [if_neg (Ne.symm hrb), if_neg (Ne.symm hra), if_neg hra, if_neg hrb]

theorem eliminateRow_shaped (h : Shaped n w aug) {col i : ℕ} (hcol : col < n) (hi : i < n) :
    Shaped n w (eliminateRow col aug i) := by
  unfold eliminateRow
  split
  · exact h
  · refine h.set i ?_
    rw [List.length_zipWith, h.row hi, h.row hcol, Nat.min_self]

/-- A row other than the pivot's is cleared by a multiple of the pivot row. -/
theorem cell_eliminateRow (h : Shaped n w aug) {col i j : ℕ} (hcol : col < n) (hi : i < n)
    (hj : j < w) (r : ℕ) :
    cell (eliminateRow col aug i) r j =
      if r = i ∧ r ≠ col then cell aug r j + cell aug r col * cell aug col j
      else cell aug r j := by
  unfold eliminateRow
  by_cases hic : i = col
  · rw [if_pos (Or.inl hic), if_neg]
    rintro ⟨rfl, hne⟩
    exact hne hic
  by_cases hzero : cell aug i col = 0
  · rw [if_pos (Or.inr hzero)]
    split
    · rename_i hr
      rw [hr.1, hzero, zero_mul, add_zero]
    · rfl
  · rw [if_neg (by simp [hic, hzero]), cell_set (by rw [h.length]; exact hi)]
    by_cases hr : r = i
    · subst hr
      rw [if_pos rfl, if_pos ⟨rfl, hic⟩,
        getD_zipWith _ (by rwa [h.row hi]) (by rwa [h.row hcol])]
      rfl
    · rw [if_neg (Ne.symm hr), if_neg (fun hc => hr hc.1)]

theorem eliminateRows_spec (h : Shaped n w aug) {col : ℕ} (hcol : col < n) (hw : col < w) (m : ℕ)
    (hm : m ≤ n) :
    Shaped n w ((List.range m).foldl (eliminateRow col) aug) ∧
      ∀ r j, j < w → cell ((List.range m).foldl (eliminateRow col) aug) r j =
        if r < m ∧ r ≠ col then cell aug r j + cell aug r col * cell aug col j
        else cell aug r j := by
  induction m with
  | zero => exact ⟨h, fun r j _ => (if_neg (fun hc => Nat.not_lt_zero r hc.1)).symm⟩
  | succ m ih =>
    obtain ⟨hs, hcells⟩ := ih (by omega)
    rw [List.range_succ, List.foldl_append, List.foldl_cons, List.foldl_nil]
    refine ⟨eliminateRow_shaped hs hcol (by omega), ?_⟩
    intro r j hj
    rw [cell_eliminateRow hs hcol (by omega) hj, hcells r j hj]
    by_cases hr : r = m ∧ r ≠ col
    · have hbelow : ¬ (r < m ∧ r ≠ col) := by omega
      rw [if_pos hr, if_neg hbelow, if_pos (by omega), hcells r col hw, if_neg hbelow,
        hcells col j hj, if_neg (by omega)]
    · rw [if_neg hr]
      exact if_congr (by omega) rfl rfl

theorem findPivot_none {col : ℕ} (h : findPivot n aug col = none) {r : ℕ} (hcol : col ≤ r)
    (hr : r < n) : cell aug r col = 0 := by
  have hall := List.find?_eq_none.mp h r (List.mem_range'_1.mpr (by omega))
  simpa using hall

theorem findPivot_some {col r : ℕ} (h : findPivot n aug col = some r) :
    col ≤ r ∧ r < n ∧ cell aug r col ≠ 0 := by
  have hin := List.mem_range'_1.mp (List.mem_of_find?_eq_some h)
  refine ⟨hin.1, by omega, ?_⟩
  simpa using List.find?_some h

theorem clear_spec (h : Shaped n (2 * n) aug) (c : Fin n) :
    let scaled := aug.set c ((aug.getD c []).map fun x => Gf256.mul x (Gf256.inv (cell aug c c)))
    let cleared := (List.range n).foldl (eliminateRow c) scaled
    Shaped n (2 * n) cleared ∧
      left n cleared = clear c (fun i => left n aug i c) (left n aug) ∧
      right n cleared = clear c (fun i => left n aug i c) (right n aug) := by
  intro scaled cleared
  have hc := c.isLt
  have hs : Shaped n (2 * n) scaled := h.set _ (by rw [List.length_map, h.row hc])
  have hscaled : ∀ r j, j < 2 * n → cell scaled r j =
      if c.val = r then cell aug r j * (cell aug c c)⁻¹ else cell aug r j := by
    intro r j hj
    rw [cell_set (by rw [h.length]; exact hc)]
    by_cases hr : c.val = r
    · subst hr
      rw [if_pos rfl, if_pos rfl, getD_map _ (by rwa [h.row hc])]
      rfl
    · rw [if_neg hr, if_neg hr]
  obtain ⟨hshape, hcells⟩ := eliminateRows_spec hs hc (by omega) n (Nat.le_refl n)
  have hentry : ∀ (i : Fin n) j, j < 2 * n → cell cleared i j =
      if i = c then cell aug c j * (cell aug c c)⁻¹
      else cell aug i j - cell aug i c * (cell aug c j * (cell aug c c)⁻¹) := by
    intro i j hj
    rw [hcells i j hj, hscaled i j hj, hscaled i c (by omega), hscaled c j hj]
    by_cases hi : i = c
    · subst hi
      rw [if_neg (fun hne => hne.2 rfl), if_pos rfl, if_pos rfl]
    · have hval : c.val ≠ i.val := fun heq => hi (Fin.ext heq.symm)
      rw [if_pos ⟨i.isLt, Ne.symm hval⟩, if_neg hval, if_neg hval, if_pos rfl, if_neg hi,
        Gf256.sub_eq]
  refine ⟨hshape, ?_, ?_⟩
  · ext1 i j
    exact hentry i j (by omega)
  · ext1 i j
    exact hentry i (n + j) (by omega)

theorem eliminateColumn_spec {M : Matrix (Fin n) (Fin n) Byte} (h : Shaped n (2 * n) aug)
    {c : Fin n} (hprog : Progress M c (left n aug) (right n aug)) :
    (∃ aug', eliminateColumn n aug c = .ok aug' ∧ Shaped n (2 * n) aug' ∧
      Progress M (c.val + 1) (left n aug') (right n aug')) ∨
      eliminateColumn n aug c = .error "matrix is singular" ∧ M.det = 0 := by
  unfold eliminateColumn
  cases hfind : findPivot n aug c with
  | none =>
    refine Or.inr ⟨rfl, hprog.stuck ?_⟩
    intro i hi
    exact findPivot_none hfind hi i.isLt
  | some pivot =>
    obtain ⟨hge, hlt, hne⟩ := findPivot_some hfind
    -- `p` is the row of the pivot; where it is `c` itself, the swap changes nothing.
    let p : Fin n := ⟨pivot, hlt⟩
    let swapped := if pivot ≠ c.val then swapRows aug c pivot else aug
    have hs : Shaped n (2 * n) swapped := by
      unfold swapped
      split
      · exact swapRows_shaped h c.isLt hlt
      · exact h
    have hcells : ∀ (r : Fin n) j, cell swapped r j = cell aug (Equiv.swap c p r) j := by
      intro r j
      have hval : (Equiv.swap c p r).val =
          if r.val = c.val then pivot else if r.val = pivot then c.val else r.val := by
        rw [Equiv.swap_apply_def]
        simp only [Fin.ext_iff, p]
        split
        · rfl
        split <;> rfl
      unfold swapped
      split
      · rw [cell_swapRows h c.isLt hlt, hval]
      · rename_i hpc
        have hpc' : pivot = c.val := not_not.mp hpc
        rw [hval, hpc']
        split
        · rename_i hr
          rw [hr]
        · rfl
    have hprog' : Progress M c.val (left n swapped) (right n swapped) := by
      have hmoved := hprog.swap (p := p) hge
      have hl : left n swapped = (left n aug).submatrix (Equiv.swap c p) id := by
        ext1 i j
        exact hcells i j
      have hr : right n swapped = (right n aug).submatrix (Equiv.swap c p) id := by
        ext1 i j
        exact hcells i (n + j)
      rwa [hl, hr]
    have hpivot : left n swapped c c ≠ 0 := by
      have hcell := hcells c c
      rw [Equiv.swap_apply_left] at hcell
      change cell swapped c c ≠ 0
      rwa [hcell]
    have hinv : Gf256.inv (cell swapped c c) ≠ 0 := inv_ne_zero hpivot
    obtain ⟨hshape, hleft, hright⟩ := clear_spec hs c
    refine Or.inl ⟨_, if_neg hinv, hshape, ?_⟩
    rw [hleft, hright]
    exact hprog'.clear hpivot

theorem augment_spec {mat : Rows} (h : Shaped n n mat) :
    Shaped n (2 * n) (augment mat) ∧ left n (augment mat) = toMatrix n n mat ∧
      right n (augment mat) = 1 := by
  unfold augment
  rw [h.length]
  refine ⟨tabulate_shaped _ _ _, ?_, ?_⟩
  · ext1 i j
    change cell _ _ _ = _
    rw [cell_tabulate i.isLt (by omega), if_pos j.isLt]
    rfl
  · ext1 i j
    change cell _ _ _ = _
    rw [cell_tabulate i.isLt (by omega), if_neg (by omega), Matrix.one_apply]
    exact if_congr (by omega) rfl rfl

theorem eliminateColumns_spec {mat : Rows} (h : Shaped n n mat) (m : ℕ) (hm : m ≤ n) :
    (∃ aug, (List.range m).foldlM (eliminateColumn n) (augment mat) = .ok aug ∧
      Shaped n (2 * n) aug ∧ Progress (toMatrix n n mat) m (left n aug) (right n aug)) ∨
      (List.range m).foldlM (eliminateColumn n) (augment mat) = .error "matrix is singular" ∧
        (toMatrix n n mat).det = 0 := by
  induction m with
  | zero =>
    obtain ⟨hs, hleft, hright⟩ := augment_spec h
    refine Or.inl ⟨_, rfl, hs, ?_⟩
    rw [hleft, hright]
    exact Progress.start _
  | succ m ih =>
    rw [List.range_succ, List.foldlM_append]
    cases ih (by omega) with
    | inr hsingular =>
      rw [hsingular.1]
      exact Or.inr ⟨rfl, hsingular.2⟩
    | inl hprog =>
      obtain ⟨aug, hok, hs, hprog⟩ := hprog
      rw [hok]
      have hstep := eliminateColumn_spec (c := ⟨m, by omega⟩) hs hprog
      cases hstep with
      | inl hnext =>
        obtain ⟨aug', hok', hs', hprog'⟩ := hnext
        refine Or.inl ⟨aug', ?_, hs', hprog'⟩
        simp only [List.foldlM_cons, List.foldlM_nil]
        change (eliminateColumn n aug m).bind _ = _
        rw [hok']
        rfl
      | inr hsingular =>
        refine Or.inr ⟨?_, hsingular.2⟩
        simp only [List.foldlM_cons, List.foldlM_nil]
        change (eliminateColumn n aug m).bind _ = _
        rw [hsingular.1]
        rfl

/-- Inversion yields the inverse, or fails on a singular matrix. -/
theorem invertMatrix_spec {mat : Rows} (h : Shaped n n mat) (hn : 0 < n) :
    (∃ inv, invertMatrix mat = .ok inv ∧ Shaped n n inv ∧
      toMatrix n n inv * toMatrix n n mat = 1) ∨
      invertMatrix mat = .error "matrix is singular" ∧ (toMatrix n n mat).det = 0 := by
  have hsquare : ¬ (mat.length = 0 ∨ ∃ row ∈ mat, row.length ≠ mat.length) := by
    rintro (hzero | ⟨row, hrow, hne⟩)
    · rw [h.length] at hzero
      omega
    · rw [h.length] at hne
      exact hne (h.width row hrow)
  unfold invertMatrix
  rw [if_neg hsquare, h.length]
  cases eliminateColumns_spec h n (Nat.le_refl n) with
  | inr hsingular =>
    rw [hsingular.1]
    exact Or.inr ⟨rfl, hsingular.2⟩
  | inl hprog =>
    obtain ⟨aug, hok, hs, hprog⟩ := hprog
    rw [hok]
    refine Or.inl ⟨_, rfl, ⟨by simp, ?_⟩, ?_⟩
    · intro row hrow
      obtain ⟨i, hi, rfl⟩ := List.mem_map.mp hrow
      rw [List.length_drop, hs.row (List.mem_range.mp hi)]
      omega
    · have hright : toMatrix n n ((List.range n).map fun i => (aug.getD i []).drop n) =
          right n aug := by
        ext1 i j
        simp [toMatrix, right, cell, List.getD_eq_getElem?_getD]
      rw [hright]
      exact hprog.done

end Elimination

/- The encoding matrix. -/

theorem sum_loop (f : ℕ → Byte) (m : ℕ) :
    (List.range m).foldl (fun sum t => Gf256.add sum (f t)) 0 = ∑ t : Fin m, f t := by
  induction m with
  | zero => rfl
  | succ m ih =>
    rw [List.range_succ, List.foldl_append, ih, Fin.sum_univ_castSucc]
    rfl

theorem matMul_spec {r m c : ℕ} {a b : Rows} (ha : Shaped r m a) (hb : Shaped m c b)
    (hm : 0 < m) : Shaped r c (matMul a b) ∧
      toMatrix r c (matMul a b) = toMatrix r m a * toMatrix m c b := by
  unfold matMul
  rw [ha.length, hb.row hm, hb.length]
  refine ⟨tabulate_shaped _ _ _, ?_⟩
  ext1 i j
  rw [Matrix.mul_apply]
  change cell _ _ _ = _
  rw [cell_tabulate i.isLt j.isLt, sum_loop]
  rfl

def point (r : ℕ) : Byte := ⟨BitVec.ofNat 8 r⟩

theorem point_injective {n : ℕ} (hn : n ≤ 256) :
    Function.Injective fun r : Fin n => point r := by
  intro r s heq
  have hcode : (BitVec.ofNat 8 r).toNat = (BitVec.ofNat 8 s).toNat :=
    congrArg (fun b : Byte => b.bits.toNat) heq
  simp only [BitVec.toNat_ofNat] at hcode
  exact Fin.ext (by omega)

theorem mapM_ok {α β ε : Type} {f : α → Except ε β} {g : α → β} {l : List α}
    (h : ∀ a ∈ l, f a = .ok (g a)) : l.mapM f = .ok (l.map g) := by
  induction l with
  | nil => rfl
  | cons a l ih =>
    rw [List.mapM_cons, h a List.mem_cons_self, ih fun b hb => h b (List.mem_cons_of_mem a hb)]
    rfl

theorem vandermonde_spec {n k : ℕ} (hn : n ≤ 256) : ∃ v, vandermonde n k = .ok v ∧
    Shaped n k v ∧ toMatrix n k v = SystematicCode.evaluation (fun r : Fin n => point r) k := by
  refine ⟨tabulate n k fun r c => Gf256.pow (point r) c, ?_, tabulate_shaped _ _ _, ?_⟩
  · refine mapM_ok ?_
    intro r hr
    exact if_pos (Nat.lt_of_lt_of_le (List.mem_range.mp hr) hn)
  · ext1 i j
    change cell _ _ _ = _
    rw [cell_tabulate i.isLt j.isLt, Gf256.pow_eq]
    rfl

/-- The encoding matrix exists, starts with the identity, and any `k` of its rows are
invertible. -/
theorem buildEncodingMatrix_spec {n k : ℕ} (hk : 0 < k) (hkn : k ≤ n) (hn : n ≤ 256) :
    ∃ E, buildEncodingMatrix n k = .ok E ∧ Shaped n k E ∧
      (toMatrix n k E).submatrix (Fin.castLE hkn) id = 1 ∧
      ∀ rows : Fin k → Fin n, Function.Injective rows →
        ((toMatrix n k E).submatrix rows id).det ≠ 0 := by
  obtain ⟨v, hv, hshape, hpoints⟩ := vandermonde_spec (k := k) hn
  have hpoint := point_injective hn
  have htop : Shaped k k (v.take k) := by
    refine ⟨by rw [List.length_take, hshape.length, Nat.min_eq_left hkn], ?_⟩
    intro row hrow
    exact hshape.width row (List.mem_of_mem_take hrow)
  have hrows : toMatrix k k (v.take k) = (toMatrix n k v).submatrix (Fin.castLE hkn) id := by
    ext1 i j
    simp [toMatrix, cell, List.getD_eq_getElem?_getD]
  have hdet : (toMatrix k k (v.take k)).det ≠ 0 := by
    have hone := @SystematicCode.rows_det_ne_zero Byte _ n k _ hpoint 1 (by simp) _
      (Fin.castLE_injective hkn)
    rwa [Matrix.mul_one, ← hpoints, ← hrows] at hone
  cases invertMatrix_spec htop hk with
  | inr hsingular => exact absurd hsingular.2 hdet
  | inl hinv =>
    obtain ⟨inv, hok, hinvShape, hinv⟩ := hinv
    obtain ⟨hE, hprod⟩ := matMul_spec hshape hinvShape hk
    refine ⟨matMul v inv, ?_, hE, ?_, ?_⟩
    · unfold buildEncodingMatrix
      rw [hv]
      dsimp only
      rw [hok]
    · rw [hprod]
      change (toMatrix n k v).submatrix (Fin.castLE hkn) id * toMatrix k k inv = 1
      rw [← hrows]
      exact mul_eq_one_comm.mp hinv
    · intro rows hinj
      rw [hprod, hpoints]
      exact SystematicCode.rows_det_ne_zero hpoint
        (Matrix.det_ne_zero_of_right_inverse hinv) hinj

end ReedSolomon
end LuaDag
