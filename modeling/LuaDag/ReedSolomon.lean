import LuaDag.ErasureMatrix

/-! The erasure codec: a payload is padded, cut into `k` data shards and extended by parity
shards; any `k` of the `n` shards give it back. -/
namespace LuaDag

structure ErasureConfig where
  k : ℕ
  n : ℕ
  dataShardSize : ℕ
deriving DecidableEq, Repr

def ErasureConfig.paddedLen (cfg : ErasureConfig) : ℕ := cfg.k * cfg.dataShardSize

namespace ReedSolomon

def maxShards : ℕ := 256

def validateCfg (cfg : ErasureConfig) : Except ErasureError Unit :=
  if cfg.k = 0 ∨ cfg.n ≤ cfg.k ∨ cfg.dataShardSize = 0 then
    .error (.config "k/n/shard_size invalid")
  else if maxShards < cfg.n then
    .error (.config "n exceeds GF(256) Vandermonde row limit")
  else .ok ()

def cachedEncodingMatrix (cfg : ErasureConfig) : Except ErasureError Rows :=
  buildEncodingMatrix cfg.n cfg.k

def zeroShard (size : ℕ) : List Byte := List.replicate size 0

def padToKShards (payload : List Byte) (cfg : ErasureConfig) : List Byte :=
  payload ++ zeroShard (cfg.paddedLen - payload.length)

def chunks (size : ℕ) (bytes : List Byte) : Rows :=
  (List.range ((bytes.length + size - 1) / size)).map fun i => (bytes.drop (i * size)).take size

def combine (k size : ℕ) (coeffs : ℕ → Byte) (data : ℕ → List Byte) :
    Except ErasureError (List Byte) :=
  (List.range k).foldlM (fun out j => Gf256.mulSliceAdd (coeffs j) (data j) out) (zeroShard size)

def encodeParityShards (matrix : Rows) (k : ℕ) (data parity : Rows) :
    Except ErasureError Rows :=
  (List.range parity.length).mapM fun offset =>
    combine k (parity.getD offset []).length (cell matrix (k + offset)) fun j => data.getD j []

def encodeShards (payload : List Byte) (cfg : ErasureConfig) : Except ErasureError Rows :=
  match validateCfg cfg with
  | .error e => .error e
  | .ok () =>
    if cfg.paddedLen < payload.length then
      .error (.config "payload exceeds RS padded capacity")
    else
      match cachedEncodingMatrix cfg with
      | .error e => .error e
      | .ok matrix =>
        let cut := chunks cfg.dataShardSize (padToKShards payload cfg)
        let shards := cut.take cfg.n ++
          List.replicate (cfg.n - cut.length) (zeroShard cfg.dataShardSize)
        match encodeParityShards matrix cfg.k (shards.take cfg.k) (shards.drop cfg.k) with
        | .error e => .error e
        | .ok parity => .ok (shards.take cfg.k ++ parity)

def presentOf (placed : List (Option (List Byte))) : List ℕ :=
  (List.range placed.length).filter fun i => (placed.getD i none).isSome

def sourceShard (shards : List (Option (List Byte))) (useRows : List ℕ) (t : ℕ) : List Byte :=
  (shards.getD (useRows.getD t 0) none).getD []

def reconstructShards (shards : List (Option (List Byte))) (cfg : ErasureConfig) :
    Except ErasureError (List (Option (List Byte))) :=
  let n := shards.length
  match cachedEncodingMatrix cfg with
  | .error e => .error e
  | .ok matrix =>
    if (presentOf shards).length < cfg.k then
      .error (.config "insufficient shards for decode")
    else
      let useRows := (presentOf shards).take cfg.k
      match invertMatrix (submatrix matrix useRows) with
      | .error e => .error (.codec e)
      | .ok inv =>
        match (List.range cfg.k).mapM fun j =>
          combine cfg.k cfg.dataShardSize (cell inv j) (sourceShard shards useRows) with
        | .error e => .error e
        | .ok data =>
          match (List.range (n - cfg.k)).mapM fun offset =>
            let row := cfg.k + offset
            let out := (shards.getD row none).getD (zeroShard cfg.dataShardSize)
            combine cfg.k out.length (cell matrix row) fun j => data.getD j [] with
          | .error e => .error e
          | .ok parity => .ok ((data ++ parity).map some)

def placeShard (cfg : ErasureConfig) (shards : List (Option (List Byte)))
    (given : ℕ × List Byte) : Except ErasureError (List (Option (List Byte))) :=
  if cfg.n ≤ given.1 then .error (.config "shard index out of range")
  else if given.2.length ≠ cfg.dataShardSize then .error (.config "unexpected shard length")
  else .ok (shards.set given.1 (some given.2))

def expectShard : Option (List Byte) → Except ErasureError (List Byte)
  | some shard => .ok shard
  | none => .error (.panic "data shard present")

def decodeShards (present : List (ℕ × List Byte)) (cfg : ErasureConfig) (origLen : ℕ) :
    Except ErasureError (List Byte) :=
  match validateCfg cfg with
  | .error e => .error e
  | .ok () =>
    if present.length < cfg.k then .error (.config "insufficient shards for decode")
    else
      match present.foldlM (placeShard cfg) (List.replicate cfg.n none) with
      | .error e => .error e
      | .ok placed =>
        match reconstructShards placed cfg with
        | .error e => .error e
        | .ok shards =>
          match (shards.take cfg.k).mapM expectShard with
          | .error e => .error e
          | .ok data => .ok (data.flatten.take origLen)

/- Combining shards. -/

theorem combine_spec {size : ℕ} (coeffs : ℕ → Byte) {data : ℕ → List Byte} (k : ℕ)
    (hlen : ∀ j < k, (data j).length = size) :
    ∃ out, combine k size coeffs data = .ok out ∧ out.length = size ∧
      ∀ x < size, out.getD x 0 = ∑ j : Fin k, coeffs j * (data j).getD x 0 := by
  induction k with
  | zero =>
    refine ⟨zeroShard size, rfl, List.length_replicate, ?_⟩
    intro x hx
    simp [zeroShard, List.getD_eq_getElem?_getD, hx]
  | succ k ih =>
    obtain ⟨out, hok, hout, hsum⟩ := ih fun j hj => hlen j (by omega)
    have hk := hlen k (Nat.lt_succ_self k)
    refine ⟨List.zipWith (fun dst src => dst + coeffs k * src) out (data k), ?_, ?_, ?_⟩
    · unfold combine at hok ⊢
      rw [List.range_succ, List.foldlM_append, hok]
      simp only [List.foldlM_cons, List.foldlM_nil]
      change (Gf256.mulSliceAdd (coeffs k) (data k) out).bind _ = _
      rw [Gf256.mulSliceAdd_spec _ (hk.trans hout.symm)]
      rfl
    · rw [List.length_zipWith, hout, hk, Nat.min_self]
    · intro x hx
      rw [getD_zipWith _ (by omega) (by omega), hsum x hx, Fin.sum_univ_castSucc]
      rfl

theorem combineRows_spec {r k size : ℕ} (coeffs : ℕ → ℕ → Byte) {data : ℕ → List Byte}
    (hlen : ∀ j < k, (data j).length = size) :
    ∃ out, (List.range r).mapM (fun i => combine k size (coeffs i) data) = .ok out ∧
      Shaped r size out ∧ toMatrix r size out =
        (Matrix.of fun (i : Fin r) (j : Fin k) => coeffs i j) *
          Matrix.of fun (j : Fin k) (x : Fin size) => (data j).getD x 0 := by
  choose row hok hrow hsum using fun i => combine_spec (coeffs i) k hlen
  refine ⟨(List.range r).map row, mapM_ok fun i _ => hok i, ⟨by simp, ?_⟩, ?_⟩
  · intro out hout
    obtain ⟨i, -, rfl⟩ := List.mem_map.mp hout
    exact hrow i
  · ext1 i x
    rw [Matrix.mul_apply]
    have hcell : toMatrix r size ((List.range r).map row) i x = (row i).getD x 0 := by
      simp [toMatrix, cell, List.getD_eq_getElem?_getD]
    rw [hcell, hsum i x x.isLt]
    rfl

/- Cutting. -/

theorem chunks_shaped {k size : ℕ} (hsize : 0 < size) {bytes : List Byte}
    (hlen : bytes.length = k * size) : Shaped k size (chunks size bytes) := by
  have hcount : (bytes.length + size - 1) / size = k := by
    rw [hlen, Nat.add_sub_assoc hsize, Nat.add_comm, Nat.add_mul_div_right _ _ hsize,
      Nat.div_eq_of_lt (by omega), Nat.zero_add]
  refine ⟨by rw [chunks, hcount, List.length_map, List.length_range], ?_⟩
  intro piece hpiece
  rw [chunks, hcount] at hpiece
  obtain ⟨i, hi, rfl⟩ := List.mem_map.mp hpiece
  have hroom : (i + 1) * size ≤ k * size :=
    Nat.mul_le_mul_right size (List.mem_range.mp hi)
  rw [Nat.succ_mul] at hroom
  rw [List.length_take, List.length_drop, hlen]
  omega

theorem flatten_chunks {k size : ℕ} (hsize : 0 < size) {bytes : List Byte}
    (hlen : bytes.length = k * size) : (chunks size bytes).flatten = bytes := by
  have hcount : (bytes.length + size - 1) / size = k := by
    have hl := (chunks_shaped hsize hlen).length
    simpa [chunks] using hl
  rw [chunks, hcount]
  clear hcount
  induction k generalizing bytes with
  | zero =>
    rw [Nat.zero_mul, List.length_eq_zero_iff] at hlen
    simp [hlen]
  | succ k ih =>
    have hrest : (bytes.drop size).length = k * size := by
      rw [List.length_drop, hlen, Nat.succ_mul, Nat.add_sub_cancel]
    have hshift : (List.range k).map (fun i => (bytes.drop ((i + 1) * size)).take size) =
        (List.range k).map fun i => ((bytes.drop size).drop (i * size)).take size := by
      refine List.map_congr_left fun i _ => ?_
      rw [List.drop_drop, Nat.succ_mul, Nat.add_comm]
    rw [List.range_succ_eq_map, List.map_cons, List.map_map, List.flatten_cons, Nat.zero_mul,
      List.drop_zero]
    change _ ++ ((List.range k).map fun i => (bytes.drop ((i + 1) * size)).take size).flatten = _
    rw [hshift, ih hrest, List.take_append_drop]

/- Encoding. -/

structure Valid (cfg : ErasureConfig) : Prop where
  data : 0 < cfg.k
  parity : cfg.k < cfg.n
  points : cfg.n ≤ 256
  size : 0 < cfg.dataShardSize

structure Systematic (n k : ℕ) (E : Rows) : Prop where
  shaped : Shaped n k E
  top : ∀ i j, i < k → j < k → cell E i j = if i = j then 1 else 0
  rows : ∀ rows : Fin k → Fin n, Function.Injective rows →
    ((toMatrix n k E).submatrix rows id).det ≠ 0

structure Codeword (cfg : ErasureConfig) (E data shards : Rows) : Prop where
  cut : Shaped cfg.k cfg.dataShardSize data
  shaped : Shaped cfg.n cfg.dataShardSize shards
  first : shards.take cfg.k = data
  product : toMatrix cfg.n cfg.dataShardSize shards =
    toMatrix cfg.n cfg.k E * toMatrix cfg.k cfg.dataShardSize data

section Codec
variable {cfg : ErasureConfig} {E : Rows}

theorem Valid.accepted (h : Valid cfg) : validateCfg cfg = .ok () := by
  have hk := h.data
  have hn := h.parity
  have hs := h.size
  have hn' := h.points
  unfold validateCfg maxShards
  rw [if_neg (by omega), if_neg (by omega)]

theorem Valid.matrix (h : Valid cfg) : ∃ E, cachedEncodingMatrix cfg = .ok E ∧
    Systematic cfg.n cfg.k E := by
  obtain ⟨E, hE, hshape, htop, hrows⟩ :=
    buildEncodingMatrix_spec h.data (Nat.le_of_lt h.parity) h.points
  refine ⟨E, hE, hshape, ?_, hrows⟩
  intro i j hi hj
  have hcell := congrFun (congrFun htop ⟨i, hi⟩) ⟨j, hj⟩
  rw [Matrix.one_apply] at hcell
  refine Eq.trans hcell (if_congr ?_ rfl rfl)
  rw [Fin.mk.injEq]

theorem mapM_congr {α β ε : Type} {f g : α → Except ε β} {l : List α}
    (h : ∀ a ∈ l, f a = g a) : l.mapM f = l.mapM g := by
  induction l with
  | nil => rfl
  | cons a l ih =>
    rw [List.mapM_cons, List.mapM_cons, h a List.mem_cons_self,
      ih fun b hb => h b (List.mem_cons_of_mem a hb)]

theorem codeword_of_parity (h : Valid cfg) (hE : Systematic cfg.n cfg.k E) {data parity : Rows}
    (hdata : Shaped cfg.k cfg.dataShardSize data)
    (hparity : Shaped (cfg.n - cfg.k) cfg.dataShardSize parity)
    (hprod : toMatrix (cfg.n - cfg.k) cfg.dataShardSize parity =
      (Matrix.of fun (i : Fin (cfg.n - cfg.k)) (j : Fin cfg.k) => cell E (cfg.k + i) j) *
        Matrix.of fun (j : Fin cfg.k) (x : Fin cfg.dataShardSize) => (data.getD j []).getD x 0) :
    Codeword cfg E data (data ++ parity) := by
  have hlt := h.parity
  refine ⟨hdata, ⟨?_, ?_⟩, ?_, ?_⟩
  · rw [List.length_append, hdata.length, hparity.length]
    omega
  · intro row hrow
    cases List.mem_append.mp hrow with
    | inl hd => exact hdata.width row hd
    | inr hp => exact hparity.width row hp
  · rw [← hdata.length, List.take_left']
    rfl
  · ext1 i x
    rw [Matrix.mul_apply]
    by_cases hi : i.val < cfg.k
    · have hcell : toMatrix cfg.n cfg.dataShardSize (data ++ parity) i x = cell data i x := by
        simp [toMatrix, cell, List.getD_eq_getElem?_getD, List.getElem?_append_left,
          hdata.length, hi]
      rw [hcell]
      have hone : ∀ j : Fin cfg.k, toMatrix cfg.n cfg.k E i j *
          toMatrix cfg.k cfg.dataShardSize data j x =
            if j = ⟨i, hi⟩ then cell data i x else 0 := by
        intro j
        change cell E i j * cell data j x = _
        rw [hE.top i j hi j.isLt]
        by_cases hj : i.val = j.val
        · rw [if_pos hj, if_pos (Fin.ext hj.symm), one_mul, hj]
        · rw [if_neg hj, if_neg (fun heq => hj (congrArg Fin.val heq).symm), zero_mul]
      rw [Finset.sum_congr rfl fun j _ => hone j, Finset.sum_ite_eq', if_pos (Finset.mem_univ _)]
    · have hcell : toMatrix cfg.n cfg.dataShardSize (data ++ parity) i x =
          cell parity (i - cfg.k) x := by
        simp [toMatrix, cell, List.getD_eq_getElem?_getD, List.getElem?_append_right,
          hdata.length, Nat.not_lt.mp hi]
      have hrow := congrFun (congrFun hprod ⟨i - cfg.k, by omega⟩) x
      rw [hcell]
      refine Eq.trans hrow ?_
      rw [Matrix.mul_apply]
      simp only [Matrix.of_apply, Nat.add_sub_cancel' (Nat.not_lt.mp hi)]
      rfl

theorem encodeShards_spec (h : Valid cfg) (hE : cachedEncodingMatrix cfg = .ok E)
    (hsys : Systematic cfg.n cfg.k E) {payload : List Byte}
    (hlen : payload.length ≤ cfg.paddedLen) :
    ∃ data shards, encodeShards payload cfg = .ok shards ∧ Codeword cfg E data shards ∧
      data.flatten = padToKShards payload cfg := by
  have hlt := h.parity
  have hpadded : (padToKShards payload cfg).length = cfg.k * cfg.dataShardSize := by
    rw [padToKShards, List.length_append, zeroShard, List.length_replicate]
    unfold ErasureConfig.paddedLen at hlen ⊢
    omega
  let data := chunks cfg.dataShardSize (padToKShards payload cfg)
  have hdata : Shaped cfg.k cfg.dataShardSize data := chunks_shaped h.size hpadded
  have hresized : data.take cfg.n ++ List.replicate (cfg.n - data.length)
      (zeroShard cfg.dataShardSize) =
        data ++ List.replicate (cfg.n - cfg.k) (zeroShard cfg.dataShardSize) := by
    rw [hdata.length, List.take_of_length_le (by rw [hdata.length]; omega)]
  obtain ⟨parity, hok, hparity, hprod⟩ := combineRows_spec (r := cfg.n - cfg.k)
    (fun offset => cell E (cfg.k + offset)) fun j hj => hdata.row hj
  have hencode : encodeParityShards E cfg.k data
      (List.replicate (cfg.n - cfg.k) (zeroShard cfg.dataShardSize)) = .ok parity := by
    unfold encodeParityShards
    rw [List.length_replicate, ← hok]
    refine mapM_congr fun offset hoffset => ?_
    have hzero : ((List.replicate (cfg.n - cfg.k) (zeroShard cfg.dataShardSize)).getD offset
        []).length = cfg.dataShardSize := by
      simp [List.getD_eq_getElem?_getD, List.mem_range.mp hoffset, zeroShard]
    rw [hzero]
  refine ⟨data, data ++ parity, ?_, codeword_of_parity h hsys hdata hparity hprod,
    flatten_chunks h.size hpadded⟩
  unfold encodeShards
  rw [h.accepted]
  dsimp only
  rw [if_neg (Nat.not_lt.mpr hlen), hE]
  dsimp only
  rw [hresized, List.take_left' hdata.length, List.drop_left' hdata.length, hencode]

/- Decoding. -/

structure Placed (cfg : ErasureConfig) (shards : Rows) (seen : Finset ℕ)
    (placed : List (Option (List Byte))) : Prop where
  length : placed.length = cfg.n
  slots : ∀ i < cfg.n, placed.getD i none = if i ∈ seen then some (shards.getD i []) else none

theorem place_spec {shards : Rows} (hshape : Shaped cfg.n cfg.dataShardSize shards)
    {present : List (ℕ × List Byte)} (htaken : ∀ q ∈ present, shards[q.1]? = some q.2)
    {seen : Finset ℕ} {placed : List (Option (List Byte))}
    (h : Placed cfg shards seen placed) :
    ∃ placed', present.foldlM (placeShard cfg) placed = .ok placed' ∧
      Placed cfg shards ((present.map (·.1)).toFinset ∪ seen) placed' := by
  induction present generalizing seen placed with
  | nil =>
    refine ⟨placed, rfl, ?_⟩
    simpa using h
  | cons q present ih =>
    obtain ⟨hlt, hget⟩ := List.getElem?_eq_some_iff.mp (htaken q List.mem_cons_self)
    have hn : q.1 < cfg.n := hshape.length ▸ hlt
    have hlen : q.2.length = cfg.dataShardSize := by
      rw [← hget]
      exact hshape.width _ (List.getElem_mem hlt)
    have hstep : placeShard cfg placed q = .ok (placed.set q.1 (some q.2)) := by
      unfold placeShard
      rw [if_neg (Nat.not_le.mpr hn), if_neg (not_not.mpr hlen)]
    have hnext : Placed cfg shards (insert q.1 seen) (placed.set q.1 (some q.2)) := by
      refine ⟨by rw [List.length_set, h.length], ?_⟩
      intro i hi
      rw [getD_set, h.length]
      by_cases heq : q.1 = i
      · subst heq
        have hshard : shards.getD q.1 [] = q.2 := by
          rw [List.getD_eq_getElem?_getD, htaken q List.mem_cons_self, Option.getD_some]
        rw [if_pos ⟨rfl, hn⟩, if_pos (Finset.mem_insert_self _ _), hshard]
      · rw [if_neg (fun hc => heq hc.1), h.slots i hi]
        refine if_congr ?_ rfl rfl
        rw [Finset.mem_insert]
        exact ⟨Or.inr, fun hin => hin.resolve_left (Ne.symm heq)⟩
    obtain ⟨placed', hok, hplaced⟩ := ih (fun r hr => htaken r (List.mem_cons_of_mem q hr)) hnext
    refine ⟨placed', ?_, ?_⟩
    · rw [List.foldlM_cons, hstep]
      exact hok
    · rw [List.map_cons, List.toFinset_cons, Finset.insert_union, ← Finset.union_insert]
      exact hplaced

theorem Placed.present {shards : Rows} {seen : Finset ℕ} {placed : List (Option (List Byte))}
    (h : Placed cfg shards seen placed) (hseen : ∀ i ∈ seen, i < cfg.n) :
    (∀ i, i ∈ presentOf placed ↔ i ∈ seen) ∧ (presentOf placed).Nodup ∧
      (presentOf placed).length = seen.card := by
  have hmem : ∀ i, i ∈ presentOf placed ↔ i ∈ seen := by
    intro i
    rw [presentOf, List.mem_filter, List.mem_range, h.length]
    constructor
    · rintro ⟨hi, hsome⟩
      rw [h.slots i hi] at hsome
      by_contra hnot
      simp [hnot] at hsome
    · intro hi
      refine ⟨hseen i hi, ?_⟩
      rw [h.slots i (hseen i hi), if_pos hi]
      rfl
  have hnodup : (presentOf placed).Nodup := List.nodup_range.filter _
  refine ⟨hmem, hnodup, ?_⟩
  rw [← List.toFinset_card_of_nodup hnodup]
  congr 1
  ext i
  rw [List.mem_toFinset, hmem]

theorem Placed.sorted {shards : Rows} {seen : Finset ℕ} {placed : List (Option (List Byte))}
    (h : Placed cfg shards seen placed) (hseen : ∀ i ∈ seen, i < cfg.n) :
    presentOf placed = seen.sort (· ≤ ·) := by
  obtain ⟨hmem, hnodup, -⟩ := h.present hseen
  have hset : seen = (presentOf placed).toFinset := by
    ext i
    rw [List.mem_toFinset, hmem]
  rw [hset]
  refine ((List.toFinset_sort (· ≤ ·) hnodup).mpr ?_).symm
  exact List.Pairwise.filter _ List.pairwise_le_range

theorem Systematic.undo (hsys : Systematic cfg.n cfg.k E) (hk : 0 < cfg.k) {use : List ℕ}
    (hlen : use.length = cfg.k) (hnodup : use.Nodup) (hlt : ∀ i ∈ use, i < cfg.n) :
    ∃ (rows : Fin cfg.k → Fin cfg.n) (inv : Rows), (∀ t, (rows t).val = use.getD t 0) ∧
      invertMatrix (submatrix E use) = .ok inv ∧
      toMatrix cfg.k cfg.k inv * (toMatrix cfg.n cfg.k E).submatrix rows id = 1 := by
  have hin : ∀ t < cfg.k, use.getD t 0 ∈ use := by
    intro t ht
    rw [← hlen] at ht
    rw [List.getD_eq_getElem?_getD, List.getElem?_eq_getElem ht]
    exact List.getElem_mem ht
  let rows : Fin cfg.k → Fin cfg.n := fun t => ⟨use.getD t 0, hlt _ (hin t t.isLt)⟩
  have hinj : Function.Injective rows := by
    intro t u heq
    have hval : use.getD t 0 = use.getD u 0 := congrArg Fin.val heq
    have ht : t.val < use.length := by rw [hlen]; exact t.isLt
    have hu : u.val < use.length := by rw [hlen]; exact u.isLt
    rw [List.getD_eq_getElem?_getD, List.getD_eq_getElem?_getD, List.getElem?_eq_getElem ht,
      List.getElem?_eq_getElem hu] at hval
    exact Fin.ext ((List.Nodup.getElem_inj_iff hnodup).mp hval)
  have hshape : Shaped cfg.k cfg.k (submatrix E use) := by
    refine ⟨by rw [submatrix, List.length_map, hlen], ?_⟩
    intro row hrow
    obtain ⟨i, hi, rfl⟩ := List.mem_map.mp hrow
    exact hsys.shaped.row (hlt i hi)
  have hsub : toMatrix cfg.k cfg.k (submatrix E use) =
      (toMatrix cfg.n cfg.k E).submatrix rows id := by
    ext1 t j
    simp [toMatrix, cell, submatrix, rows, List.getD_eq_getElem?_getD, hlen]
  cases invertMatrix_spec hshape hk with
  | inr hsingular =>
    rw [hsub] at hsingular
    exact absurd hsingular.2 (hsys.rows rows hinj)
  | inl hinv =>
    obtain ⟨inv, hok, -, hprod⟩ := hinv
    rw [hsub] at hprod
    exact ⟨rows, inv, fun _ => rfl, hok, hprod⟩

/-- Any `k` placed shards give `k` rows, and the data if the first `k` of them are from a
codeword. -/
theorem Placed.recovers (hsys : Systematic cfg.n cfg.k E) (hk : 0 < cfg.k) {shards : Rows}
    (hshape : Shaped cfg.n cfg.dataShardSize shards) {seen : Finset ℕ}
    {placed : List (Option (List Byte))} (h : Placed cfg shards seen placed)
    (hseen : ∀ i ∈ seen, i < cfg.n) (hcard : cfg.k ≤ seen.card) :
    let use := (presentOf placed).take cfg.k
    ∃ inv rows, invertMatrix (submatrix E use) = .ok inv ∧
      (List.range cfg.k).mapM (fun j =>
        combine cfg.k cfg.dataShardSize (cell inv j) (sourceShard placed use)) = .ok rows ∧
      Shaped cfg.k cfg.dataShardSize rows ∧
      ∀ data code, Codeword cfg E data code →
        (∀ i ∈ use, code.getD i [] = shards.getD i []) → rows = data := by
  intro use
  obtain ⟨hmem, hnodup, hcount⟩ := h.present hseen
  have huse : ∀ i ∈ use, i ∈ seen := fun i hi => (hmem i).mp (List.mem_of_mem_take hi)
  have hlen : use.length = cfg.k := by
    rw [List.length_take, hcount, Nat.min_eq_left hcard]
  obtain ⟨rows, inv, hrows, hinv, hundo⟩ := hsys.undo hk hlen
    (hnodup.sublist (List.take_sublist _ _)) fun i hi => hseen i (huse i hi)
  have hchosen : ∀ t, (rows t).val ∈ use := by
    intro t
    have ht : t.val < use.length := by rw [hlen]; exact t.isLt
    rw [hrows, List.getD_eq_getElem?_getD, List.getElem?_eq_getElem ht]
    exact List.getElem_mem _
  have hsource : ∀ t : Fin cfg.k, sourceShard placed use t = shards.getD (rows t) [] := by
    intro t
    rw [sourceShard, ← hrows, h.slots _ (rows t).isLt, if_pos (huse _ (hchosen t)),
      Option.getD_some]
  have hwidth : ∀ t < cfg.k, (sourceShard placed use t).length = cfg.dataShardSize := by
    intro t ht
    rw [hsource ⟨t, ht⟩]
    exact hshape.row (rows ⟨t, ht⟩).isLt
  obtain ⟨out, hok, hout, hprod⟩ := combineRows_spec (r := cfg.k) (cell inv) hwidth
  refine ⟨inv, out, hinv, hok, hout, ?_⟩
  intro data code hw hgenuine
  refine hout.ext hw.cut ?_
  -- The sources are the chosen rows of the codeword, and `inv` undoes them.
  have hrowsOf : (Matrix.of fun (t : Fin cfg.k) (x : Fin cfg.dataShardSize) =>
      (sourceShard placed use t).getD x 0) =
        (toMatrix cfg.n cfg.dataShardSize code).submatrix rows id := by
    ext1 t x
    rw [Matrix.of_apply, hsource, ← hgenuine _ (hchosen t)]
    rfl
  rw [hprod, hrowsOf, hw.product]
  exact SystematicCode.decode_encode hundo _

theorem reconstructShards_spec (h : Valid cfg) (hE : cachedEncodingMatrix cfg = .ok E)
    (hsys : Systematic cfg.n cfg.k E) {shards : Rows}
    (hshape : Shaped cfg.n cfg.dataShardSize shards) {seen : Finset ℕ}
    {placed : List (Option (List Byte))} (hp : Placed cfg shards seen placed)
    (hseen : ∀ i ∈ seen, i < cfg.n) (hcard : cfg.k ≤ seen.card) :
    ∃ rows parity : Rows, reconstructShards placed cfg = .ok ((rows ++ parity).map some) ∧
      rows.length = cfg.k ∧ ∀ data code, Codeword cfg E data code →
        (∀ i ∈ (presentOf placed).take cfg.k, code.getD i [] = shards.getD i []) →
          rows = data := by
  obtain ⟨-, -, hcount⟩ := hp.present hseen
  obtain ⟨inv, rows, hinv, hdata, hrows, hcode⟩ := hp.recovers hsys h.data hshape hseen hcard
  have hslot : ∀ row < cfg.n, ((placed.getD row none).getD
      (zeroShard cfg.dataShardSize)).length = cfg.dataShardSize := by
    intro row hrow
    rw [hp.slots row hrow]
    split
    · exact hshape.row hrow
    · exact List.length_replicate
  obtain ⟨parity, hok, -, -⟩ := combineRows_spec (r := cfg.n - cfg.k)
    (fun offset => cell E (cfg.k + offset)) fun j hj => hrows.row hj
  have hparity : (List.range (cfg.n - cfg.k)).mapM (fun offset => combine cfg.k
      ((placed.getD (cfg.k + offset) none).getD (zeroShard cfg.dataShardSize)).length
      (cell E (cfg.k + offset)) fun j => rows.getD j []) = .ok parity := by
    rw [← hok]
    refine mapM_congr fun offset hoffset => ?_
    have hlt := List.mem_range.mp hoffset
    rw [hslot _ (by omega)]
  refine ⟨rows, parity, ?_, hrows.length, hcode⟩
  unfold reconstructShards
  rw [hE]
  dsimp only
  rw [if_neg (by omega), hinv]
  dsimp only
  rw [hdata, hp.length]
  dsimp only
  rw [hparity]

/-- Decoding works on any shards of the right shape; what it gives is the data if the `k` with the
lowest numbers are from a codeword. -/
theorem decodeShards_spec (h : Valid cfg) (hE : cachedEncodingMatrix cfg = .ok E)
    (hsys : Systematic cfg.n cfg.k E) {shards : Rows}
    (hshape : Shaped cfg.n cfg.dataShardSize shards) {present : List (ℕ × List Byte)}
    (htaken : ∀ q ∈ present, shards[q.1]? = some q.2)
    (hcard : cfg.k ≤ (present.map (·.1)).toFinset.card) :
    ∃ rows : Rows, (∀ origLen, decodeShards present cfg origLen =
        .ok (rows.flatten.take origLen)) ∧
      ∀ data code, Codeword cfg E data code →
        (∀ i ∈ ((present.map (·.1)).toFinset.sort (· ≤ ·)).take cfg.k,
          code.getD i [] = shards.getD i []) → rows = data := by
  have hstart : Placed cfg shards ∅ (List.replicate cfg.n none) := by
    refine ⟨List.length_replicate, ?_⟩
    intro i hi
    simp [List.getD_eq_getElem?_getD, hi]
  obtain ⟨placed, hplace, hp⟩ := place_spec hshape htaken hstart
  rw [Finset.union_empty] at hp
  have hseen : ∀ i ∈ (present.map (·.1)).toFinset, i < cfg.n := by
    intro i hi
    obtain ⟨q, hq, rfl⟩ := List.mem_map.mp (List.mem_toFinset.mp hi)
    obtain ⟨hlt, -⟩ := List.getElem?_eq_some_iff.mp (htaken q hq)
    exact hshape.length ▸ hlt
  have henough : ¬ present.length < cfg.k := by
    have hle := List.toFinset_card_le (present.map (·.1))
    rw [List.length_map] at hle
    omega
  obtain ⟨rows, parity, hrec, hlen, hcode⟩ :=
    reconstructShards_spec h hE hsys hshape hp hseen hcard
  have htake : ((rows ++ parity).map some).take cfg.k = rows.map some := by
    rw [List.map_append, List.take_left' (by rw [List.length_map, hlen])]
  have hexpect : (rows.map some).mapM expectShard = .ok rows := by
    rw [mapM_ok (g := fun s => s.getD []) (by simp [expectShard])]
    simp
  rw [hp.sorted hseen] at hcode
  refine ⟨rows, ?_, hcode⟩
  intro origLen
  unfold decodeShards
  rw [h.accepted]
  dsimp only
  rw [if_neg henough, hplace]
  dsimp only
  rw [hrec]
  dsimp only
  rw [htake, hexpect]

theorem Valid.of_accepted (h : validateCfg cfg = .ok ()) : Valid cfg := by
  unfold validateCfg maxShards at h
  split at h
  · cases h
  rename_i hcfg
  split at h
  · cases h
  rename_i hn
  exact ⟨by omega, by omega, by omega, by omega⟩

theorem fits_of_placed {present : List (ℕ × List Byte)}
    {placed placed' : List (Option (List Byte))}
    (h : present.foldlM (placeShard cfg) placed = .ok placed') :
    ∀ q ∈ present, q.1 < cfg.n ∧ q.2.length = cfg.dataShardSize := by
  induction present generalizing placed with
  | nil =>
    intro q hq
    cases hq
  | cons r present ih =>
    rw [List.foldlM_cons] at h
    cases hr : placeShard cfg placed r with
    | error e =>
      rw [hr] at h
      cases h
    | ok placed₁ =>
      rw [hr] at h
      intro q hq
      cases List.mem_cons.mp hq with
      | inr hin => exact ih h q hin
      | inl heq =>
        subst heq
        unfold placeShard at hr
        split at hr
        · cases hr
        rename_i hlt
        split at hr
        · cases hr
        rename_i hlen
        exact ⟨Nat.lt_of_not_le hlt, not_not.mp hlen⟩

theorem exists_shards {present : List (ℕ × List Byte)} (hnodup : (present.map (·.1)).Nodup)
    (hfit : ∀ q ∈ present, q.1 < cfg.n ∧ q.2.length = cfg.dataShardSize) :
    ∃ shards, Shaped cfg.n cfg.dataShardSize shards ∧
      ∀ q ∈ present, shards[q.1]? = some q.2 := by
  have hrow : ∀ i, ∃ row : List Byte, row.length = cfg.dataShardSize ∧
      ∀ q ∈ present, q.1 = i → q.2 = row := by
    intro i
    by_cases hi : ∃ q ∈ present, q.1 = i
    · obtain ⟨q, hq, rfl⟩ := hi
      refine ⟨q.2, (hfit q hq).2, ?_⟩
      intro r hr heq
      rw [List.inj_on_of_nodup_map hnodup hr hq heq]
    · exact ⟨zeroShard _, List.length_replicate, fun q hq heq => absurd ⟨q, hq, heq⟩ hi⟩
  choose row hlen hsame using hrow
  refine ⟨(List.range cfg.n).map row, ⟨by simp, ?_⟩, ?_⟩
  · intro r hr
    obtain ⟨i, -, rfl⟩ := List.mem_map.mp hr
    exact hlen i
  · intro q hq
    rw [List.getElem?_map, List.getElem?_range (hfit q hq).1, Option.map_some,
      ← hsame q.1 q hq rfl]

/-- Decoding needs `k` shards, and every shard it is given in its place and of full length. -/
theorem decodeShards_ok_iff {present : List (ℕ × List Byte)} (hnodup : (present.map (·.1)).Nodup)
    (origLen : ℕ) : (decodeShards present cfg origLen).isOk = true ↔
      Valid cfg ∧ cfg.k ≤ present.length ∧
        ∀ q ∈ present, q.1 < cfg.n ∧ q.2.length = cfg.dataShardSize := by
  constructor
  · intro hok
    unfold decodeShards at hok
    split at hok
    · cases hok
    rename_i hcfg
    split at hok
    · cases hok
    rename_i hcount
    split at hok
    · cases hok
    rename_i placed hplaced
    exact ⟨Valid.of_accepted hcfg, Nat.le_of_not_lt hcount, fits_of_placed hplaced⟩
  · rintro ⟨h, hcount, hfit⟩
    obtain ⟨E, hE, hsys⟩ := h.matrix
    obtain ⟨shards, hshape, htaken⟩ := exists_shards hnodup hfit
    rw [← List.length_map (·.1), ← List.toFinset_card_of_nodup hnodup] at hcount
    obtain ⟨rows, hdecode, -⟩ := decodeShards_spec h hE hsys hshape htaken hcount
    rw [hdecode]
    rfl

theorem encodeShards_ok_iff (payload : List Byte) :
    (∃ shards, encodeShards payload cfg = .ok shards) ↔
      Valid cfg ∧ payload.length ≤ cfg.paddedLen := by
  constructor
  · rintro ⟨shards, hok⟩
    unfold encodeShards at hok
    split at hok
    · cases hok
    rename_i hcfg
    split at hok
    · cases hok
    rename_i hlen
    exact ⟨Valid.of_accepted hcfg, Nat.le_of_not_lt hlen⟩
  · rintro ⟨h, hlen⟩
    obtain ⟨E, hE, hsys⟩ := h.matrix
    obtain ⟨data, shards, hok, -, -⟩ := encodeShards_spec h hE hsys hlen
    exact ⟨shards, hok⟩

theorem encodeShards_inv {payload : List Byte} {shards : Rows}
    (hok : encodeShards payload cfg = .ok shards) :
    ∃ E data, Valid cfg ∧ cachedEncodingMatrix cfg = .ok E ∧ Systematic cfg.n cfg.k E ∧
      Codeword cfg E data shards ∧ data.flatten = padToKShards payload cfg := by
  obtain ⟨h, hlen⟩ := (encodeShards_ok_iff payload).mp ⟨shards, hok⟩
  obtain ⟨E, hE, hsys⟩ := h.matrix
  obtain ⟨data, shards', hok', hw, hflat⟩ := encodeShards_spec h hE hsys hlen
  cases hok.symm.trans hok'
  exact ⟨E, data, h, hE, hsys, hw, hflat⟩

/-- Decoding goes through on shards in order, and the `k` with the lowest numbers are shards of
the payload: then it gives the payload, whatever the others are. -/
theorem decodeShards_genuine {payload : List Byte} {code : Rows}
    (hcode : encodeShards payload cfg = .ok code) {present : List (ℕ × List Byte)}
    (hsorted : (present.map (·.1)).Pairwise (· < ·))
    (hok : (decodeShards present cfg payload.length).isOk = true)
    (hgenuine : ∀ q ∈ present.take cfg.k, code[q.1]? = some q.2) :
    decodeShards present cfg payload.length = .ok payload := by
  obtain ⟨E, data, h, hE, hsys, hw, hflat⟩ := encodeShards_inv hcode
  have hnodup : (present.map (·.1)).Nodup := hsorted.imp ne_of_lt
  obtain ⟨-, hcount, hfit⟩ := (decodeShards_ok_iff hnodup payload.length).mp hok
  obtain ⟨shards, hshape, htaken⟩ := exists_shards hnodup hfit
  have hcard : cfg.k ≤ (present.map (·.1)).toFinset.card := by
    rw [List.toFinset_card_of_nodup hnodup, List.length_map]
    exact hcount
  obtain ⟨rows, hdecode, hrows⟩ := decodeShards_spec h hE hsys hshape htaken hcard
  have hdata : rows = data := by
    refine hrows data code hw ?_
    rw [(List.toFinset_sort (· ≤ ·) hnodup).mpr (hsorted.imp le_of_lt), ← List.map_take]
    intro i hi
    obtain ⟨q, hq, rfl⟩ := List.mem_map.mp hi
    rw [List.getD_eq_getElem?_getD, List.getD_eq_getElem?_getD, hgenuine q hq,
      htaken q (List.mem_of_mem_take hq)]
  rw [hdecode, hdata, hflat, padToKShards, List.take_left' rfl]

end Codec
end ReedSolomon
end LuaDag
