import LuaDag.MacroLock
import LuaDag.Committee

/-! The signatures behind a macro QC. Partials are checked against the candidate held
when they arrive and are aggregated under its hash later; a QC is as good as the
bodies that shared the hash meanwhile. -/
namespace LuaDag
open MacroFin

/- Collected signatures. -/

theorem mem_listed {set : ValidatorSet} {bitmap : List (BitVec 8)} {e : ValidatorEntry} :
    e ∈ listed set bitmap ↔ ∃ i, set.entries[i]? = some e ∧ Bitmap.test bitmap i = true := by
  unfold listed
  rw [List.mem_map]
  constructor
  · intro h
    obtain ⟨x, hx, rfl⟩ := h
    rw [List.mem_filter, List.mem_zipIdx_iff_getElem?] at hx
    exact ⟨x.2, hx.1, hx.2⟩
  · intro h
    obtain ⟨i, hi, ht⟩ := h
    exact ⟨(e, i), List.mem_filter.mpr ⟨List.mem_zipIdx_iff_getElem?.mpr hi, ht⟩, rfl⟩

/-- The bitmap of the members with `p` lists exactly those. -/
theorem listed_indicesWhere (set : ValidatorSet) (p : ValidatorEntry → Bool) :
    listed set (Bitmap.setAll (Bitmap.zeros set.entries.length)
      (Bullshark.indicesWhere set.entries p)) = set.entries.filter p := by
  unfold listed
  rw [← Quorum.zipIdx_filter_map set.entries p]
  congr 1
  apply List.filter_congr
  intro e he
  have hget := List.mem_zipIdx_iff_getElem?.mp he
  rw [Bitmap.test_setAll_zeros]
  · have hlt := (List.getElem?_eq_some_iff.mp hget).1
    simp [Bullshark.indicesWhere, hlt]
  · intro i hi
    exact List.mem_range.mp (List.mem_filter.mp hi).1

theorem entryFor_spec {set : ValidatorSet} {v : ValidatorId} {e : ValidatorEntry}
    (h : entryFor set v = some e) : e ∈ set.entries ∧ e.id = v :=
  ⟨List.mem_of_find?_eq_some h, by simpa using List.find?_some h⟩

theorem entryFor_self {set : ValidatorSet} (hnodup : (set.entries.map (·.id)).Nodup)
    {e : ValidatorEntry} (he : e ∈ set.entries) : entryFor set e.id = some e := by
  cases hf : entryFor set e.id with
  | none =>
    have hno := List.find?_eq_none.mp hf e he
    simp at hno
  | some e' =>
    obtain ⟨he', hid⟩ := entryFor_spec hf
    rw [List.inj_on_of_nodup_map hnodup he' he hid]

theorem tryFinalizeMode0_spec {cr : Crypto} {set : ValidatorSet} {sigs : PartialSigs}
    {x : Hash32} {signers : Finset ValidatorId} {qc : MacroQc}
    (h : tryFinalizeMode0 cr set sigs x signers = some qc) :
    quorumThreshold set.entries.length ≤ signers.card ∧ ∃ ss,
      (set.entries.filter fun e => decide (e.id ∈ signers)).mapM
        (fun e => sigs[toLex (x, e.id)]?) = some ss ∧
      cr.aggregateSigs ss = some qc.agg.sig ∧
      listed set qc.agg.bitmap = set.entries.filter fun e => decide (e.id ∈ signers) := by
  unfold tryFinalizeMode0 aggregateOf at h
  dsimp only at h
  split at h
  · cases h
  split at h
  · cases h
  rename_i hcard
  refine ⟨Nat.le_of_not_lt hcard, ?_⟩
  split at h
  · cases h
  rename_i ss hss
  rw [Option.map_map] at h
  obtain ⟨agg, hagg, rfl⟩ := Option.map_eq_some_iff.mp h
  exact ⟨ss, hss, hagg, listed_indicesWhere set _⟩

theorem tryFinalizeModeA_spec {cr : Crypto} {set : ValidatorSet} {sigs : PartialSigs}
    {x : Hash32} {aggs : List SubnetAggregate} {qc : MacroQc}
    (h : tryFinalizeModeA cr set sigs x aggs = some qc) :
    quorumThreshold set.entries.length ≤
        (Bitmap.members qc.agg.bitmap set.entries.length).card ∧
      (∀ i, Bitmap.test qc.agg.bitmap i = true →
        i < set.entries.length ∧ ∃ a ∈ aggs, Bitmap.test a.agg.bitmap i = true) ∧
      ∃ ss, (listed set qc.agg.bitmap).mapM (fun e => sigs[toLex (x, e.id)]?) = some ss ∧
        cr.aggregateSigs ss = some qc.agg.sig := by
  unfold tryFinalizeModeA at h
  dsimp only at h
  split at h
  · cases h
  split at h
  · cases h
  rename_i hcount
  split at h
  · cases h
  rename_i ss hss
  obtain ⟨agg, hagg, rfl⟩ := Option.map_eq_some_iff.mp h
  have hin : ∀ i ∈ coveredIndices set aggs, i < set.entries.length ∧
      ∃ a ∈ aggs, Bitmap.test a.agg.bitmap i = true := by
    intro i hi
    obtain ⟨a, ha, hia⟩ := List.mem_flatMap.mp hi
    obtain ⟨hlt, ht⟩ := List.mem_filter.mp hia
    exact ⟨List.mem_range.mp hlt, a, ha, ht⟩
  have htest : ∀ i, Bitmap.test (Bitmap.setAll (Bitmap.zeros set.entries.length)
      (coveredIndices set aggs)) i = decide (i ∈ coveredIndices set aggs) :=
    fun i => Bitmap.test_setAll_zeros _ i _ fun j hj => (hin j hj).1
  refine ⟨?_, ?_, ss, hss, hagg⟩
  · have hones := Bitmap.countOnes_eq_card (Bitmap.setAll
        (Bitmap.zeros set.entries.length) (coveredIndices set aggs)) set.entries.length
      (by rw [Bitmap.setAll_length, Bitmap.zeros_length]; omega) (by
        intro i hi
        rw [htest, decide_eq_false_iff_not]
        intro hmem
        exact absurd (hin i hmem).1 (Nat.not_lt_of_le hi))
    rw [← hones]
    exact Nat.le_of_not_lt hcount
  · intro i hi
    have hmem := (htest i).symm.trans hi
    exact hin i (of_decide_eq_true hmem)

theorem verifyMacroQc_spec {cr : Crypto} (hsound : SoundAggregates cr) {set : ValidatorSet}
    {qc : MacroQc} {cp : MacroCheckpoint} (h : verifyMacroQc cr set qc cp = true) :
    ∀ i ∈ Bitmap.members qc.agg.bitmap set.entries.length,
      HasSigned cr set .macroCheckpoint (checkpointMessage cp) i := by
  unfold verifyMacroQc at h
  split at h
  · cases h
  split at h
  · cases h
  rename_i pks hpks
  rw [Bool.and_eq_true] at h
  intro i hi
  obtain ⟨hlt, ht⟩ := (Bitmap.mem_members _ _ _).mp hi
  have hget : set.entries[i]? = some (set.entries.get ⟨i, hlt⟩) := List.getElem?_eq_getElem hlt
  obtain ⟨pk, hpk, hkey⟩ := Quorum.exists_of_forall₂ (Quorum.forall₂_of_mapM hpks)
    (mem_listed.mpr ⟨i, hget, ht⟩)
  obtain ⟨sig, hsig⟩ := hsound pks _ _ _ h.2 pk hpk
  exact ⟨_, pk, sig, hget, hkey, hsig⟩

theorem verifySubnetAgg_spec {cr : Crypto} {set : ValidatorSet} {agg : SubnetAggregate}
    {cp : MacroCheckpoint} {sigs : PartialSigs} (h : verifySubnetAgg cr set agg cp sigs = true)
    {i : Nat} (hlt : i < set.entries.length) (ht : Bitmap.test agg.agg.bitmap i = true) :
    HasSigned cr set .macroCheckpoint (checkpointMessage cp) i := by
  unfold verifySubnetAgg at h
  split at h
  · cases h
  rename_i pks hpks
  have hget : set.entries[i]? = some (set.entries.get ⟨i, hlt⟩) := List.getElem?_eq_getElem hlt
  obtain ⟨pk, -, hkey⟩ := Quorum.exists_of_forall₂ (Quorum.forall₂_of_mapM hpks)
    (mem_listed.mpr ⟨i, hget, ht⟩)
  unfold partialKey at hkey
  split at hkey
  · cases hkey
  rename_i pk' hpk'
  split at hkey
  · cases hkey
  rename_i sig hsig
  split at hkey
  · rename_i hver
    exact ⟨_, pk', sig, hget, hpk', hver⟩
  · cases hkey

/- Where stored signatures come from. -/

def SignedBy (cr : Crypto) (set : ValidatorSet) (cp : MacroCheckpoint) (v : ValidatorId)
    (sig : BlsSig) : Prop :=
  ∃ pk, VertexCert.pkFor cr set v = some pk ∧
    cr.verify pk .macroCheckpoint (checkpointMessage cp) sig = true

/-- The host serves the set `set`, which lists this node under the key that its signer
answers the requests of the call with. -/
structure OwnPorts (cr : Crypto) (set : ValidatorSet) (node : ValidatorId) (call : NodeCall) :
    Prop where
  serves : ∀ s, activeSet call.ctx = .ok s → s = set
  key : ∃ pk, VertexCert.pkFor cr set node = some pk ∧
    ∀ r ∈ (StateMachine.exec cr call.input call.pre).signed,
      cr.verify pk r.1 r.2 (call.ctx.signBls r.1 r.2) = true

/-- Everything stored under a hash not yet adopted is a valid signature on a body
with that hash and the property `B`. -/
structure SignerInv (cr : Crypto) (set : ValidatorSet) (node : ValidatorId)
    (B : MacroCheckpoint → Prop) (c : MacroCore) : Prop where
  selfId : c.selfId = node
  stored : ∀ (x : Hash32) (v : ValidatorId) (sig : BlsSig), x ∉ c.emittedMacroQc →
    c.partialSigs[toLex (x, v)]? = some sig → ∃ cp, B cp ∧ cp.hash = x ∧ SignedBy cr set cp v sig
  covered : ∀ x, x ∉ c.emittedMacroQc → ∀ a ∈ c.aggsOf x, ∀ i < set.entries.length,
    Bitmap.test a.agg.bitmap i = true →
    ∃ cp, B cp ∧ cp.hash = x ∧ HasSigned cr set .macroCheckpoint (checkpointMessage cp) i
  signer : ∀ (x : Hash32) (v : ValidatorId), v ∈ c.signersOf x →
    v = node ∨ (c.partialSigs[toLex (x, v)]?).isSome = true

theorem isSome_insert {sigs : PartialSigs} {k k' : Hash32 ×ₗ ValidatorId} (sig : BlsSig)
    (h : (sigs[k]?).isSome = true) : ((sigs.insert k' sig)[k]?).isSome = true := by
  rw [Maps.get_insert]
  split
  · rfl
  · exact h

theorem mem_aggsOf_insert {c : MacroCore} {agg a : SubnetAggregate} {x y : Hash32}
    (h : a ∈ MacroCore.aggsOf { c with
      subnetAggs := c.subnetAggs.insert y ((c.subnetAggs[y]?.getD ∅).insert agg.subnet agg) } x) :
    a ∈ c.aggsOf x ∨ x = y ∧ a = agg := by
  unfold MacroCore.aggsOf at h ⊢
  dsimp only at h
  rw [Maps.get_insert] at h
  split at h
  · rename_i heq
    subst heq
    obtain ⟨⟨k, v⟩, hkv, rfl⟩ := List.mem_map.mp h
    rw [Option.getD_some, Maps.mem_toList, Maps.get_insert] at hkv
    split at hkv
    · cases hkv
      exact Or.inr ⟨rfl, rfl⟩
    · exact Or.inl (List.mem_map.mpr ⟨(k, v), (Maps.mem_toList _ k v).mpr hkv, rfl⟩)
  · exact Or.inl h

theorem mem_signersOf_insert {c : MacroCore} {x y : Hash32} {v w : ValidatorId}
    (h : w ∈ MacroCore.signersOf { c with
      partials := c.partials.insert y (insert v (c.signersOf y)) } x) :
    w ∈ c.signersOf x ∨ x = y ∧ w = v := by
  unfold MacroCore.signersOf at h ⊢
  dsimp only at h
  rw [Maps.get_insert] at h
  split at h
  · rename_i heq
    subst heq
    cases Finset.mem_insert.mp h with
    | inl hv => exact Or.inr ⟨rfl, hv⟩
    | inr hold => exact Or.inl hold
  · exact Or.inl h

theorem verifyPartial_spec {cr : Crypto} {set : ValidatorSet} {bp : BlsPartial}
    {cp : MacroCheckpoint} (h : verifyPartial cr set bp cp = true) :
    SignedBy cr set cp bp.validator bp.sig := by
  unfold verifyPartial at h
  split at h
  · cases h
  split at h
  · cases h
  rename_i pk hpk
  exact ⟨pk, hpk, h⟩

section Signers
variable {cr : Crypto} {set : ValidatorSet} {self : ValidatorId} {B : MacroCheckpoint → Prop}

/-- Storing a valid signature on an acceptable body. -/
theorem SignerInv.store {c : MacroCore} (hinv : SignerInv cr set self B c)
    {cp : MacroCheckpoint} {v : ValidatorId} {sig : BlsSig}
    (hB : cp.hash ∉ c.emittedMacroQc → B cp) (hsig : SignedBy cr set cp v sig) :
    SignerInv cr set self B
      { c with partialSigs := c.partialSigs.insert (toLex (cp.hash, v)) sig } := by
  refine ⟨hinv.selfId, ?_, hinv.covered, ?_⟩
  · intro x w s hx hget
    simp only [Maps.get_insert] at hget
    split at hget
    · rename_i heq
      cases heq
      cases hget
      exact ⟨cp, hB hx, rfl, hsig⟩
    · exact hinv.stored x w s hx hget
  · intro x w hw
    cases hinv.signer x w hw with
    | inl hself => exact Or.inl hself
    | inr hsome => exact Or.inr (isSome_insert sig hsome)

theorem signerInv_move {call : NodeCall} {c d : MacroCore} {sg : List SignReq}
    {acts : List Action} (hports : OwnPorts cr set self call)
    (hB : ∀ (h : Height) (cp : MacroCheckpoint), c.candidate[h]? = some cp →
      cp.hash ∉ c.emittedMacroQc → B cp)
    (hsg : ∀ r ∈ sg, r ∈ (StateMachine.exec cr call.input call.pre).signed)
    (hm : Move cr call c sg acts d) (hinv : SignerInv cr set self B c) :
    SignerInv cr set self B d := by
  cases hm with
  | announce height cp subnet hc hlock =>
    obtain ⟨pk, hpk, hver⟩ := hports.key
    rw [← hinv.selfId] at hpk
    exact hinv.store (hB height cp hc) ⟨pk, hpk, hver _ (hsg _ (List.mem_singleton.mpr rfl))⟩
  | storePartial s height cp bp hset hc hbp =>
    have hs := hports.serves s hset
    subst hs
    exact hinv.store (hB height cp hc) (verifyPartial_spec hbp)
  | addSigner x v hv =>
    refine ⟨hinv.selfId, hinv.stored, hinv.covered, ?_⟩
    intro y w hw
    cases mem_signersOf_insert hw with
    | inl hold => exact hinv.signer y w hold
    | inr heq =>
      obtain ⟨rfl, rfl⟩ := heq
      cases hv with
      | inl hself => exact Or.inl (hself.trans hinv.selfId)
      | inr hsome => exact Or.inr hsome
  | storeAggregate s height cp agg hset hc hagg hv =>
    have hs := hports.serves s hset
    subst hs
    refine ⟨hinv.selfId, hinv.stored, ?_, hinv.signer⟩
    intro x hx a ha i hi ht
    cases mem_aggsOf_insert ha with
    | inl hold => exact hinv.covered x hx a hold i hi ht
    | inr heq =>
      obtain ⟨rfl, rfl⟩ := heq
      exact ⟨cp, hB height cp hc hx, rfl, verifySubnetAgg_spec hv hi ht⟩
  | _ => exact ⟨hinv.selfId, hinv.stored, hinv.covered, hinv.signer⟩

theorem signerInv_adopted {c : MacroCore} {height : Height} {cand : MacroCheckpoint}
    (hinv : SignerInv cr set self B c) : SignerInv cr set self B (c.adopted height cand) := by
  refine ⟨hinv.selfId, ?_, ?_, hinv.signer⟩
  · intro x v sig hx hget
    exact hinv.stored x v sig (fun h => hx (Finset.mem_insert_of_mem h)) hget
  · intro x hx a ha
    exact hinv.covered x (fun h => hx (Finset.mem_insert_of_mem h)) a ha

theorem signerInv_init (self : ValidatorId) :
    SignerInv cr set self B (MacroBook.new self).core := by
  refine ⟨rfl, ?_, ?_, ?_⟩
  · intro x v sig _ hget
    simp [MacroBook.new, MacroBook.core] at hget
  · intro x _ a ha
    simp [MacroBook.new, MacroBook.core, MacroCore.aggsOf] at ha
  · intro x v hv
    simp [MacroBook.new, MacroBook.core, MacroCore.signersOf] at hv

theorem flat_signer {c : MacroCore} (hinv : SignerInv cr set self B c) {x : Hash32}
    (hx : x ∉ c.emittedMacroQc) {pk : PublicKey} (hself : VertexCert.pkFor cr set self = some pk)
    {ss : List BlsSig}
    (hss : (set.entries.filter fun e => decide (e.id ∈ c.signersOf x)).mapM
      (fun e => c.partialSigs[toLex (x, e.id)]?) = some ss)
    {v : ValidatorId} (hv : v ∈ c.signersOf x) :
    ∃ cp sig, B cp ∧ cp.hash = x ∧ SignedBy cr set cp v sig := by
  have hsome : (c.partialSigs[toLex (x, v)]?).isSome = true := by
    cases hinv.signer x v hv with
    | inr h => exact h
    | inl hvs =>
      obtain ⟨e, he, -⟩ := Option.bind_eq_some_iff.mp hself
      obtain ⟨hmem, hid⟩ := entryFor_spec he
      have hin : e ∈ set.entries.filter fun e => decide (e.id ∈ c.signersOf x) := by
        rw [List.mem_filter, hid, ← hvs]
        exact ⟨hmem, decide_eq_true hv⟩
      obtain ⟨sig, -, hsig⟩ := Quorum.exists_of_forall₂ (Quorum.forall₂_of_mapM hss) hin
      rw [hvs, ← hid, hsig]
      rfl
  obtain ⟨sig, hsig⟩ := Option.isSome_iff_exists.mp hsome
  obtain ⟨cp, hB, hh, hby⟩ := hinv.stored x v sig hx hsig
  exact ⟨cp, sig, hB, hh, hby⟩

def QuorumOn (cr : Crypto) (set : ValidatorSet) (B : MacroCheckpoint → Prop) (x : Hash32) :
    Prop :=
  ∃ A ⊆ Finset.range set.entries.length, quorumThreshold set.entries.length ≤ A.card ∧
    ∀ i ∈ A, ∃ cp, B cp ∧ cp.hash = x ∧
      HasSigned cr set .macroCheckpoint (checkpointMessage cp) i

theorem flat_quorum {c : MacroCore} (hinv : SignerInv cr set self B c) {x : Hash32}
    (hx : x ∉ c.emittedMacroQc) {pk : PublicKey} (hself : VertexCert.pkFor cr set self = some pk)
    {qc : MacroQc} (h : tryFinalizeMode0 cr set c.partialSigs x (c.signersOf x) = some qc) :
    QuorumOn cr set B x := by
  obtain ⟨hcard, ss, hss, -, -⟩ := tryFinalizeMode0_spec h
  let place (v : ValidatorId) : Nat := set.entries.findIdx (·.id = v)
  have hplace : ∀ v ∈ c.signersOf x, ∃ cp e pk sig, B cp ∧ cp.hash = x ∧ e.id = v ∧
      set.entries[place v]? = some e ∧ cr.pkFromBytes e.blsPubkey = some pk ∧
      cr.verify pk .macroCheckpoint (checkpointMessage cp) sig = true := by
    intro v hv
    obtain ⟨cp, sig, hB, hh, pk, hpk, hver⟩ := flat_signer hinv hx hself hss hv
    obtain ⟨e, he, hkey⟩ := Option.bind_eq_some_iff.mp hpk
    have hid := (entryFor_spec he).2
    rw [entryFor, List.find?_eq_getElem?_findIdx] at he
    exact ⟨cp, e, pk, sig, hB, hh, hid, he, hkey, hver⟩
  have hinj : Set.InjOn place (c.signersOf x) := by
    intro v hv w hw heq
    obtain ⟨-, e, -, -, -, -, hid, he, -⟩ := hplace v hv
    obtain ⟨-, e', -, -, -, -, hid', he', -⟩ := hplace w hw
    rw [heq] at he
    rw [← hid, ← hid', Option.some.inj (he.symm.trans he')]
  refine ⟨(c.signersOf x).image place, ?_, ?_, ?_⟩
  · intro i hi
    obtain ⟨v, hv, rfl⟩ := Finset.mem_image.mp hi
    obtain ⟨-, e, -, -, -, -, -, he, -⟩ := hplace v hv
    exact Finset.mem_range.mpr (List.getElem?_eq_some_iff.mp he).1
  · rw [Finset.card_image_of_injOn hinj]
    exact hcard
  · intro i hi
    obtain ⟨v, hv, rfl⟩ := Finset.mem_image.mp hi
    obtain ⟨cp, e, pk, sig, hB, hh, -, he, hkey, hver⟩ := hplace v hv
    exact ⟨cp, hB, hh, e, pk, sig, he, hkey, hver⟩

theorem subnet_quorum {c : MacroCore} (hinv : SignerInv cr set self B c) {x : Hash32}
    (hx : x ∉ c.emittedMacroQc) {qc : MacroQc}
    (h : tryFinalizeModeA cr set c.partialSigs x (c.aggsOf x) = some qc) :
    QuorumOn cr set B x := by
  obtain ⟨hcard, hcov, -⟩ := tryFinalizeModeA_spec h
  refine ⟨_, Finset.filter_subset _ _, hcard, ?_⟩
  intro i hi
  obtain ⟨hlt, ht⟩ := (Bitmap.mem_members _ _ _).mp hi
  obtain ⟨-, a, ha, hta⟩ := hcov i ht
  exact hinv.covered x hx a ha i hlt hta

def thinQc (cr : Crypto) (call : NodeCall) : Bool :=
  match call.event, activeSet call.ctx with
  | some (.macroQcReceived qc), .ok set =>
    decide (qc.checkpointHash ∉ call.pre.macros.emittedMacroQc) &&
      (call.pre.macros.candidate.toList.any fun c => verifyMacroQc cr set qc c.2) &&
      decide ((Bitmap.members qc.agg.bitmap set.entries.length).card <
        quorumThreshold set.entries.length)
  | _, _ => false

/-- Every adopted QC has a quorum behind it, once no received QC is thin. -/
theorem backing_quorum {call : NodeCall} {c : MacroCore} {cand : MacroCheckpoint}
    {height : Height} {qc : MacroQc} {own : Bool} (hsound : SoundAggregates cr)
    (hports : OwnPorts cr set self call) (hgood : thinQc cr call = false)
    (hset : activeSet call.ctx = .ok set) (hpre : c.spine = call.pre.macros.core.spine)
    (hc : c.candidate[height]? = some cand) (hnew : cand.hash ∉ c.emittedMacroQc) (hB : B cand)
    (hinv : SignerInv cr set self B c) (hqc : Backing cr call set c cand qc own) :
    QuorumOn cr set B cand.hash := by
  obtain ⟨pk, hpk, -⟩ := hports.key
  cases hqc with
  | flat qc mode h => exact flat_quorum hinv hnew hpk h
  | subnet qc h => exact subnet_quorum hinv hnew h
  | received qc hev h =>
    refine ⟨Bitmap.members qc.agg.bitmap set.entries.length, Finset.filter_subset _ _, ?_,
      fun i hi => ⟨cand, hB, rfl, verifyMacroQc_spec hsound h i hi⟩⟩
    have hem : c.emittedMacroQc = call.pre.macros.emittedMacroQc :=
      congrArg MacroCore.emittedMacroQc hpre
    have hcand : c.candidate = call.pre.macros.candidate := congrArg MacroCore.candidate hpre
    rw [← verifyMacroQc_hash h, hem] at hnew
    rw [hcand] at hc
    have hany : (call.pre.macros.candidate.toList.any fun e => verifyMacroQc cr set qc e.2) =
        true := by
      rw [List.any_eq_true]
      exact ⟨(height, cand), (Maps.mem_toList _ _ _).mpr hc, h⟩
    simpa [thinQc, hev, hset, hnew, hany] using hgood

end Signers

/- Candidates built here. -/

def IsBuilt (cr : Crypto) (cp : MacroCheckpoint) : Prop :=
  ∃ h parent root, cp = build cr h 0 parent root

theorem IsBuilt.eq_of_hash {cr : Crypto} (hinj : HashInjective cr) {cp cp' : MacroCheckpoint}
    (h : IsBuilt cr cp) (h' : IsBuilt cr cp') (hh : cp.hash = cp'.hash) : cp = cp' := by
  obtain ⟨k, p, r, rfl⟩ := h
  obtain ⟨k', p', r', rfl⟩ := h'
  obtain ⟨rfl, -, rfl, rfl⟩ := hinj _ _ _ _ _ _ _ _ hh
  rfl

/-- The node accepts a proposal for the next height whose body differs from its
candidate: the hash and the micro root agree, so the epoch was changed. -/
def forgedBody (cr : Crypto) (call : NodeCall) : Bool :=
  match call.event with
  | some (.macroProposalReceived p) =>
    accepts cr call.pre.cfg call.ctx p call.pre.macros &&
      decide (p.checkpoint.height = call.pre.macros.nextHeight) &&
      decide (call.pre.macros.candidate[p.checkpoint.height]? ≠ some p.checkpoint)
  | _ => false

def PendingBuilt (cr : Crypto) (c : MacroCore) : Prop :=
  ∀ cp, c.candidate[c.nextHeight]? = some cp → IsBuilt cr cp

theorem pendingBuilt_move {cr : Crypto} {call : NodeCall} {c d : MacroCore}
    {sg : List SignReq} {acts : List Action} (hgood : forgedBody cr call = false)
    (hm : Move cr call c sg acts d) (hinv : PendingBuilt cr c) : PendingBuilt cr d := by
  cases hm with
  | window root =>
    intro cp hcp
    simp only [Maps.get_insert, if_pos] at hcp
    cases hcp
    exact ⟨_, _, _, rfl⟩
  | recordVote p old locks hev hacc hpre hparent hold hroot hhash hlock =>
    intro cp hcp
    simp only [Maps.get_insert] at hcp
    split at hcp
    · rename_i heq
      cases hcp
      have hnext : c.nextHeight = call.pre.macros.nextHeight := congrArg MacroCore.nextHeight hpre
      have hcand : c.candidate = call.pre.macros.candidate := congrArg MacroCore.candidate hpre
      have hsame : call.pre.macros.candidate[p.checkpoint.height]? = some p.checkpoint := by
        simpa [forgedBody, hev, hacc, heq, hnext] using hgood
      apply hinv
      rw [hcand, ← heq]
      exact hsame
    · exact hinv cp hcp
  | _ => exact hinv

theorem pendingBuilt_adopted {cr : Crypto} {ps : List MacroCheckpoint} {c : MacroCore}
    {height : Height} {cand : MacroCheckpoint} (hchain : ChainInv ps c)
    (hc : c.candidate[height]? = some cand) (hnew : cand.hash ∉ c.emittedMacroQc) :
    PendingBuilt cr (c.adopted height cand) := by
  intro cp hcp
  have hle := (hchain.height _ cp hcp).2
  rw [hchain.adopts_next hc hnew] at hle
  exact absurd hle (Nat.not_succ_le_self _)

theorem PendingBuilt.of_new {cr : Crypto} {ps : List MacroCheckpoint} {c : MacroCore}
    (hinv : PendingBuilt cr c) (hchain : ChainInv ps c) (h : Height) (cp : MacroCheckpoint)
    (hc : c.candidate[h]? = some cp) (hnew : cp.hash ∉ c.emittedMacroQc) : IsBuilt cr cp :=
  hinv cp (hchain.adopts_next hc hnew ▸ hc)

section Runs
variable {cr : Crypto} {set : ValidatorSet} {self : ValidatorId}

def SignerHistory (cr : Crypto) (set : ValidatorSet) (self : ValidatorId) (log : List SignReq)
    (as : List Action) (c : MacroCore) : Prop :=
  ChainHistory log as c ∧ PendingBuilt cr c ∧ SignerInv cr set self (IsBuilt cr) c

theorem signerHistory_kept {call : NodeCall} (hports : OwnPorts cr set self call)
    (hgood : forgedBody cr call = false) : KeptBy cr (SignerHistory cr set self) call where
  move := fun log as _ _ _ _ hsg hm h =>
    ⟨(chainHistory_kept cr call).move log as _ _ _ _ hsg hm h.1, pendingBuilt_move hgood hm h.2.1,
      signerInv_move hports (h.2.1.of_new h.1.1) hsg hm h.2.2⟩
  other := fun log as _ sg hsg h => ⟨(chainHistory_kept cr call).other log as _ sg hsg h.1, h.2⟩

theorem signerHistory_adopt {call : NodeCall} {log : List SignReq} {as : List Action}
    {c d : MacroCore} {acts : List Action} (h : SignerHistory cr set self log as c)
    (ha : Adopt cr call c acts d) : SignerHistory cr set self log (as ++ adoptionsIn acts) d := by
  refine ⟨chainHistory_adopt h.1 ha, ?_⟩
  cases ha with
  | mk set height cand qc own leak hset hpre hnew hc hnames hqc hleak =>
    exact ⟨pendingBuilt_adopted h.1.1 hc hnew, signerInv_adopted h.2.2⟩

theorem signerHistory_init (self : ValidatorId) :
    SignerHistory cr set self [] [] (MacroBook.new self).core := by
  refine ⟨⟨chainInv_init self, rfl⟩, ?_, signerInv_init self⟩
  intro cp hcp
  simp [MacroBook.new, MacroBook.core] at hcp

/-- An action of an adoption comes from one in a state where the history holds. -/
theorem run_adoption {cfg : Config} {is : List StateMachine.Input}
    (hports : ∀ call ∈ StateMachine.run cr cfg self is, OwnPorts cr set self call)
    (hgood : ∀ call ∈ StateMachine.run cr cfg self is, forgedBody cr call = false)
    {call : NodeCall} (hcall : call ∈ StateMachine.run cr cfg self is) {a : Action}
    (hact : a ∈ (StateMachine.exec cr call.input call.pre).actions) (ha : a.isAdoption = true) :
    ∃ log as c d acts, SignerHistory cr set self log as c ∧ Adopt cr call c acts d ∧ a ∈ acts ∧
      persistedCheckpoints (StateMachine.exec cr call.input call.pre).actions =
        persistedCheckpoints acts := by
  obtain ⟨log, as, hinv⟩ := run_invariant_at
    (fun call => OwnPorts cr set self call ∧ forgedBody cr call = false)
    (fun _ hg => signerHistory_kept hg.1 hg.2) (fun _ _ _ _ _ _ _ => signerHistory_adopt) cfg self
    (signerHistory_init self) is (fun c hc => ⟨hports c hc, hgood c hc⟩) call hcall
  have hin : a ∈ adoptionsIn (StateMachine.exec cr call.input call.pre).actions :=
    List.mem_filter.mpr ⟨hact, ha⟩
  cases (signerHistory_kept (hports call hcall) (hgood call hcall)).call _ _ hinv with
  | inl hno =>
    rw [hno.2] at hin
    cases hin
  | inr hsome =>
    obtain ⟨c, acts, hc, hadopt, heq⟩ := hsome
    rw [heq] at hin
    refine ⟨_, _, c, _, acts, hc, hadopt, (List.mem_filter.mp hin).1, ?_⟩
    rw [← persistedCheckpoints_adoptionsIn, heq, persistedCheckpoints_adoptionsIn]

def HasQuorum (cr : Crypto) (set : ValidatorSet) (cp : MacroCheckpoint) : Prop :=
  ∃ A ⊆ Finset.range set.entries.length, 2 * ((set.entries.length - 1) / 3) + 1 ≤ A.card ∧
    ∀ i ∈ A, HasSigned cr set .macroCheckpoint (checkpointMessage cp) i

def QuorumBehind (cr : Crypto) (set : ValidatorSet) (acts : List Action) : Prop :=
  ∀ qc, Action.persistMacroQc qc ∈ acts → ∃ cp, persistedCheckpoints acts = [cp] ∧
    cp.hash = qc.checkpointHash ∧ HasQuorum cr set cp

/-- Throughout a run, every persisted QC has a quorum behind it. -/
def PersistsWithQuorum (cr : Crypto) (cfg : Config) (set : ValidatorSet) (self : ValidatorId)
    (is : List StateMachine.Input) : Prop :=
  ∀ call ∈ StateMachine.run cr cfg self is,
    QuorumBehind cr set (StateMachine.exec cr call.input call.pre).actions

theorem QuorumOn.has_quorum (hinj : HashInjective cr) {cp : MacroCheckpoint}
    (hcp : IsBuilt cr cp) (h : QuorumOn cr set (IsBuilt cr) cp.hash) : HasQuorum cr set cp := by
  obtain ⟨A, hA, hcard, hsigned⟩ := h
  refine ⟨A, hA, hcard, ?_⟩
  intro i hi
  obtain ⟨q, hq, hh, hs⟩ := hsigned i hi
  rwa [hq.eq_of_hash hinj hcp hh] at hs

end Runs

/-- A node that adopts no thin QC and accepts no forged body persists only macro QCs
that a quorum has signed. -/
theorem persisted_qc_has_quorum (cr : Crypto) (hinj : HashInjective cr)
    (hsound : SoundAggregates cr) (cfg : Config) (set : ValidatorSet) (self : ValidatorId)
    (is : List StateMachine.Input)
    (hports : ∀ call ∈ StateMachine.run cr cfg self is, OwnPorts cr set self call)
    (hgood : ∀ call ∈ StateMachine.run cr cfg self is,
      thinQc cr call = false ∧ forgedBody cr call = false) :
    PersistsWithQuorum cr cfg set self is := by
  intro call hcall qc hqc
  obtain ⟨log, as, c, d, acts, hist, hadopt, hmem, heq⟩ :=
    run_adoption hports (fun c hc => (hgood c hc).2) hcall hqc rfl
  rw [heq]
  cases hadopt with
  | mk s height cand q own leak hset hpre hnew hc hnames hback hleak =>
    have hp := persisted_of_adoption c cand q own leak hleak (c.twoChain.adopt cand)
    have hsame : qc = q := by
      have hq : qc ∈ persistedQcs _ := List.mem_filterMap.mpr ⟨_, hmem, rfl⟩
      rw [hp.2] at hq
      exact List.mem_singleton.mp hq
    have hs := (hports call hcall).serves s hset
    subst hs
    have hbuilt := hist.2.1.of_new hist.1.1 height cand hc hnew
    refine ⟨cand, hp.1, by rw [hsame, backing_hash hback], ?_⟩
    exact QuorumOn.has_quorum hinj hbuilt (backing_quorum hsound (hports call hcall)
      (hgood call hcall).1 hset hpre hc hnew hbuilt hist.2.2 hback)

/- The devnet's hosts. -/
namespace Devnet

theorem pkFor_member (recorded : Nat → Dst → Bytes → Bool) {i : Nat} (hi : i < 4) :
    VertexCert.pkFor (crypto recorded) validators ⟨i⟩ = some ⟨i⟩ := by
  have hall : ∀ j : Fin 4, VertexCert.pkFor (crypto fun _ _ _ => false) validators ⟨j.val⟩ =
      some ⟨j.val⟩ := by decide
  exact hall ⟨i, hi⟩

/-- A member whose requests are all on record runs with its own ports. -/
theorem ownPorts {recorded : Nat → Dst → Bytes → Bool} {i : Nat} (hi : i < 4)
    {es : List (Round × Event)}
    (hrec : ∀ r ∈ StateMachine.signLog (crypto recorded) config ⟨i⟩ (script i es),
      recorded i r.1 r.2 = true) :
    ∀ call ∈ StateMachine.run (crypto recorded) config ⟨i⟩ (script i es),
      OwnPorts (crypto recorded) validators ⟨i⟩ call := by
  intro call hcall
  obtain ⟨js, ks, hjs, -⟩ := Trace.mem_calls _ hcall
  have hmem : call.input ∈ script i es := by
    rw [hjs]
    simp
  obtain ⟨e, -, he⟩ := List.mem_map.mp hmem
  have hctx : NodeCall.ctx call = ports i e.1 := by
    rw [NodeCall.ctx, ← he]
  refine ⟨?_, ⟨i⟩, pkFor_member recorded hi, ?_⟩
  · intro s hs
    rw [hctx] at hs
    cases hs
    rfl
  · intro r hr
    have hlog := hrec r (List.mem_flatMap.mpr ⟨call, hcall, hr⟩)
    rw [hctx]
    simp [crypto, ports, hlog]

theorem recorded_of_hasSigned {recorded : Nat → Dst → Bytes → Bool} {dst : Dst} {msg : Bytes}
    {i : Nat} (h : HasSigned (crypto recorded) validators dst msg i) :
    recorded i dst msg = true := by
  obtain ⟨e, pk, sig, he, hpk, hsig⟩ := h
  have hkey : e.blsPubkey.val = i := by
    have hlt := (List.getElem?_eq_some_iff.mp he).1
    have hall : ∀ j : Fin 4, ∀ e', validators.entries[j.val]? = some e' →
        e'.blsPubkey.val = j.val := by decide
    exact hall ⟨i, hlt⟩ e he
  cases hpk
  rw [hkey] at hsig
  simp only [crypto, Bool.and_eq_true] at hsig
  exact hsig.2

end Devnet

section Devnet
open Devnet

def adoptionRecords : List Record := partialsBy [0, 1, 3] a0

theorem persisted_qc_has_quorum_devnet :
    PersistsWithQuorum (crypto (recordedIn adoptionRecords)) config validators ⟨2⟩
      (script 2 [closesWave 1, qcReceived [0, 1, 3] a0.hash]) :=
  persisted_qc_has_quorum _ (hashInjective _) (soundAggregates _) _ _ _ _
    (ownPorts (by decide) (by decide)) (by decide)

/-- One signature of one member is enough for a received QC. -/
theorem qc_without_quorum :
    SoundAggregates (crypto (recordedIn (partialsBy [0] a0))) ∧
    (∀ call ∈ StateMachine.run (crypto (recordedIn (partialsBy [0] a0))) config ⟨2⟩
        (script 2 [closesWave 1, qcReceived [0] a0.hash]),
      OwnPorts (crypto (recordedIn (partialsBy [0] a0))) validators ⟨2⟩ call) ∧
    ¬ PersistsWithQuorum (crypto (recordedIn (partialsBy [0] a0))) config validators ⟨2⟩
      (script 2 [closesWave 1, qcReceived [0] a0.hash]) := by
  refine ⟨soundAggregates _, ownPorts (by decide) (by decide), ?_⟩
  intro h
  let adopting : NodeCall :=
    ⟨StateMachine.reached (crypto (recordedIn (partialsBy [0] a0))) config ⟨2⟩
      (script 2 [closesWave 1]), (.event (qcReceived [0] a0.hash).2, ports 2 0)⟩
  have hmem : adopting ∈ StateMachine.run (crypto (recordedIn (partialsBy [0] a0))) config ⟨2⟩
      (script 2 [closesWave 1, qcReceived [0] a0.hash]) :=
    List.mem_cons_of_mem _ (List.mem_singleton.mpr rfl)
  obtain ⟨cp, hcp, -, A, hA, hcard, hsigned⟩ :=
    h adopting hmem (qcBy [0] a0.hash) (by decide)
  have ha0 : cp = a0 := by
    have hps : persistedCheckpoints (StateMachine.exec (crypto (recordedIn (partialsBy [0] a0)))
        adopting.input adopting.pre).actions = [a0] := by decide
    exact List.singleton_injective (hcp.symm.trans hps)
  have honly : A ⊆ {0} := by
    intro i hi
    have hrec := recorded_of_hasSigned (hsigned i hi)
    rw [ha0] at hrec
    simpa [recordedIn, partialsBy] using hrec
  have hle := Finset.card_le_card honly
  rw [Finset.card_singleton] at hle
  exact absurd (hcard.trans hle) (by decide)

end Devnet

/- QCs assembled here. -/

section Assembled
variable {cr : Crypto} {set : ValidatorSet} {self : ValidatorId}

theorem verify_of_stored (hinj : HashInjective cr) (hcomplete : CompleteAggregates cr)
    (hnodup : (set.entries.map (·.id)).Nodup) {c : MacroCore} {cand : MacroCheckpoint}
    (hinv : SignerInv cr set self (IsBuilt cr) c) (hnew : cand.hash ∉ c.emittedMacroQc)
    (hbuilt : IsBuilt cr cand) {qc : MacroQc} (hhash : qc.checkpointHash = cand.hash)
    (hne : listed set qc.agg.bitmap ≠ []) {ss : List BlsSig}
    (hss : (listed set qc.agg.bitmap).mapM (fun e => c.partialSigs[toLex (cand.hash, e.id)]?) =
      some ss)
    (hagg : cr.aggregateSigs ss = some qc.agg.sig) : verifyMacroQc cr set qc cand = true := by
  have hmem : ∀ e ∈ listed set qc.agg.bitmap, e ∈ set.entries := by
    intro e he
    obtain ⟨i, hi, -⟩ := mem_listed.mp he
    exact List.mem_of_getElem? hi
  have hvalid : List.Forall₂ (fun e sig => ∃ pk, cr.pkFromBytes e.blsPubkey = some pk ∧
      cr.verify pk .macroCheckpoint (checkpointMessage cand) sig = true)
      (listed set qc.agg.bitmap) ss := by
    refine List.Forall₂.imp ?_ ((List.forall₂_and_left _ _).mpr
      ⟨hmem, Quorum.forall₂_of_mapM hss⟩)
    intro e sig h
    obtain ⟨cp, hcp, hh, pk, hpk, hver⟩ := hinv.stored _ _ _ hnew h.2
    rw [hcp.eq_of_hash hinj hbuilt hh] at hver
    unfold VertexCert.pkFor at hpk
    rw [entryFor_self hnodup h.1] at hpk
    exact ⟨pk, hpk, hver⟩
  obtain ⟨pks, hpks, hvers⟩ := Quorum.mapM_of_forall₂ hvalid
  have hpne : pks ≠ [] := by
    intro hnil
    subst hnil
    have hlen := (Quorum.forall₂_of_mapM hpks).length_eq
    exact hne (List.length_eq_zero_iff.mp hlen)
  have hver := hcomplete pks ss _ _ _ hpne hvers hagg
  simp [verifyMacroQc, hhash, hpks, hpne, hver]

theorem assembled_verifies (hinj : HashInjective cr) (hcomplete : CompleteAggregates cr)
    (hnodup : (set.entries.map (·.id)).Nodup) {call : NodeCall} {c : MacroCore}
    {cand : MacroCheckpoint} (hports : OwnPorts cr set self call)
    (hinv : SignerInv cr set self (IsBuilt cr) c) (hnew : cand.hash ∉ c.emittedMacroQc)
    (hbuilt : IsBuilt cr cand) {qc : MacroQc} (hqc : Backing cr call set c cand qc true) :
    verifyMacroQc cr set qc cand = true := by
  have hhash := backing_hash hqc
  obtain ⟨pk, hpk, -⟩ := hports.key
  cases hqc with
  | flat qc mode h =>
    obtain ⟨hcard, ss, hss, hagg, hlist⟩ := tryFinalizeMode0_spec h
    have hne : listed set qc.agg.bitmap ≠ [] := by
      obtain ⟨v, hv⟩ := Finset.card_pos.mp (Nat.lt_of_lt_of_le (Nat.succ_pos _) hcard)
      obtain ⟨cp, sig, -, -, key, hkey, -⟩ := flat_signer hinv hnew hpk hss hv
      obtain ⟨e, he, -⟩ := Option.bind_eq_some_iff.mp hkey
      obtain ⟨hmem, hid⟩ := entryFor_spec he
      rw [hlist]
      exact List.ne_nil_of_mem (List.mem_filter.mpr ⟨hmem, decide_eq_true (hid ▸ hv)⟩)
    exact verify_of_stored hinj hcomplete hnodup hinv hnew hbuilt hhash hne (hlist ▸ hss) hagg
  | subnet qc h =>
    obtain ⟨hcard, -, ss, hss, hagg⟩ := tryFinalizeModeA_spec h
    have hne : listed set qc.agg.bitmap ≠ [] := by
      obtain ⟨i, hi⟩ := Finset.card_pos.mp (Nat.lt_of_lt_of_le (Nat.succ_pos _) hcard)
      obtain ⟨hlt, ht⟩ := (Bitmap.mem_members _ _ _).mp hi
      exact List.ne_nil_of_mem (mem_listed.mpr ⟨i, List.getElem?_eq_getElem hlt, ht⟩)
    exact verify_of_stored hinj hcomplete hnodup hinv hnew hbuilt hhash hne hss hagg

end Assembled

def BroadcastVerifies (cr : Crypto) (set : ValidatorSet) (acts : List Action) : Prop :=
  ∀ qc, Action.broadcastMacroQc qc ∈ acts → ∃ cp, persistedCheckpoints acts = [cp] ∧
    verifyMacroQc cr set qc cp = true

/-- Throughout a run, every broadcast QC verifies. -/
def BroadcastsVerify (cr : Crypto) (cfg : Config) (set : ValidatorSet) (self : ValidatorId)
    (is : List StateMachine.Input) : Prop :=
  ∀ call ∈ StateMachine.run cr cfg self is,
    BroadcastVerifies cr set (StateMachine.exec cr call.input call.pre).actions

/-- An adoption broadcasts a QC only if the node assembled it, and then that one. -/
theorem broadcast_of_adoption (c : MacroCore) (cand : MacroCheckpoint) (q : MacroQc) (own : Bool)
    (leak : List Action) (hleak : ∀ a ∈ leak, a.isMacroTraffic = true) {r : TwoChainRule}
    {qc : MacroQc}
    (h : Action.broadcastMacroQc qc ∈ (if own then [.broadcastMacroQc q] else []) ++
      adoptionActions cand q ++ leak ++ c.finalizedActions r) : own = true ∧ qc = q := by
  simp only [List.mem_append, or_assoc] at h
  obtain ho | hact | hl | hf := h
  · cases own with
    | true => exact ⟨rfl, by simpa using ho⟩
    | false => cases ho
  · simp [adoptionActions] at hact
  · exact absurd (hleak _ hl) (by simp [Action.isMacroTraffic])
  · obtain ⟨prev, cp, -, -, heq⟩ := finalizedActions_spec hf
    cases heq

/-- With distinct ids, a node that accepts no forged body broadcasts only macro QCs
that verify. -/
theorem broadcast_qc_verifies (cr : Crypto) (hinj : HashInjective cr)
    (hcomplete : CompleteAggregates cr) (cfg : Config) (set : ValidatorSet) (self : ValidatorId)
    (is : List StateMachine.Input)
    (hports : ∀ call ∈ StateMachine.run cr cfg self is, OwnPorts cr set self call)
    (hnodup : (set.entries.map (·.id)).Nodup)
    (hgood : ∀ call ∈ StateMachine.run cr cfg self is, forgedBody cr call = false) :
    BroadcastsVerify cr cfg set self is := by
  intro call hcall qc hqc
  obtain ⟨log, as, c, d, acts, hist, hadopt, hmem, heq⟩ :=
    run_adoption hports hgood hcall hqc rfl
  rw [heq]
  cases hadopt with
  | mk s height cand q own leak hset hpre hnew hc hnames hback hleak =>
    have hp := persisted_of_adoption c cand q own leak hleak (c.twoChain.adopt cand)
    obtain ⟨hown, hsame⟩ := broadcast_of_adoption c cand q own leak hleak hmem
    have hs := (hports call hcall).serves s hset
    subst hs hown hsame
    have hbuilt := hist.2.1.of_new hist.1.1 height cand hc hnew
    exact ⟨cand, hp.1, assembled_verifies hinj hcomplete hnodup (hports call hcall) hist.2.2
      hnew hbuilt hback⟩

section Devnet
open Devnet

def forgedRecords : List Record :=
  partialsBy [1, 2] a0 ++ partialsBy [0, 3] { a0 with epoch := 7 } ++
    [proposedBy 0 a0, proposedBy 1 a0, (0, .macroVote, .vote 0 0 a0.hash)]

/-- Two partials arrive, then a proposal of `a0` with its epoch rewritten, then a partial
on the rewritten body. -/
def forgedScript : List (Round × Event) :=
  [closesWave 1, partialOn 1 a0.hash, partialOn 2 a0.hash, proposal 1 { a0 with epoch := 7 },
    partialOn 3 a0.hash]

def honestRecords : List Record :=
  partialsBy [0, 1, 2] a0 ++ [proposedBy 0 a0, proposedBy 1 a0, (0, .macroVote, .vote 0 0 a0.hash)]

theorem broadcast_qc_verifies_devnet :
    BroadcastsVerify (crypto (recordedIn honestRecords)) config validators ⟨0⟩
      (script 0 [closesWave 1, partialOn 1 a0.hash, proposal 1 a0, partialOn 2 a0.hash]) :=
  broadcast_qc_verifies _ (hashInjective _) (completeAggregates _) _ _ _ _
    (ownPorts (by decide) (by decide)) (by decide) (by decide)

/-- The node aggregates signatures on two bodies with one hash. -/
theorem broadcast_qc_invalid :
    CompleteAggregates (crypto (recordedIn forgedRecords)) ∧
    (∀ call ∈ StateMachine.run (crypto (recordedIn forgedRecords)) config ⟨0⟩
        (script 0 forgedScript),
      OwnPorts (crypto (recordedIn forgedRecords)) validators ⟨0⟩ call) ∧
    ¬ BroadcastsVerify (crypto (recordedIn forgedRecords)) config validators ⟨0⟩
      (script 0 forgedScript) := by
  refine ⟨completeAggregates _, ownPorts (by decide) (by decide), ?_⟩
  intro h
  let adopting : NodeCall :=
    ⟨StateMachine.reached (crypto (recordedIn forgedRecords)) config ⟨0⟩
      (script 0 (forgedScript.take 4)), (.event (partialOn 3 a0.hash).2, ports 0 0)⟩
  have hmem : adopting ∈ StateMachine.run (crypto (recordedIn forgedRecords)) config ⟨0⟩
      (script 0 forgedScript) := by
    refine List.mem_cons_of_mem _ (List.mem_cons_of_mem _ (List.mem_cons_of_mem _
      (List.mem_cons_of_mem _ (List.mem_singleton.mpr rfl))))
  obtain ⟨cp, hcp, hver⟩ := h adopting hmem (qcBy [0, 1, 2, 3] a0.hash) (by decide)
  have hps : persistedCheckpoints (StateMachine.exec (crypto (recordedIn forgedRecords))
      adopting.input adopting.pre).actions = [{ a0 with epoch := 7 }] := by decide
  rw [List.singleton_injective (hcp.symm.trans hps)] at hver
  revert hver
  decide

end Devnet
end LuaDag
