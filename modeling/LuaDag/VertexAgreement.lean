import LuaDag.NodeRun
import LuaDag.Committee

/-! L1 agreement. A node signs one vertex per slot `(round, author)`: its own slots are
protected by the round counter, the slots of others by the vote set while the round
is in the window, and by the window afterwards. -/
namespace LuaDag

def Certified (log : List SignReq) (round : Round) (author : ValidatorId) (parents : List Hash32)
    (blobs : List BlobRef) : Prop :=
  (Dst.vertexCert, Bytes.vertexBody round author parents blobs) ∈ log

structure SlotInv (log : List SignReq) (c : VertexCore) : Prop where
  idle : c.started = false → c.currentRound = 0
  own : ∀ r ps bs, Certified log r c.selfId ps bs → c.started = true ∧ r ≤ c.currentRound
  others : ∀ r a ps bs, a ≠ c.selfId → Certified log r a ps bs →
    (r, a) ∈ c.voted ∨ r + 1 < c.currentRound
  once : ∀ r a ps bs ps' bs', Certified log r a ps bs → Certified log r a ps' bs' →
    ps = ps' ∧ bs = bs'

theorem certified_append_of_ne {log sg : List SignReq} {r : Round} {a : ValidatorId}
    {ps : List Hash32} {bs : List BlobRef} (h : Certified (log ++ sg) r a ps bs)
    (hsg : ∀ q ∈ sg, q.1 ≠ .vertexCert) : Certified log r a ps bs := by
  cases List.mem_append.mp h with
  | inl hl => exact hl
  | inr hr => exact absurd rfl (hsg _ hr)

theorem SlotInv.log_other {log : List SignReq} {c : VertexCore} (hinv : SlotInv log c)
    (sg : List SignReq) (hsg : ∀ q ∈ sg, q.1 ≠ .vertexCert) : SlotInv (log ++ sg) c where
  idle := hinv.idle
  own := fun r ps bs h => hinv.own r ps bs (certified_append_of_ne h hsg)
  others := fun r a ps bs ha h => hinv.others r a ps bs ha (certified_append_of_ne h hsg)
  once := fun r a ps bs ps' bs' h h' =>
    hinv.once r a ps bs ps' bs' (certified_append_of_ne h hsg) (certified_append_of_ne h' hsg)

theorem certified_snoc_cases {log : List SignReq} {v : Vertex} {r : Round} {a : ValidatorId}
    {ps : List Hash32} {bs : List BlobRef}
    (h : Certified (log ++ [(.vertexCert, signingBytes v)]) r a ps bs) :
    Certified log r a ps bs ∨ r = v.round ∧ a = v.author ∧ ps = v.parents ∧ bs = v.blobs := by
  cases List.mem_append.mp h with
  | inl hl => exact Or.inl hl
  | inr hr =>
    have heq := List.mem_singleton.mp hr
    simp only [signingBytes, Prod.mk.injEq, Bytes.vertexBody.injEq, true_and] at heq
    exact Or.inr heq

/-- A log that gains the first body of one slot still has one body per slot. -/
theorem once_snoc {log : List SignReq} {v : Vertex}
    (honce : ∀ r a ps bs ps' bs', Certified log r a ps bs → Certified log r a ps' bs' →
      ps = ps' ∧ bs = bs')
    (hfree : ∀ ps bs, ¬ Certified log v.round v.author ps bs) :
    ∀ r a ps bs ps' bs', Certified (log ++ [(.vertexCert, signingBytes v)]) r a ps bs →
      Certified (log ++ [(.vertexCert, signingBytes v)]) r a ps' bs' → ps = ps' ∧ bs = bs' := by
  intro r a ps bs ps' bs' h h'
  cases certified_snoc_cases h with
  | inl hold =>
    cases certified_snoc_cases h' with
    | inl hold' => exact honce r a ps bs ps' bs' hold hold'
    | inr hnew' =>
      obtain ⟨rfl, rfl, -, -⟩ := hnew'
      exact absurd hold (hfree ps bs)
  | inr hnew =>
    obtain ⟨rfl, rfl, rfl, rfl⟩ := hnew
    cases certified_snoc_cases h' with
    | inl hold' => exact absurd hold' (hfree ps' bs')
    | inr hnew' =>
      obtain ⟨-, -, rfl, rfl⟩ := hnew'
      exact ⟨rfl, rfl⟩

theorem SlotInv.vote {log : List SignReq} {c : VertexCore} (hinv : SlotInv log c) (v : Vertex)
    (hself : v.author ≠ c.selfId) (hwin : c.currentRound ≤ v.round + 1)
    (hnew : (v.round, v.author) ∉ c.voted) :
    SlotInv (log ++ [(.vertexCert, signingBytes v)])
      { c with voted := insert (v.round, v.author) c.voted } := by
  have hfree : ∀ ps bs, ¬ Certified log v.round v.author ps bs := by
    intro ps bs h
    cases hinv.others _ _ ps bs hself h with
    | inl hv => exact hnew hv
    | inr hlt => exact absurd hwin (Nat.not_le_of_lt hlt)
  refine ⟨hinv.idle, ?_, ?_, once_snoc hinv.once hfree⟩
  · intro r ps bs h
    cases certified_snoc_cases h with
    | inl hold => exact hinv.own r ps bs hold
    | inr heq => exact absurd heq.2.1.symm hself
  · intro r a ps bs ha h
    cases certified_snoc_cases h with
    | inl hold =>
      cases hinv.others r a ps bs ha hold with
      | inl hv => exact Or.inl (Finset.mem_insert_of_mem hv)
      | inr hlt => exact Or.inr hlt
    | inr heq =>
      rw [heq.1, heq.2.1]
      exact Or.inl (Finset.mem_insert_self _ _)

theorem SlotInv.propose {log : List SignReq} {c : VertexCore} (hinv : SlotInv log c)
    (v : Vertex) (hself : v.author = c.selfId)
    (hround : c.started = false ∧ v.round = 0 ∨ c.started = true ∧ v.round = c.currentRound + 1)
    (d : VertexCore) (hid : d.selfId = c.selfId) (hst : d.started = true)
    (hcur : d.currentRound = v.round) (hvoted : d.voted = insert (v.round, c.selfId) c.voted) :
    SlotInv (log ++ [(.vertexCert, signingBytes v)]) d := by
  have hfree : ∀ ps bs, ¬ Certified log v.round v.author ps bs := by
    intro ps bs h
    rw [hself] at h
    obtain ⟨hstarted, hle⟩ := hinv.own _ ps bs h
    cases hround with
    | inl hz =>
      rw [hz.1] at hstarted
      cases hstarted
    | inr hs =>
      rw [hs.2] at hle
      exact Nat.not_succ_le_self _ hle
  have hgrow : c.currentRound ≤ d.currentRound := by
    rw [hcur]
    cases hround with
    | inl hz =>
      rw [hinv.idle hz.1]
      exact Nat.zero_le _
    | inr hs =>
      rw [hs.2]
      exact Nat.le_succ _
  refine ⟨?_, ?_, ?_, once_snoc hinv.once hfree⟩
  · intro h
    rw [hst] at h
    cases h
  · intro r ps bs h
    rw [hid] at h
    refine ⟨hst, ?_⟩
    cases certified_snoc_cases h with
    | inl hold => exact (hinv.own r ps bs hold).2.trans hgrow
    | inr heq => rw [hcur, heq.1]
  · intro r a ps bs ha h
    rw [hid] at ha
    cases certified_snoc_cases h with
    | inl hold =>
      cases hinv.others r a ps bs ha hold with
      | inl hv =>
        rw [hvoted]
        exact Or.inl (Finset.mem_insert_of_mem hv)
      | inr hlt => exact Or.inr (Nat.lt_of_lt_of_le hlt hgrow)
    | inr heq => exact absurd (heq.2.1.trans hself) ha

theorem slotInv_move {call : NodeCall} {log : List SignReq} {c d : VertexCore}
    {sg : List SignReq} {acts : List Action} (hm : VertexMove call c sg acts d)
    (hinv : SlotInv log c) : SlotInv (log ++ sg) d := by
  cases hm with
  | vote p sig hev hself hwin hnew => exact hinv.vote p.vertex hself hwin hnew
  | propose p acts hself hround hacts =>
    have hlog := hinv.log_other [(.vertexProposal, signingBytes p.vertex)] (by simp)
    rw [show ∀ a b : SignReq, log ++ [a, b] = (log ++ [a]) ++ [b] by simp]
    exact hlog.propose p.vertex hself hround _ rfl rfl rfl rfl
  | prune =>
    have hsame := hinv.log_other [] (by simp)
    refine ⟨hsame.idle, hsame.own, ?_, hsame.once⟩
    intro r a ps bs ha h
    cases hsame.others r a ps bs ha h with
    | inl hv =>
      by_cases hkeep : c.currentRound - 1 ≤ r
      · exact Or.inl (Finset.mem_filter.mpr ⟨hv, hkeep⟩)
      · exact Or.inr (by
          have hlt := Nat.lt_of_not_le hkeep
          exact Nat.add_lt_of_lt_sub hlt)
    | inr hlt => exact Or.inr hlt
  | _ =>
    have hsame := hinv.log_other [] (by simp)
    exact ⟨hsame.idle, hsame.own, hsame.others, hsame.once⟩

/-- In every run, a node signs one body per slot. -/
theorem run_slots (cr : Crypto) (cfg : Config) (self : ValidatorId)
    (is : List StateMachine.Input) :
    SlotInv (StateMachine.signLog cr cfg self is)
      (StateMachine.reached cr cfg self is).vertices.core := by
  refine vertex_invariant cr (fun log _ c => SlotInv log c) (fun _ _ _ _ _ h => h)
    (fun _ _ _ _ _ _ _ hm h => slotInv_move hm h) ?_ cfg self ?_ is
  · intro log _ c sg _ hsg _ h
    refine h.log_other sg ?_
    intro q hq hdst
    have hmacro := hsg q hq
    rw [hdst] at hmacro
    cases hmacro
  · refine ⟨fun _ => rfl, ?_, ?_, ?_⟩
    · intro r ps bs h
      cases h
    · intro r a ps bs _ h
      cases h
    · intro r a ps bs ps' bs' h
      cases h

/- Certificates. -/

theorem certKeys_spec {cr : Crypto} {set : ValidatorSet} {idxs : List Nat}
    {pks : List PublicKey} (h : certKeys cr set idxs = .ok pks) :
    ∀ i ∈ idxs, ∃ e pk, set.entries[i]? = some e ∧ cr.pkFromBytes e.blsPubkey = some pk ∧
      pk ∈ pks := by
  induction idxs generalizing pks with
  | nil => simp
  | cons j idxs ih =>
    unfold certKeys at h
    split at h
    · cases h
    rename_i e he
    split at h
    · cases h
    rename_i pk hpk
    cases hrest : certKeys cr set idxs with
    | error err =>
      rw [hrest] at h
      cases h
    | ok rest =>
      rw [hrest] at h
      cases h
      intro i hi
      cases List.mem_cons.mp hi with
      | inl heq =>
        subst heq
        exact ⟨e, pk, he, hpk, by simp⟩
      | inr hmem =>
        obtain ⟨e', pk', he', hpk', hin⟩ := ih hrest i hmem
        exact ⟨e', pk', he', hpk', List.mem_cons_of_mem _ hin⟩

theorem toU32_getD_le (n : Nat) : (toU32 n).getD 0 ≤ n := by
  unfold toU32
  split <;> simp

/-- An accepted certificate carries the content hash, and a quorum has signed it. -/
theorem verifyCertifiedVertex_spec {cr : Crypto} (hsound : SoundAggregates cr)
    {cv : CertifiedVertex} {set : ValidatorSet} (h : verifyCertifiedVertex cr cv set = .ok ()) :
    cv.vertex.hash = contentHash cr cv.vertex ∧
      ∃ A ⊆ Finset.range set.entries.length, quorumThreshold set.entries.length ≤ A.card ∧
        ∀ i ∈ A, HasSigned cr set .vertexCert (signingBytes cv.vertex) i := by
  unfold verifyCertifiedVertex at h
  split at h
  · cases h
  rename_i hhash
  refine ⟨not_not.mp hhash, ?_⟩
  split at h
  · cases h
  rename_i n hn
  have hlen : n = set.entries.length := by
    unfold toU32 at hn
    split at hn
    · exact (Option.some.inj hn).symm
    · cases hn
  subst hlen
  dsimp only at h
  split at h
  · cases h
  rename_i idxs hidxs
  unfold bitmapIndices at hidxs
  split at hidxs
  · cases hidxs
    split at h
    · cases h
    rename_i hneed
    split at h
    · cases h
    rename_i pks hpks
    split at h
    · rename_i hagg
      refine ⟨Bitmap.members cv.certificate.bitmap set.entries.length,
        Finset.filter_subset _ _, ?_, ?_⟩
      · rw [Bitmap.card_members]
        exact (Nat.le_of_not_lt hneed).trans (toU32_getD_le _)
      · intro i hi
        obtain ⟨hlt, htest⟩ := (Bitmap.mem_members _ _ _).mp hi
        have hmem : i ∈ (List.range set.entries.length).filter
            (Bitmap.test cv.certificate.bitmap) := by
          simp [hlt, htest]
        obtain ⟨e, pk, he, hpk, hin⟩ := certKeys_spec hpks i hmem
        obtain ⟨sig, hsig⟩ := hsound pks _ _ _ hagg pk hin
        exact ⟨e, pk, sig, he, hpk, hsig⟩
    · cases h
  · cases hidxs

/-- At most `f` of `3f + 1` members are Byzantine, the others run the state machine on
any inputs: no slot has two accepted certificates with different hashes. -/
theorem vertex_agreement (cr : Crypto) (cfg : Config) (com : Committee)
    (is : ValidatorId → List StateMachine.Input) (hsound : SoundAggregates cr)
    (hunf : Unforgeable cr com fun v => StateMachine.signLog cr cfg v (is v))
    (cv cv' : CertifiedVertex) (h : verifyCertifiedVertex cr cv com.set = .ok ())
    (h' : verifyCertifiedVertex cr cv' com.set = .ok ())
    (hround : cv.vertex.round = cv'.vertex.round)
    (hauthor : cv.vertex.author = cv'.vertex.author) : cv.vertex.hash = cv'.vertex.hash := by
  obtain ⟨hhash, A, hA, hcA, hsigned⟩ := verifyCertifiedVertex_spec hsound h
  obtain ⟨hhash', B, hB, hcB, hsigned'⟩ := verifyCertifiedVertex_spec hsound h'
  obtain ⟨i, hiA, hiB, e, he, hid⟩ := com.common_honest hA hB hcA hcB
  have hlog := (hsigned i hiA).of_honest hunf he hid
  have hlog' := (hsigned' i hiB).of_honest hunf he hid
  unfold signingBytes at hlog hlog'
  rw [← hround, ← hauthor] at hlog'
  have hbody := (run_slots cr cfg e.id (is e.id)).once _ _ _ _ _ _ hlog hlog'
  rw [hhash, hhash', contentHash, contentHash, signingBytes, signingBytes, hround, hauthor,
    hbody.1, hbody.2]

section Devnet
open Devnet

def genesisRecords : List Record :=
  (0, .vertexProposal, signingBytes (vertexAt 0 0).vertex) ::
    [0, 1, 2, 3].map fun i => (i, .vertexCert, signingBytes (vertexAt 0 0).vertex)

def genesisInputs (v : ValidatorId) : List StateMachine.Input :=
  (.genesis, ports v.val 0) ::
    script v.val [(0, .vertexProposalReceived ⟨(vertexAt 0 0).vertex, sigOf ⟨0⟩⟩)]

def otherCertificate : CertifiedVertex :=
  { vertexAt 0 0 with certificate := ⟨⟨7⟩, [11#8]⟩ }

theorem vertex_agreement_genesis :
    vertexAt 0 0 ≠ otherCertificate ∧
      (vertexAt 0 0).vertex.hash = otherCertificate.vertex.hash :=
  ⟨by decide, vertex_agreement (crypto (recordedIn genesisRecords)) config committee
    genesisInputs (soundAggregates _) (unforgeable (by decide)) _ _ (by decide)
    (by decide) rfl rfl⟩

end Devnet
end LuaDag
