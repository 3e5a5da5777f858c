import LuaDag.HonestNetwork
import LuaDag.VertexProgress
import LuaDag.VertexVotes

/-! A network run, moment by moment: what has been sent and delivered before a delivery, and what
L1 of each node holds by then, as long as the calls return. -/
namespace LuaDag
open VertexCert

namespace Network
variable (cr : Crypto) (cfg : Config) (ds : List Delivery)

def upTo (t : Nat) : Network := reached cr cfg (ds.take t)

def bookAt (t : Nat) (v : ValidatorId) : VertexBook := ((upTo cr cfg ds t).nodes v).vertices

def inputsOf (t : Nat) (v : ValidatorId) : List StateMachine.Input :=
  ((ds.take t).filter fun d => d.1 = v).map (·.2)

def callsOf (t : Nat) (v : ValidatorId) : List NodeCall :=
  StateMachine.run cr cfg v (inputsOf ds t v)

def Sends (s : Nat) (v : ValidatorId) (a : Action) : Prop :=
  ∃ i, ds[s]? = some (v, i) ∧
    a ∈ (StateMachine.exec cr i ((upTo cr cfg ds s).nodes v)).actions

def Gets (u : Nat) (w : ValidatorId) (a : Action) : Prop :=
  ∃ e ctx, ds[u]? = some (w, .event e, ctx) ∧ carriedBy e = some a

section Moments
variable {cr cfg ds} {s t : Nat} {v : ValidatorId} {a : Action}

theorem upTo_succ {d : Delivery} (hd : ds[t]? = some d) :
    upTo cr cfg ds (t + 1) = (exec cr d (upTo cr cfg ds t)).state := by
  rw [upTo, List.take_add_one, hd, Option.toList_some, reached, Trace.final_append]
  rfl

theorem upTo_end (hd : ds[t]? = none) : upTo cr cfg ds (t + 1) = upTo cr cfg ds t := by
  rw [upTo, List.take_add_one, hd, Option.toList_none, List.append_nil]
  rfl

theorem run_getElem (t : Nat) :
    (run cr cfg ds)[t]? = ds[t]?.map fun d => ⟨upTo cr cfg ds t, d⟩ :=
  Trace.getElem_calls _ _ _ _

theorem mem_run {d : Delivery} (hd : ds[t]? = some d) :
    (⟨upTo cr cfg ds t, d⟩ : NetworkCall) ∈ run cr cfg ds := by
  refine List.mem_of_getElem? (i := t) ?_
  rw [run_getElem, hd]
  rfl

theorem moments {P : Nat → Prop} (start : P 0)
    (call : ∀ t d, ds[t]? = some d → P t → P (t + 1))
    (ended : ∀ t, ds[t]? = none → P t → P (t + 1)) (t : Nat) : P t := by
  induction t with
  | zero => exact start
  | succ t ih =>
    cases hd : ds[t]? with
    | none => exact ended t hd ih
    | some d => exact call t d hd ih

theorem sent_iff : a ∈ (upTo cr cfg ds t).sent ↔ ∃ s < t, ∃ v, Sends cr cfg ds s v a := by
  induction t using @moments ds with
  | start => simp [upTo, reached, Trace.final, new]
  | call t d hd ih =>
    obtain ⟨v, i⟩ := d
    rw [upTo_succ hd, exec, List.mem_append, ih]
    constructor
    · rintro (⟨s, hs, v', hsends⟩ | hnew)
      · exact ⟨s, Nat.lt_succ_of_lt hs, v', hsends⟩
      · exact ⟨t, Nat.lt_succ_self t, v, i, hd, hnew⟩
    · rintro ⟨s, hs, v', hsends⟩
      cases Nat.lt_succ_iff_lt_or_eq.mp hs with
      | inl hlt => exact Or.inl ⟨s, hlt, v', hsends⟩
      | inr heq =>
        subst heq
        obtain ⟨j, hj, hin⟩ := hsends
        cases hd.symm.trans hj
        exact Or.inr hin
  | ended t hd ih =>
    rw [upTo_end hd, ih]
    constructor
    · rintro ⟨s, hs, hsends⟩
      exact ⟨s, Nat.lt_succ_of_lt hs, hsends⟩
    · rintro ⟨s, hs, v', i, hi, hin⟩
      cases Nat.lt_succ_iff_lt_or_eq.mp hs with
      | inl hlt => exact ⟨s, hlt, v', i, hi, hin⟩
      | inr heq =>
        subst heq
        cases hd.symm.trans hi

theorem sent_mono {t' : Nat} (hle : t ≤ t') (ha : a ∈ (upTo cr cfg ds t).sent) :
    a ∈ (upTo cr cfg ds t').sent := by
  obtain ⟨s, hs, hsends⟩ := sent_iff.mp ha
  exact sent_iff.mpr ⟨s, Nat.lt_of_lt_of_le hs hle, hsends⟩

theorem node_eq : (upTo cr cfg ds t).nodes v = StateMachine.reached cr cfg v (inputsOf ds t v) :=
  reached_node cr cfg (ds.take t) v

theorem book_eq :
    bookAt cr cfg ds t v = (StateMachine.reached cr cfg v (inputsOf ds t v)).vertices :=
  congrArg (·.vertices) node_eq

theorem inputsOf_succ {d : Delivery} (hd : ds[t]? = some d) :
    inputsOf ds (t + 1) v = inputsOf ds t v ++ if d.1 = v then [d.2] else [] := by
  rw [inputsOf, List.take_add_one, hd, Option.toList_some, List.filter_append, List.map_append]
  by_cases hv : d.1 = v
  · simp [hv, inputsOf]
  · simp [hv, inputsOf]

theorem inputsOf_end (hd : ds[t]? = none) : inputsOf ds (t + 1) v = inputsOf ds t v := by
  rw [inputsOf, List.take_add_one, hd, Option.toList_none, List.append_nil]
  rfl

/-- The calls of a node are those of the deliveries to it. -/
theorem mem_callsOf {call : NodeCall} : call ∈ callsOf cr cfg ds t v ↔
    ∃ s < t, ∃ i, ds[s]? = some (v, i) ∧ call = ⟨(upTo cr cfg ds s).nodes v, i⟩ := by
  induction t using @moments ds with
  | start => simp [callsOf, inputsOf, StateMachine.run, Trace.calls]
  | call t d hd ih =>
    have hnew : call ∈ callsOf cr cfg ds (t + 1) v ↔ call ∈ callsOf cr cfg ds t v ∨
        d.1 = v ∧ call = ⟨(upTo cr cfg ds t).nodes v, d.2⟩ := by
      rw [callsOf, inputsOf_succ hd, StateMachine.run, Trace.calls_append, List.mem_append,
        node_eq]
      refine or_congr Iff.rfl ?_
      by_cases hv : d.1 = v
      · simp only [hv, if_true, true_and, Trace.calls, List.mem_singleton]
        rfl
      · simp [hv, Trace.calls]
    rw [hnew, ih]
    constructor
    · rintro (⟨s, hs, i, hi, heq⟩ | ⟨hv, heq⟩)
      · exact ⟨s, Nat.lt_succ_of_lt hs, i, hi, heq⟩
      · exact ⟨t, Nat.lt_succ_self t, d.2, by rw [hd, ← hv], heq⟩
    · rintro ⟨s, hs, i, hi, heq⟩
      cases Nat.lt_succ_iff_lt_or_eq.mp hs with
      | inl hlt => exact Or.inl ⟨s, hlt, i, hi, heq⟩
      | inr hst =>
        subst hst
        cases hd.symm.trans hi
        exact Or.inr ⟨rfl, heq⟩
  | ended t hd ih =>
    rw [callsOf, inputsOf_end hd]
    refine ih.trans ⟨?_, ?_⟩
    · rintro ⟨s, hs, hrest⟩
      exact ⟨s, Nat.lt_succ_of_lt hs, hrest⟩
    · rintro ⟨s, hs, i, hi, heq⟩
      cases Nat.lt_succ_iff_lt_or_eq.mp hs with
      | inl hlt => exact ⟨s, hlt, i, hi, heq⟩
      | inr hst =>
        subst hst
        cases hd.symm.trans hi

/-- The call of a delivery, and the book it leaves. -/
theorem bookAt_succ {d : Delivery} (hd : ds[t]? = some d) : bookAt cr cfg ds (t + 1) v =
    if d.1 = v then (NodeCall.vertexOutcome cr ⟨(upTo cr cfg ds t).nodes v, d.2⟩).state
    else bookAt cr cfg ds t v := by
  rw [bookAt, upTo_succ hd]
  by_cases hv : d.1 = v
  · subst hv
    simp only [exec, Function.update_self, if_true]
    exact (exec_fromVertices cr ⟨(upTo cr cfg ds t).nodes d.1, d.2⟩).book
  · simp only [exec, Function.update_of_ne (Ne.symm hv), if_neg hv]
    rfl

theorem bookAt_end (hd : ds[t]? = none) :
    bookAt cr cfg ds (t + 1) v = bookAt cr cfg ds t v := by
  rw [bookAt, upTo_end hd]
  rfl

/-- What every call of a node keeps, once it holds. -/
theorem book_later {P : VertexBook → Prop}
    (hcall : ∀ s i, ds[s]? = some (v, i) → P (bookAt cr cfg ds s v) →
      P (NodeCall.vertexOutcome cr ⟨(upTo cr cfg ds s).nodes v, i⟩).state)
    {t' : Nat} (hle : t ≤ t') (h : P (bookAt cr cfg ds t v)) : P (bookAt cr cfg ds t' v) := by
  induction t', hle using Nat.le_induction with
  | base => exact h
  | succ t' hle ih =>
    cases hd : ds[t']? with
    | none => rwa [bookAt_end hd]
    | some d =>
      rw [bookAt_succ hd]
      split
      · rename_i hv
        subst hv
        exact hcall t' d.2 hd ih
      · exact ih

theorem ownBook : OwnBook cr v (bookAt cr cfg ds t v) := by
  rw [book_eq]
  exact ownBook_run cr cfg v _

theorem round_mono {t' : Nat} (hle : t ≤ t') :
    (bookAt cr cfg ds t v).currentRound ≤ (bookAt cr cfg ds t' v).currentRound := by
  have hlater := book_later (P := fun b => OwnBook cr v b ∧
    (bookAt cr cfg ds t v).currentRound ≤ b.currentRound) ?_ hle ⟨ownBook, Nat.le_refl _⟩
  · exact hlater.2
  intro s i hi hb
  let call : NodeCall := ⟨(upTo cr cfg ds s).nodes v, i⟩
  have hround := @vertexOutcome_round cr v call hb.1
  obtain ⟨acts, hpath, -⟩ := vertexOutcome_moves cr call
  exact ⟨hpath.keeps (fun _ _ _ _ hm hown => ownBook_move hm hown) hb.1, hb.2.trans hround⟩

theorem started_mono {t' : Nat} (hle : t ≤ t') (hst : (bookAt cr cfg ds t v).started = true) :
    (bookAt cr cfg ds t' v).started = true :=
  book_later (P := fun b => b.started = true)
    (fun _ _ _ hb => bookSteady_started (vertexOutcome_moves cr _) hb) hle hst

/-- What has come with the calls of a node stays. -/
theorem recordings_mono {t' : Nat} (hle : t ≤ t') {cv : CertifiedVertex}
    (hcv : cv ∈ recordingsIn cr (callsOf cr cfg ds t v)) :
    cv ∈ recordingsIn cr (callsOf cr cfg ds t' v) := by
  obtain ⟨call, hcall, hin⟩ := List.mem_flatMap.mp hcv
  obtain ⟨s, hs, hrest⟩ := mem_callsOf.mp hcall
  exact List.mem_flatMap.mpr
    ⟨call, mem_callsOf.mpr ⟨s, Nat.lt_of_lt_of_le hs hle, hrest⟩, hin⟩

/- Vertices. -/

section Authentic
variable {set : ValidatorSet}
  (hauth : ∀ call ∈ run cr cfg ds, NetworkCall.authentic set call = true)
include hauth

theorem keeps_honest (v : ValidatorId) : VertexHonest v (upTo cr cfg ds t).sent
    (upTo cr cfg ds t).sent (bookAt cr cfg ds t v).core := by
  induction t using @moments ds generalizing v with
  | start =>
    refine ⟨rfl, ?_, ?_, ?_, ?_, ?_⟩ <;>
      simp [upTo, bookAt, reached, Trace.final, Network.new, Issued, StateMachine.new,
        VertexBook.new, VertexBook.core]
  | ended t hd ih =>
    rw [bookAt_end hd, upTo_end hd]
    exact ih v
  | call t d hd ih =>
    have hcall := hauth _ (mem_run hd)
    have huniq : OneVertexPerRound (upTo cr cfg ds t).sent := fun p q hp hq ha hr =>
      (ih p.vertex.author).once p q (Or.inl ⟨hp, rfl⟩) (Or.inl ⟨hq, ha.symm⟩) hr
    let call : NetworkCall := ⟨upTo cr cfg ds t, d⟩
    obtain ⟨acts, hpath, hacts⟩ := (exec_vertices cr call.node).actions
    have hcalled := hpath.invariant
      (P := fun _ as c => VertexHonest d.1 (upTo cr cfg ds t).sent as c) (R := fun _ => True)
      (by
        intro _ as c sg acts' e _ hm hc
        cases hm with
        | own hmove =>
          exact vertexHonest_move
            (fun p hev => @sent_of_authentic set call _ _ hcall hev rfl) huniq hmove hc
        | other _ hnews =>
          exact hc.quiet _ fun a ha => not_vertexIssue_of_not_news (hnews a ha))
      (fun _ _ => trivial) [] (upTo cr cfg ds t).sent (ih d.1)
    have hold : ∀ a ∈ (upTo cr cfg ds t).sent, a ∈ (upTo cr cfg ds (t + 1)).sent :=
      fun a ha => sent_mono (Nat.le_succ t) ha
    have hgrow : ∀ a ∈ (upTo cr cfg ds (t + 1)).sent, a ∈ (upTo cr cfg ds t).sent ++ acts := by
      rw [upTo_succ hd]
      intro a ha
      cases List.mem_append.mp ha with
      | inl hl => exact List.mem_append_left _ hl
      | inr hr => exact List.mem_append_right _ (hacts a hr)
    have hrebased := hcalled.rebase hgrow hold
    by_cases hv : d.1 = v
    · subst hv
      rw [bookAt, upTo_succ hd]
      rw [upTo_succ hd] at hrebased
      simp only [Network.exec, Function.update_self]
      exact hrebased
    · rw [bookAt_succ hd, if_neg hv]
      refine (ih v).bystander hold ?_ hrebased.clean
      intro p hp
      cases hcalled.fresh p (hgrow _ hp) with
      | inl hs => exact Or.inl hs
      | inr ha => exact Or.inr fun heq => hv (ha.symm.trans heq)

theorem one_vertex_sent : OneVertexPerRound (upTo cr cfg ds t).sent := by
  intro p q hp hq ha hr
  exact (keeps_honest hauth p.vertex.author).once p q (Or.inl ⟨hp, rfl⟩) (Or.inl ⟨hq, ha.symm⟩) hr

end Authentic

end Moments
end Network

/-- Members are called with the bootstrap first and then with what has been sent, all under one
set and with the keys it lists, and every call returns. -/
structure Orderly (cr : Crypto) (cfg : Config) (set : ValidatorSet) (ds : List Delivery) :
    Prop where
  authentic : ∀ call ∈ Network.run cr cfg ds, NetworkCall.authentic set call = true
  served : ∀ d ∈ ds, activeSet d.2.2 = .ok set
  keys : ∀ d ∈ ds, OwnKey cr set d.1 d.2.2.signBls
  returns : ∀ call ∈ Network.run cr cfg ds,
    ∃ acts, (StateMachine.exec cr call.input.2 (call.pre.nodes call.input.1)).result = .ok acts

/-- L1 emits the L1 messages of a call that returns. -/
theorem exec_news {cr : Crypto} {call : NodeCall} {acts : List Action} {a : Action}
    (hok : (StateMachine.exec cr call.input call.pre).result = .ok acts)
    (ha : a.isCertNews = true) : a ∈ (StateMachine.exec cr call.input call.pre).actions ↔
      a ∈ (call.vertexOutcome cr).actions := by
  obtain ⟨vacts, hv, hsame⟩ := (exec_fromVertices cr call).news acts hok
  have hfilter : ∀ as : List Action, a ∈ as ↔ a ∈ as.filter Action.isCertNews := by
    intro as
    simp [List.mem_filter, ha]
  simp only [Outcome.actions, hok, hv]
  rw [hfilter acts, hsame, ← hfilter vacts]

theorem exec_vote {cr : Crypto} {call : NodeCall} {bp : VertexPartial}
    (hbp : Action.broadcastVertexPartial bp ∈
      (StateMachine.exec cr call.input call.pre).actions) :
    ∃ p, call.event = some (.vertexProposalReceived p) ∧ bp.round = p.vertex.round ∧
      bp.author = p.vertex.author := by
  obtain ⟨acts, hpath, hacts⟩ := (exec_vertices cr call).actions
  have hall := hpath.forall_of_move (R := fun _ => True)
    (A := fun a => ∀ bp, a = .broadcastVertexPartial bp →
      ∃ p, call.event = some (.vertexProposalReceived p) ∧ bp.round = p.vertex.round ∧
        bp.author = p.vertex.author) ?_
  · exact hall.2 _ (hacts _ hbp) bp rfl
  intro c sg acts d hm
  refine ⟨fun _ _ => trivial, ?_⟩
  rintro a ha bp rfl
  obtain ⟨p, hev, -, -, hround, hauthor, -⟩ := move_partial hm ha
  exact ⟨p, hev, hround, hauthor⟩

/-- The certificates of own vertices are among those that come with the call. -/
theorem certified_recorded {cr : Crypto} {set : ValidatorSet} {call : NodeCall}
    {o : Result VertexBook} (hshape : VertexShape cr set call o)
    (hret : o.result ≠ .error .overflow) {cv : CertifiedVertex}
    (hcv : Action.broadcastCertifiedVertex cv ∈ o.actions) : cv ∈ call.recordingsOf o := by
  by_cases hev : ∃ cv', call.event = some (.certifiedVertexReceived cv')
  · obtain ⟨cv', hev⟩ := hev
    cases hshape with
    | still o h hrest => exact absurd hcv (h.uncertified cv)
    | boot o hgen hst ho => simp [NodeCall.event, hgen] at hev
    | climb need b first o hneed hfoot hfirst hclimb =>
      cases hfirst with
      | delivered cv hev' hemitted =>
        have hret' : o.result ≠ .error .overflow := by
          intro herror
          exact hret (by simp [Outcome.andThen_of_ok, herror, Except.map])
        obtain ⟨⟨acts, hacts, hnone⟩, -, -⟩ := climbed_kept hclimb hret'
        rw [Outcome.andThen_of_ok rfl] at hcv
        simp only [Outcome.actions, hacts, Except.map, List.nil_append] at hcv
        exact absurd (mem_certifiedIn.mpr hcv) (by simp [hnone])
      | completed bp p cv hev' => cases hev.symm.trans hev'
    | again id delay stalled retries hev' => cases hev.symm.trans hev'
  · rw [recordingsOf_own fun cv' h => hev ⟨cv', h⟩]
    exact mem_certifiedIn.mpr hcv

namespace Orderly
open Network
variable {cr : Crypto} {cfg : Config} {set : ValidatorSet} {ds : List Delivery} {t : Nat}
  {v : ValidatorId} (h : Orderly cr cfg set ds)
include h

theorem call_ok {call : NodeCall} (hcall : call ∈ callsOf cr cfg ds t v) :
    activeSet call.ctx = .ok set ∧ OwnKey cr set v call.ctx.signBls ∧
      ∃ acts, (StateMachine.exec cr call.input call.pre).result = .ok acts := by
  obtain ⟨s, -, i, hi, rfl⟩ := mem_callsOf.mp hcall
  have hin := List.mem_of_getElem? hi
  exact ⟨h.served _ hin, h.keys _ hin, h.returns _ (mem_run hi)⟩

theorem fixedSet : FixedSet set (inputsOf ds t v) := by
  intro i hi
  obtain ⟨d, hd, rfl⟩ := List.mem_map.mp hi
  exact h.served d (List.mem_of_mem_take (List.mem_of_mem_filter hd))

theorem booted (hst : (bookAt cr cfg ds t v).started = true) :
    ∃ boot is, inputsOf ds t v = (.genesis, boot) :: is := by
  rw [book_eq] at hst
  cases his : inputsOf ds t v with
  | nil =>
    rw [his] at hst
    simp [StateMachine.reached, Trace.final, StateMachine.new, VertexBook.new] at hst
  | cons i is =>
    obtain ⟨req, ctx⟩ := i
    cases req with
    | genesis => exact ⟨ctx, is, rfl⟩
    | event e =>
      have hfirst : (⟨StateMachine.new cfg v, .event e, ctx⟩ : NodeCall) ∈
          callsOf cr cfg ds t v := by
        rw [callsOf, his]
        exact List.mem_cons_self
      obtain ⟨s, -, i, hi, heq⟩ := mem_callsOf.mp hfirst
      obtain ⟨hpre, rfl⟩ := (Call.mk.injEq ..).mp heq
      have hauth := h.authentic _ (mem_run hi)
      simp only [NetworkCall.authentic, NetworkCall.node, ← hpre, Bool.and_eq_true] at hauth
      simp [StateMachine.new, VertexBook.new] at hauth

theorem sends_iff {a : Action} (ha : a.isCertNews = true) :
    a ∈ vertexActions cr (callsOf cr cfg ds t v) ↔ ∃ s < t, Sends cr cfg ds s v a := by
  unfold vertexActions
  rw [List.mem_flatMap]
  constructor
  · rintro ⟨call, hcall, hin⟩
    obtain ⟨-, -, acts, hacts⟩ := h.call_ok hcall
    obtain ⟨s, hs, i, hi, rfl⟩ := mem_callsOf.mp hcall
    exact ⟨s, hs, i, hi, (exec_news hacts ha).mpr hin⟩
  · rintro ⟨s, hs, i, hi, hin⟩
    have hcall := (@mem_callsOf cr cfg ds t v _).mpr ⟨s, hs, i, hi, rfl⟩
    obtain ⟨-, -, acts, hacts⟩ := h.call_ok hcall
    exact ⟨_, hcall, (exec_news hacts ha).mp hin⟩

theorem gets_sent {u : Nat} {w : ValidatorId} {a : Action} (hgets : Gets ds u w a) :
    a ∈ (upTo cr cfg ds u).sent := by
  obtain ⟨e, ctx, hd, ha⟩ := hgets
  exact @sent_of_authentic set ⟨upTo cr cfg ds u, w, .event e, ctx⟩ e a
    (h.authentic _ (mem_run hd)) rfl ha

/- Vertices. -/

theorem honest (v : ValidatorId) : VertexHonest v (upTo cr cfg ds t).sent (upTo cr cfg ds t).sent
    (bookAt cr cfg ds t v).core :=
  keeps_honest h.authentic v

theorem one_vertex : OneVertexPerRound (upTo cr cfg ds t).sent := one_vertex_sent h.authentic

/-- Who has sent a proposal is in its round by then. -/
theorem sent_round {p : VertexProposal}
    (hp : Action.broadcastVertexProposal p ∈ (upTo cr cfg ds t).sent) :
    (bookAt cr cfg ds t p.vertex.author).started = true ∧
      p.vertex.round ≤ (bookAt cr cfg ds t p.vertex.author).currentRound :=
  ((h.honest p.vertex.author).bound p (Or.inl ⟨hp, rfl⟩)).2

/- What the nodes hold. -/

theorem need_eq (hst : (bookAt cr cfg ds t v).started = true) :
    quorumNeed set = .ok (quorumThreshold set.entries.length) := by
  obtain ⟨boot, is, his⟩ := h.booted hst
  have hserved : FixedSet set ((.genesis, boot) :: is) := his ▸ h.fixedSet
  obtain ⟨need, hneed⟩ := @boot_need cr cfg v set boot is hserved
    (fun call hcall => (h.call_ok (his ▸ hcall)).2.2)
  rwa [← quorumNeed_eq hneed]

/-- A started node is never left in a round that holds a quorum. -/
theorem drained (hst : (bookAt cr cfg ds t v).started = true) :
    Drained (quorumThreshold set.entries.length) (bookAt cr cfg ds t v) := by
  obtain ⟨boot, is, his⟩ := h.booted hst
  have hserved : FixedSet set ((.genesis, boot) :: is) := his ▸ h.fixedSet
  rw [book_eq, his]
  exact (paced_run hserved fun call hcall => (h.call_ok (his ▸ hcall)).2.2).drained

section Four
variable (hapart : VerticesHashApart cr) (hlen : 4 ≤ set.entries.length)
  (hneed : quorumNeed set = .ok (quorumThreshold set.entries.length))
include hapart hlen hneed

theorem busy : Busy cr set v (quorumThreshold set.entries.length)
    (fun p => Action.broadcastVertexProposal p ∈ (upTo cr cfg ds t).sent)
    (callsOf cr cfg ds t v) (bookAt cr cfg ds t v) := by
  rw [book_eq]
  refine busy_run hapart.rounds hlen hneed h.fixedSet ?_
  intro call hcall
  obtain ⟨-, hkey, acts, hacts⟩ := h.call_ok hcall
  refine ⟨hkey, ?_, vertices_ok hacts⟩
  intro p hev
  obtain ⟨s, hs, i, hi, rfl⟩ := mem_callsOf.mp hcall
  exact sent_mono hs.le (@sent_of_authentic set ⟨upTo cr cfg ds s, v, i⟩ _ _
    (h.authentic _ (mem_run hi)) hev rfl)

/- Certificates. -/

theorem certified_sent {cv : CertifiedVertex}
    (hcv : Action.broadcastCertifiedVertex cv ∈ (upTo cr cfg ds t).sent) :
    ∃ p, Action.broadcastVertexProposal p ∈ (upTo cr cfg ds t).sent ∧ p.vertex = cv.vertex := by
  obtain ⟨s, hs, w, hsends⟩ := sent_iff.mp hcv
  have hact := (@sends_iff cr cfg set ds t w h _ rfl).mpr ⟨s, hs, hsends⟩
  obtain ⟨p, hp, heq⟩ := (h.busy hapart hlen hneed).announced.certificates cv hact
  obtain ⟨s', hs', hsends'⟩ := (h.sends_iff rfl).mp hp
  exact ⟨p, sent_iff.mpr ⟨s', hs', w, hsends'⟩, heq⟩

theorem one_certificate {cv cv' : CertifiedVertex}
    (hcv : Action.broadcastCertifiedVertex cv ∈ (upTo cr cfg ds t).sent)
    (hcv' : Action.broadcastCertifiedVertex cv' ∈ (upTo cr cfg ds t).sent)
    (hround : cv.vertex.round = cv'.vertex.round)
    (hauthor : cv.vertex.author = cv'.vertex.author) : cv.vertex = cv'.vertex := by
  obtain ⟨p, hp, heq⟩ := h.certified_sent hapart hlen hneed hcv
  obtain ⟨p', hp', heq'⟩ := h.certified_sent hapart hlen hneed hcv'
  have hsame : p = p' := h.one_vertex p p' hp hp' (by rw [heq, heq', hauthor])
    (by rw [heq, heq', hround])
  rw [← heq, ← heq', hsame]

omit hapart hlen hneed in
theorem recorded_sent {cv : CertifiedVertex}
    (hcv : cv ∈ recordingsIn cr (callsOf cr cfg ds t v)) :
    Action.broadcastCertifiedVertex cv ∈ (upTo cr cfg ds t).sent := by
  obtain ⟨call, hcall, hin⟩ := List.mem_flatMap.mp hcv
  obtain ⟨s, hs, i, hi, rfl⟩ := mem_callsOf.mp hcall
  unfold NodeCall.recordings NodeCall.recordingsOf at hin
  split at hin
  · rename_i cv' hev
    rw [List.mem_singleton.mp hin]
    exact sent_mono hs.le (@sent_of_authentic set ⟨upTo cr cfg ds s, v, i⟩ _ _
      (h.authentic _ (mem_run hi)) hev rfl)
  · obtain ⟨-, -, acts, hacts⟩ := h.call_ok hcall
    have hsent := (exec_news hacts rfl).mpr (mem_certifiedIn.mp hin)
    exact sent_iff.mpr ⟨s, hs, v, i, hi, hsent⟩

omit h hapart hlen hneed in
theorem recorded_of_gets {u : Nat} {cv : CertifiedVertex} (hu : u < t)
    (hgets : Gets ds u v (.broadcastCertifiedVertex cv)) :
    cv ∈ recordingsIn cr (callsOf cr cfg ds t v) := by
  obtain ⟨e, ctx, hd, ha⟩ := hgets
  have hcall := (@mem_callsOf cr cfg ds t v _).mpr ⟨u, hu, _, hd, rfl⟩
  refine List.mem_flatMap.mpr ⟨_, hcall, ?_⟩
  cases e with
  | certifiedVertexReceived cv' =>
    cases ha
    exact List.mem_singleton_self cv
  | _ => cases ha

omit hneed in
theorem recorded_of_sends {s : Nat} {cv : CertifiedVertex} (hs : s < t)
    (hsends : Sends cr cfg ds s v (.broadcastCertifiedVertex cv)) :
    cv ∈ recordingsIn cr (callsOf cr cfg ds t v) := by
  obtain ⟨i, hi, hin⟩ := hsends
  have hcall := (@mem_callsOf cr cfg ds t v _).mpr ⟨s, hs, i, hi, rfl⟩
  obtain ⟨-, -, acts, hacts⟩ := h.call_ok hcall
  obtain ⟨hshape, -⟩ := shape_run hapart.rounds hlen h.fixedSet hcall
  obtain ⟨vacts, hv⟩ := vertices_ok hacts
  refine List.mem_flatMap.mpr ⟨_, hcall, ?_⟩
  exact certified_recorded hshape (by simp [hv]) ((exec_news hacts rfl).mp hin)

/-- A certificate that has come in is on record unless the node is two rounds past it. -/
theorem on_record {cv : CertifiedVertex} (hcv : cv ∈ recordingsIn cr (callsOf cr cfg ds t v))
    (hround : (bookAt cr cfg ds t v).currentRound ≤ cv.vertex.round + 1) :
    (certsAt (bookAt cr cfg ds t v).certifiedByRound cv.vertex.round)[cv.vertex.author]? =
      some cv.vertex.hash := by
  refine ((h.busy hapart hlen hneed).kept _ _ _).mpr ⟨hround, ?_⟩
  unfold lastFor
  cases hfind : (recordingsIn cr (callsOf cr cfg ds t v)).reverse.find? fun w =>
      w.vertex.round = cv.vertex.round ∧ w.vertex.author = cv.vertex.author with
  | none =>
    have hno := List.find?_eq_none.mp hfind cv (List.mem_reverse.mpr hcv)
    simp at hno
  | some w =>
    have hslot := List.find?_some hfind
    simp only [decide_eq_true_eq] at hslot
    have hw := h.recorded_sent
      (List.mem_reverse.mp (List.mem_of_find?_eq_some hfind))
    have hsame := h.one_certificate hapart hlen hneed hw
      (h.recorded_sent hcv) hslot.1 hslot.2
    rw [Option.map_some, hsame]

/-- A started node with certificates of a quorum of authors is past their round. -/
theorem left_behind (hst : (bookAt cr cfg ds t v).started = true) {r : Round}
    {authors : Finset ValidatorId} (hcard : quorumThreshold set.entries.length ≤ authors.card)
    (hall : ∀ a ∈ authors, ∃ cv ∈ recordingsIn cr (callsOf cr cfg ds t v),
      cv.vertex.round = r ∧ cv.vertex.author = a) :
    (bookAt cr cfg ds t v).currentRound ≠ r := by
  intro hround
  have hlow := h.drained hst
  have hsize := Maps.card_le_size (certsAt (bookAt cr cfg ds t v).certifiedByRound r) authors ?_
  · rw [Drained, certifiedCountAt_eq, hround] at hlow
    exact absurd hlow (Nat.not_lt_of_le (hcard.trans hsize))
  intro a ha
  obtain ⟨cv, hcv, rfl, rfl⟩ := hall a ha
  rw [h.on_record hapart hlen hneed hcv (hround ▸ Nat.le_succ _)]
  rfl

end Four
end Orderly
end LuaDag
