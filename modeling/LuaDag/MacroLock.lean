import LuaDag.MacroChain
import LuaDag.Devnet

/-! One vote per macro height. The lock keeps only the latest vote, so it protects a
height as long as no vote goes to an older one; then every vote is at the next
height, at or below the lock. -/
namespace LuaDag
open MacroFin

def staleVote (cr : Crypto) (call : NodeCall) : Bool :=
  match call.event with
  | some (.macroProposalReceived p) =>
    accepts cr call.pre.cfg call.ctx p call.pre.macros &&
      decide (p.checkpoint.height < call.pre.macros.nextHeight)
  | _ => false

def VotedFor (log : List SignReq) (cp : MacroCheckpoint) : Prop :=
  (Dst.macroCheckpoint, checkpointMessage cp) ∈ log

def VotedAt (log : List SignReq) (h : Height) (x : Hash32) : Prop :=
  ∃ cp, VotedFor log cp ∧ cp.height = h ∧ cp.hash = x

theorem votedFor_append_of_ne {log sg : List SignReq} {cp : MacroCheckpoint}
    (h : VotedFor (log ++ sg) cp) (hsg : ∀ r ∈ sg, r.1 ≠ .macroCheckpoint) : VotedFor log cp := by
  cases List.mem_append.mp h with
  | inl hl => exact hl
  | inr hr => exact absurd rfl (hsg _ hr)

theorem votedAt_append_of_ne {log sg : List SignReq} {h : Height} {x : Hash32}
    (hv : VotedAt (log ++ sg) h x) (hsg : ∀ r ∈ sg, r.1 ≠ .macroCheckpoint) :
    VotedAt log h x := by
  obtain ⟨cp, hcp, hh, hx⟩ := hv
  exact ⟨cp, votedFor_append_of_ne hcp hsg, hh, hx⟩

theorem votedFor_append_announce {log : List SignReq} {cp q : MacroCheckpoint}
    (h : VotedFor (log ++ [(.macroCheckpoint, checkpointMessage q)]) cp) :
    VotedFor log cp ∨ cp = q := by
  cases List.mem_append.mp h with
  | inl hl => exact Or.inl hl
  | inr hr =>
    have heq := List.mem_singleton.mp hr
    simp only [checkpointMessage, Prod.mk.injEq, Bytes.checkpoint.injEq, true_and] at heq
    exact Or.inr heq

theorem votedAt_append_announce {log : List SignReq} {q : MacroCheckpoint} {h : Height}
    {x : Hash32} (hv : VotedAt (log ++ [(.macroCheckpoint, checkpointMessage q)]) h x) :
    VotedAt log h x ∨ h = q.height ∧ x = q.hash := by
  obtain ⟨cp, hcp, hh, hx⟩ := hv
  cases votedFor_append_announce hcp with
  | inl hold => exact Or.inl ⟨cp, hold, hh, hx⟩
  | inr heq =>
    subst heq
    exact Or.inr ⟨hh.symm, hx.symm⟩

theorem not_checkpoint_of_foreign {sg : List SignReq} (hsg : ∀ r ∈ sg, r.1.isMacro = false) :
    ∀ r ∈ sg, r.1 ≠ .macroCheckpoint := by
  intro r hr hdst
  have hf := hsg r hr
  rw [hdst] at hf
  cases hf

/-- The lock against the votes `V`, given by height and hash. -/
structure LockInv (V : Height → Hash32 → Prop) (c : MacroCore) : Prop where
  reach : ∀ h x, c.locks.locks[c.selfId]? = some (h, x) → h ≤ c.nextHeight
  covers : ∀ h x, V h x → ∃ h' y, c.locks.locks[c.selfId]? = some (h', y) ∧
    h ≤ h' ∧ (h = h' → x = y)
  once : ∀ h x y, V h x → V h y → x = y
  due : ∀ (h : Height) (id : TimerId), c.modeB[h]? = some id → h = c.nextHeight

/-- Taking the lock at one's own height cannot change what is locked there. -/
theorem tryLock_same {l l' : LockMacro} {v : ValidatorId} {height : Height} {x y : Hash32}
    (h : l.tryLock v height y = .ok l') (hl : l.locks[v]? = some (height, x)) : x = y := by
  unfold LockMacro.tryLock at h
  rw [hl] at h
  dsimp only at h
  split at h
  · cases h
  · rename_i hne
    simpa using hne

section Lock
variable {V V' : Height → Hash32 → Prop} {c : MacroCore}

theorem LockInv.mono (hinv : LockInv V c) (hsub : ∀ h x, V' h x → V h x) : LockInv V' c where
  reach := hinv.reach
  covers := fun h x hv => hinv.covers h x (hsub h x hv)
  once := fun h x y hx hy => hinv.once h x y (hsub h x hx) (hsub h y hy)
  due := hinv.due

theorem LockInv.relock {locks : LockMacro} {y : Hash32} (hinv : LockInv V c)
    (hlock : c.locks.tryLock c.selfId c.nextHeight y = .ok locks)
    (modeB : Std.TreeMap Height TimerId)
    (hdue : ∀ (h : Height) (id : TimerId), modeB[h]? = some id → h = c.nextHeight) :
    LockInv V { c with locks := locks, modeB := modeB } where
  reach := by
    intro h x hl
    rw [tryLock_locks hlock] at hl
    cases hl
    exact Nat.le_refl _
  covers := by
    intro h x hv
    obtain ⟨h', x', hl, hle, heq⟩ := hinv.covers h x hv
    have hreach := hinv.reach h' x' hl
    refine ⟨c.nextHeight, y, tryLock_locks hlock, Nat.le_trans hle hreach, ?_⟩
    intro hn
    have hh : h' = c.nextHeight := Nat.le_antisymm hreach (hn ▸ hle)
    subst hh
    rw [heq hn]
    exact tryLock_same hlock hl
  once := hinv.once
  due := hdue

theorem LockInv.vote {h : Height} {x : Hash32} (hinv : LockInv V c)
    (hlock : c.locks.locks[c.selfId]? = some (h, x))
    (hV : ∀ h' x', V' h' x' → V h' x' ∨ h' = h ∧ x' = x) : LockInv V' c := by
  have hsame : ∀ y, V h y → y = x := by
    intro y hy
    obtain ⟨h', y', hl, -, heq⟩ := hinv.covers h y hy
    rw [hlock] at hl
    cases hl
    exact heq rfl
  refine ⟨hinv.reach, ?_, ?_, hinv.due⟩
  · intro h' x' hv
    cases hV h' x' hv with
    | inl hold => exact hinv.covers h' x' hold
    | inr hnew =>
      obtain ⟨rfl, rfl⟩ := hnew
      exact ⟨_, _, hlock, Nat.le_refl _, fun _ => rfl⟩
  · intro h' a b ha hb
    cases hV h' a ha with
    | inl hold =>
      cases hV h' b hb with
      | inl hold' => exact hinv.once h' a b hold hold'
      | inr hnew' =>
        obtain ⟨rfl, rfl⟩ := hnew'
        exact hsame a hold
    | inr hnew =>
      obtain ⟨rfl, rfl⟩ := hnew
      cases hV _ b hb with
      | inl hold' => exact (hsame b hold').symm
      | inr hnew' => exact hnew'.2.symm

end Lock

theorem lockInv_init (self : ValidatorId) {V : Height → Hash32 → Prop} (hV : ∀ h x, ¬ V h x) :
    LockInv V (MacroBook.new self).core where
  reach := by
    intro h x hl
    simp [MacroBook.new, MacroBook.core] at hl
  covers := fun h x hv => absurd hv (hV h x)
  once := fun h x _ hv => absurd hv (hV h x)
  due := by
    intro h id hl
    simp [MacroBook.new, MacroBook.core] at hl

/-- A vote that is not stale goes to the next height. -/
theorem vote_at_next {cr : Crypto} {call : NodeCall} {ps : List MacroCheckpoint}
    {c : MacroCore} {p : MacroProposal} {old : MacroCheckpoint} (hinv : ChainInv ps c)
    (hgood : staleVote cr call = false)
    (hev : call.event = some (.macroProposalReceived p))
    (hacc : accepts cr call.pre.cfg call.ctx p call.pre.macros = true)
    (hpre : c.spine = call.pre.macros.core.spine)
    (hold : c.candidate[p.checkpoint.height]? = some old) :
    p.checkpoint.height = c.nextHeight := by
  have hnext : c.nextHeight = call.pre.macros.nextHeight := congrArg MacroCore.nextHeight hpre
  have hge : ¬ p.checkpoint.height < call.pre.macros.nextHeight := by
    simpa [staleVote, hev, hacc] using hgood
  rw [← hnext] at hge
  exact Nat.le_antisymm (hinv.height _ old hold).2 (Nat.le_of_not_lt hge)

/-- The lock follows every move, as long as proposals are voted for at the next height. -/
theorem lockInv_keep {cr : Crypto} {call : NodeCall} {V : Height → Hash32 → Prop}
    {c d : MacroCore} {sg : List SignReq} {acts : List Action}
    (hat : ∀ p old, call.event = some (.macroProposalReceived p) →
      accepts cr call.pre.cfg call.ctx p call.pre.macros = true →
      c.spine = call.pre.macros.core.spine → p.checkpoint.parent = c.lastMacroHash →
      c.candidate[p.checkpoint.height]? = some old → p.checkpoint.height = c.nextHeight)
    (hm : Move cr call c sg acts d) (hinv : LockInv V c) : LockInv V d := by
  cases hm with
  | recordVote p old locks hev hacc hpre hparent hold hroot hhash hlock =>
    rw [hat p old hev hacc hpre hparent hold] at hlock
    have hre := hinv.relock hlock c.modeB hinv.due
    exact ⟨hre.reach, hre.covers, hre.once, hre.due⟩
  | lock height cp locks id hdue hc hlock =>
    have hh := hinv.due height id hdue
    subst hh
    refine hinv.relock hlock (c.modeB.erase c.nextHeight) ?_
    intro h id' hid
    rw [Maps.get_erase] at hid
    split at hid
    · cases hid
    · exact hinv.due h id' hid
  | arm id acts hacts =>
    refine ⟨hinv.reach, hinv.covers, hinv.once, ?_⟩
    intro h id' hid
    simp only [Maps.get_insert] at hid
    split at hid
    · rename_i heq
      exact heq.symm
    · exact hinv.due h id' hid
  | disarm height =>
    refine ⟨hinv.reach, hinv.covers, hinv.once, ?_⟩
    intro h id' hid
    simp only [Maps.get_erase] at hid
    split at hid
    · cases hid
    · exact hinv.due h id' hid
  | _ => exact ⟨hinv.reach, hinv.covers, hinv.once, hinv.due⟩

theorem lockInv_move {cr : Crypto} {call : NodeCall} {ps : List MacroCheckpoint}
    {log : List SignReq} {c d : MacroCore} {sg : List SignReq} {acts : List Action}
    (hgood : staleVote cr call = false) (hm : Move cr call c sg acts d)
    (hchain : ChainInv ps c) (hinv : LockInv (VotedAt log) c) :
    LockInv (VotedAt (log ++ sg)) d := by
  have hkeep := lockInv_keep
    (fun p old hev hacc hpre _ hold => vote_at_next hchain hgood hev hacc hpre hold) hm hinv
  cases hm with
  | announce height cp subnet hc hlock =>
    rw [← (hchain.height height cp hc).1] at hlock
    exact hkeep.vote hlock fun _ _ hv => votedAt_append_announce hv
  | _ => exact hkeep.mono fun _ _ hv => votedAt_append_of_ne hv (by simp)

theorem lockInv_adopted {ps : List MacroCheckpoint} {V : Height → Hash32 → Prop} {c : MacroCore}
    {height : Height} {cand : MacroCheckpoint} (hchain : ChainInv ps c) (hinv : LockInv V c)
    (hc : c.candidate[height]? = some cand) (hnew : cand.hash ∉ c.emittedMacroQc) :
    LockInv V (c.adopted height cand) := by
  have heq := hchain.adopts_next hc hnew
  refine ⟨?_, hinv.covers, hinv.once, ?_⟩
  · intro h x hl
    rw [heq]
    exact Nat.le_succ_of_le (hinv.reach h x hl)
  · intro h id hid
    simp only [MacroCore.adopted, Maps.get_erase] at hid
    split at hid
    · cases hid
    · rename_i hne
      exact absurd (heq.trans (hinv.due h id hid).symm) hne

/- The hash of a candidate is that of a checkpoint built for its height. -/

def BuiltAt (cr : Crypto) (h : Height) (x : Hash32) : Prop :=
  ∃ parent root, (build cr h 0 parent root).hash = x

theorem BuiltAt.height_unique {cr : Crypto} (hinj : HashInjective cr) {h h' : Height}
    {x : Hash32} (hx : BuiltAt cr h x) (hx' : BuiltAt cr h' x) : h = h' := by
  obtain ⟨p, r, hpr⟩ := hx
  obtain ⟨p', r', hpr'⟩ := hx'
  exact (hinj _ _ _ _ _ _ _ _ (hpr.trans hpr'.symm)).1

structure FormInv (cr : Crypto) (log : List SignReq) (c : MacroCore) : Prop where
  candidate : ∀ (h : Height) (cp : MacroCheckpoint), c.candidate[h]? = some cp →
    BuiltAt cr h cp.hash
  vote : ∀ cp, VotedFor log cp → BuiltAt cr cp.height cp.hash

theorem formInv_move {cr : Crypto} {call : NodeCall} {ps : List MacroCheckpoint}
    {log : List SignReq} {c d : MacroCore} {sg : List SignReq} {acts : List Action}
    (hm : Move cr call c sg acts d) (hchain : ChainInv ps c) (hinv : FormInv cr log c) :
    FormInv cr (log ++ sg) d := by
  have hkeep : ∀ sg : List SignReq, (∀ r ∈ sg, r.1 ≠ .macroCheckpoint) →
      ∀ cp, VotedFor (log ++ sg) cp → BuiltAt cr cp.height cp.hash :=
    fun sg hsg cp hcp => hinv.vote cp (votedFor_append_of_ne hcp hsg)
  cases hm with
  | window root =>
    refine ⟨?_, hkeep [] (by simp)⟩
    intro h cp hcp
    simp only [Maps.get_insert] at hcp
    split at hcp
    · rename_i heq
      cases hcp
      exact ⟨c.lastMacroHash, root, by rw [heq]⟩
    · exact hinv.candidate h cp hcp
  | recordVote p old locks hev hacc hpre hparent hold hroot hhash hlock =>
    refine ⟨?_, hkeep _ (by simp)⟩
    intro h cp hcp
    simp only [Maps.get_insert] at hcp
    split at hcp
    · rename_i heq
      cases hcp
      rw [← hhash, ← heq]
      exact hinv.candidate _ old hold
    · exact hinv.candidate h cp hcp
  | announce height cp subnet hc hlock =>
    refine ⟨hinv.candidate, ?_⟩
    intro q hq
    cases votedFor_append_announce hq with
    | inl hold => exact hinv.vote q hold
    | inr heq =>
      subst heq
      rw [(hchain.height height q hc).1]
      exact hinv.candidate height q hc
  | propose height cp proof hc hfirst => exact ⟨hinv.candidate, hkeep _ (by simp)⟩
  | _ => exact ⟨hinv.candidate, hkeep [] (by simp)⟩

def FormHistory (cr : Crypto) (log : List SignReq) (as : List Action) (c : MacroCore) : Prop :=
  ChainHistory log as c ∧ FormInv cr log c

theorem formHistory_kept (cr : Crypto) (call : NodeCall) :
    KeptBy cr (FormHistory cr) call where
  move := fun log as _ _ _ _ hsg hm h =>
    ⟨(chainHistory_kept cr call).move log as _ _ _ _ hsg hm h.1, formInv_move hm h.1.1 h.2⟩
  other := fun _ _ _ _ hsg h => ⟨h.1, h.2.candidate, fun cp hcp =>
    h.2.vote cp (votedFor_append_of_ne hcp (not_checkpoint_of_foreign hsg))⟩

theorem formHistory_adopt {cr : Crypto} {call : NodeCall} {log : List SignReq}
    {as : List Action} {c d : MacroCore} {acts : List Action} (h : FormHistory cr log as c)
    (ha : Adopt cr call c acts d) : FormHistory cr log (as ++ adoptionsIn acts) d := by
  refine ⟨chainHistory_adopt h.1 ha, ?_⟩
  cases ha with
  | mk set height cand qc own leak hset hpre hnew hc hnames hqc hleak =>
    exact ⟨h.2.candidate, h.2.vote⟩

theorem formHistory_init (cr : Crypto) (self : ValidatorId) :
    FormHistory cr [] [] (MacroBook.new self).core := by
  refine ⟨⟨chainInv_init self, rfl⟩, ?_, ?_⟩
  · intro h cp hcp
    simp [MacroBook.new, MacroBook.core] at hcp
  · intro cp hcp
    simp [VotedFor] at hcp

theorem run_form (cr : Crypto) (cfg : Config) (self : ValidatorId)
    (is : List StateMachine.Input) :
    FormHistory cr (StateMachine.signLog cr cfg self is)
      (adoptionsIn (StateMachine.actions cr cfg self is))
      (StateMachine.reached cr cfg self is).macros.core :=
  run_invariant (fun _ => True) (fun call _ => formHistory_kept cr call)
    (fun _ _ _ _ _ _ _ => formHistory_adopt) cfg self (formHistory_init cr self) is
    (fun _ _ => trivial)

def LockHistory (cr : Crypto) (log : List SignReq) (as : List Action) (c : MacroCore) : Prop :=
  FormHistory cr log as c ∧ LockInv (VotedAt log) c

theorem lockHistory_kept {cr : Crypto} {call : NodeCall} (hgood : staleVote cr call = false) :
    KeptBy cr (LockHistory cr) call where
  move := fun log as _ _ _ _ hsg hm h =>
    ⟨(formHistory_kept cr call).move log as _ _ _ _ hsg hm h.1, lockInv_move hgood hm h.1.1.1 h.2⟩
  other := fun log as _ sg hsg h => ⟨(formHistory_kept cr call).other log as _ sg hsg h.1,
    h.2.mono fun _ _ hv => votedAt_append_of_ne hv (not_checkpoint_of_foreign hsg)⟩

theorem lockHistory_adopt {cr : Crypto} {call : NodeCall} {log : List SignReq}
    {as : List Action} {c d : MacroCore} {acts : List Action} (h : LockHistory cr log as c)
    (ha : Adopt cr call c acts d) : LockHistory cr log (as ++ adoptionsIn acts) d := by
  refine ⟨formHistory_adopt h.1 ha, ?_⟩
  cases ha with
  | mk set height cand qc own leak hset hpre hnew hc hnames hqc hleak =>
    exact lockInv_adopted h.1.1.1 h.2 hc hnew

theorem run_lock (cr : Crypto) (cfg : Config) (self : ValidatorId)
    (is : List StateMachine.Input)
    (hgood : ∀ call ∈ StateMachine.run cr cfg self is, staleVote cr call = false) :
    LockHistory cr (StateMachine.signLog cr cfg self is)
      (adoptionsIn (StateMachine.actions cr cfg self is))
      (StateMachine.reached cr cfg self is).macros.core :=
  run_invariant (fun call => staleVote cr call = false) (fun _ hg => lockHistory_kept hg)
    (fun _ _ _ _ _ _ _ => lockHistory_adopt) cfg self
    ⟨formHistory_init cr self, lockInv_init self (by simp [VotedAt, VotedFor])⟩ is hgood

/- Every partial a node sends has been signed. -/

theorem move_partial_signed {cr : Crypto} {call : NodeCall} {c d : MacroCore}
    {sg : List SignReq} {acts : List Action} (hm : Move cr call c sg acts d) {bp : BlsPartial}
    (hbp : Action.broadcastBlsPartial bp ∈ acts) :
    ∃ cp, cp.hash = bp.checkpointHash ∧ VotedFor sg cp := by
  cases hm with
  | plain acts hacts => exact absurd (hacts _ hbp) (by simp [Action.isMacroTraffic])
  | arm id acts hacts => exact absurd (hacts _ hbp) (by simp [Action.isMacroTraffic])
  | recordVote p old locks hev hacc hpre hparent hold hroot hhash hlock =>
    cases List.mem_append.mp hbp with
    | inl hl => simp [Option.mem_toList] at hl
    | inr hr => simp [Option.mem_toList] at hr
  | announce height cp subnet hc hlock =>
    have heq := List.mem_singleton.mp hbp
    cases heq
    exact ⟨cp, rfl, List.mem_singleton.mpr rfl⟩
  | _ => simp at hbp

theorem adopt_announces_nothing {cr : Crypto} {call : NodeCall} {c d : MacroCore}
    {acts : List Action} (ha : Adopt cr call c acts d) (bp : BlsPartial) :
    Action.broadcastBlsPartial bp ∉ acts := by
  cases ha with
  | mk set height cand qc own leak hset hpre hnew hc hnames hqc hleak =>
    intro hbp
    simp only [List.mem_append, or_assoc] at hbp
    obtain hown | hact | hl | hf := hbp
    · split at hown <;> simp at hown
    · simp [adoptionActions] at hact
    · exact absurd (hleak _ hl) (by simp [Action.isMacroTraffic])
    · obtain ⟨prev, cp, -, -, heq⟩ := finalizedActions_spec hf
      cases heq

theorem exec_partial_signed (cr : Crypto) (call : NodeCall) (bp : BlsPartial)
    (hbp : Action.broadcastBlsPartial bp ∈ (StateMachine.exec cr call.input call.pre).actions) :
    ∃ cp, cp.hash = bp.checkpointHash ∧
      VotedFor (StateMachine.exec cr call.input call.pre).signed cp := by
  have hpath : ∀ {c d : MacroCore} {sg : List SignReq} {acts : List Action},
      Simulation.Moves (NodeMove cr call) c sg acts d → Action.broadcastBlsPartial bp ∈ acts →
      ∃ cp, cp.hash = bp.checkpointHash ∧ VotedFor sg cp := by
    intro c d sg acts h
    induction h with
    | refl => simp
    | step _ hm ih =>
      intro hmem
      cases List.mem_append.mp hmem with
      | inl hl =>
        obtain ⟨cp, hh, hv⟩ := ih hl
        exact ⟨cp, hh, List.mem_append_left _ hv⟩
      | inr hr =>
        cases hm with
        | own hmove =>
          obtain ⟨cp, hh, hv⟩ := move_partial_signed hmove hr
          exact ⟨cp, hh, List.mem_append_right _ hv⟩
        | other hsg hacts => exact absurd (hacts _ hr) (by simp [Action.isDecision])
  cases exec_handled cr call with
  | inl hs =>
    obtain ⟨acts, hp, hacts⟩ := hs.actions
    exact hpath hp (hacts _ hbp)
  | inr ha =>
    obtain ⟨acts, d, acts', hp, hadopt, hres⟩ := ha
    simp only [Outcome.actions, hres] at hbp
    cases List.mem_append.mp hbp with
    | inl hl => exact hpath hp hl
    | inr hr => exact absurd hr (adopt_announces_nothing hadopt bp)

theorem run_partial_signed {cr : Crypto} {cfg : Config} {self : ValidatorId}
    {is : List StateMachine.Input} {bp : BlsPartial}
    (hbp : Action.broadcastBlsPartial bp ∈ StateMachine.actions cr cfg self is) :
    ∃ cp, cp.hash = bp.checkpointHash ∧ VotedFor (StateMachine.signLog cr cfg self is) cp := by
  obtain ⟨call, hcall, hact⟩ := List.mem_flatMap.mp hbp
  obtain ⟨cp, hh, hv⟩ := exec_partial_signed cr call bp hact
  exact ⟨cp, hh, List.mem_flatMap.mpr ⟨call, hcall, hv⟩⟩

def WasCandidate (cr : Crypto) (cfg : Config) (self : ValidatorId)
    (is : List StateMachine.Input) (h : Height) (x : Hash32) : Prop :=
  ∃ js cp, js <+: is ∧
    (StateMachine.reached cr cfg self js).macros.candidate[h]? = some cp ∧ cp.hash = x

/-- `lock_macro`: no partials for two checkpoint hashes that were candidates at the
same height. -/
def OneVotePerHeight (cr : Crypto) (cfg : Config) (self : ValidatorId)
    (is : List StateMachine.Input) : Prop :=
  ∀ bp bp' h, Action.broadcastBlsPartial bp ∈ StateMachine.actions cr cfg self is →
    Action.broadcastBlsPartial bp' ∈ StateMachine.actions cr cfg self is →
    WasCandidate cr cfg self is h bp.checkpointHash →
    WasCandidate cr cfg self is h bp'.checkpointHash → bp.checkpointHash = bp'.checkpointHash

/-- A run that casts no vote on an already adopted height votes once per height. -/
theorem one_vote_per_height (cr : Crypto) (hinj : HashInjective cr) (cfg : Config)
    (self : ValidatorId) (is : List StateMachine.Input)
    (hgood : ∀ call ∈ StateMachine.run cr cfg self is, staleVote cr call = false) :
    OneVotePerHeight cr cfg self is := by
  have hinv := run_lock cr cfg self is hgood
  have hheight : ∀ (h : Height) (bp : BlsPartial) (cp : MacroCheckpoint),
      cp.hash = bp.checkpointHash → VotedFor (StateMachine.signLog cr cfg self is) cp →
      WasCandidate cr cfg self is h bp.checkpointHash → cp.height = h := by
    intro h bp cp hcp hvote ⟨js, q, _, hq, hqx⟩
    have hform := (run_form cr cfg self js).2.candidate h q hq
    have hbuilt := hinv.1.2.vote cp hvote
    rw [hqx, ← hcp] at hform
    exact hbuilt.height_unique hinj hform
  intro bp bp' h hbp hbp' hcand hcand'
  obtain ⟨cp, hcp, hvote⟩ := run_partial_signed hbp
  obtain ⟨cp', hcp', hvote'⟩ := run_partial_signed hbp'
  have hsame := hinv.2.once h cp.hash cp'.hash ⟨cp, hvote, hheight h bp cp hcp hvote hcand, rfl⟩
    ⟨cp', hvote', hheight h bp' cp' hcp' hvote' hcand', rfl⟩
  rw [← hcp, ← hcp', hsame]

section Devnet
open Devnet

def lockRecords : List Record :=
  partialsBy [0, 1, 3] a0 ++ [proposedBy 0 a0, proposedBy 0 a1]

/-- The node adopts `a0`, votes for `a1`, and closes another window. Then the proposal
of `a0` arrives with `a0` itself written in as parent, and the Mode B deadline of
height 1 passes. -/
def lockScript : List (Round × Event) :=
  [closesWave 1, qcReceived [0, 1, 3] a0.hash, closesWave 2, proposal 0 a1, closesWave 3,
    proposal 0 { a0 with parent := a0.hash }, (13, .timerFired 2)]

theorem one_vote_per_height_without_replay :
    OneVotePerHeight (crypto (recordedIn lockRecords)) config ⟨2⟩
      (script 2 (lockScript.take 5)) :=
  one_vote_per_height _ (hashInjective _) _ _ _ (by decide)

/-- The replayed proposal moves the lock away from height 1, and the node votes there
again. -/
theorem two_votes_at_one_height :
    ¬ OneVotePerHeight (crypto (recordedIn lockRecords)) config ⟨2⟩ (script 2 lockScript) := by
  intro h
  have hfirst : WasCandidate (crypto (recordedIn lockRecords)) config ⟨2⟩ (script 2 lockScript) 1
      a1.hash :=
    ⟨script 2 (lockScript.take 3), a1, (List.take_prefix 3 lockScript).map _, by decide,
      rfl⟩
  have hsecond : WasCandidate (crypto (recordedIn lockRecords)) config ⟨2⟩ (script 2 lockScript) 1
      b1.hash :=
    ⟨script 2 (lockScript.take 5), b1, (List.take_prefix 5 lockScript).map _, by decide,
      rfl⟩
  have heq := h ⟨0, ⟨2⟩, a1.hash, sigOf ⟨2⟩⟩ ⟨0, ⟨2⟩, b1.hash, sigOf ⟨2⟩⟩ 1
    (by decide) (by decide) hfirst hsecond
  exact absurd heq (by decide)

end Devnet
end LuaDag
