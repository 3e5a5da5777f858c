import LuaDag.WavePass
import LuaDag.MacroWalk

/-! The ring and the timers of L3. Only the handler of local micro QCs fills the ring and
starts timers; all others leave the ring alone and at most drop timers. -/
namespace LuaDag

def Action.isTimer : Action → Bool
  | .scheduleTimer _ _ | .cancelTimer _ => true
  | _ => false

structure MacroTimerBook.Fewer (t t' : MacroTimerBook) : Prop where
  seq : t.seq = t'.seq
  backup : ∀ (h : Height) (id : TimerId), t.backupByHeight[h]? = some id →
    t'.backupByHeight[h]? = some id
  modeB : ∀ (h : Height) (id : TimerId), t.modeBByHeight[h]? = some id →
    t'.modeBByHeight[h]? = some id

namespace MacroTimerBook

theorem Fewer.refl (t : MacroTimerBook) : Fewer t t := ⟨rfl, fun _ _ h => h, fun _ _ h => h⟩

theorem Fewer.trans {t t' t'' : MacroTimerBook} (h : Fewer t t') (h' : Fewer t' t'') :
    Fewer t t'' :=
  ⟨h.seq.trans h'.seq, fun x id hx => h'.backup x id (h.backup x id hx),
    fun x id hx => h'.modeB x id (h.modeB x id hx)⟩

theorem clearBackup_fewer (t : MacroTimerBook) (height : Height) :
    Fewer (t.clearBackup height) t := by
  refine ⟨rfl, ?_, fun _ _ h => h⟩
  intro x id hx
  exact Maps.get_of_erase hx

theorem clearModeB_fewer (t : MacroTimerBook) (height : Height) :
    Fewer (t.clearModeB height) t := by
  refine ⟨rfl, fun _ _ h => h, ?_⟩
  intro x id hx
  exact Maps.get_of_erase hx

end MacroTimerBook

structure Shrinks (b b' : MacroBook) : Prop where
  ring : b.microRing = b'.microRing
  timers : MacroTimerBook.Fewer b.timers b'.timers

theorem Shrinks.refl (b : MacroBook) : Shrinks b b := ⟨rfl, .refl _⟩

/-- The handler starts no timer and leaves the ring alone. -/
structure Rests (book : MacroBook) (o : Result MacroBook) : Prop where
  state : Shrinks o.state book
  actions : ∀ a ∈ o.actions, a.isTimer = false

open MacroFin

/- Every kind of write but those of a window. -/
section Rest
variable (book : MacroBook)

theorem rests_notes : KeptByNotes (fun b => Shrinks b book) (fun a => a.isTimer = false) where
  counted := fun _ _ _ h => ⟨h.ring, h.timers⟩
  frozen := fun _ _ _ h => ⟨h.ring, h.timers⟩
  seen := fun _ _ h => ⟨h.ring, h.timers⟩
  backupCleared := fun b height h => ⟨h.ring, (b.timers.clearBackup_fewer height).trans h.timers⟩
  modeBCleared := fun b height h => ⟨h.ring, (b.timers.clearModeB_fewer height).trans h.timers⟩
  accuses := fun _ _ => rfl

theorem rests_proposals :
    KeptByProposals (fun b => Shrinks b book) (fun a => a.isTimer = false) :=
  ⟨fun _ _ h => ⟨h.ring, h.timers⟩, fun _ => rfl⟩

theorem rests_records : KeptByRecords (fun b => Shrinks b book) :=
  ⟨fun _ _ h => ⟨h.ring, h.timers⟩, fun _ _ _ h => ⟨h.ring, h.timers⟩⟩

theorem rests_votes : KeptByVotes (fun b => Shrinks b book) (fun a => a.isTimer = false) where
  recorded := fun _ b _ cp h => ⟨h.ring, (b.timers.clearBackup_fewer cp.height).trans h.timers⟩
  activated := fun _ _ h => ⟨h.ring, h.timers⟩
  locked := fun _ _ h => ⟨h.ring, h.timers⟩
  surround := fun _ _ => rfl
  doubleVote := fun _ _ => rfl
  announces := fun _ => rfl
  confirms := fun _ => rfl

theorem rests_subnets : KeptBySubnets (fun b => Shrinks b book) (fun a => a.isTimer = false) :=
  ⟨fun _ _ h => ⟨h.ring, h.timers⟩, fun _ _ h => ⟨h.ring, h.timers⟩, fun _ => rfl⟩

theorem rests_adoptions :
    KeptByAdoptions (fun b => Shrinks b book) (fun a => a.isTimer = false) where
  accounted := fun _ _ _ h => ⟨h.ring, h.timers⟩
  finalized := fun _ _ h => ⟨h.ring, h.timers⟩
  notifies := fun _ _ => rfl
  finalizes := fun _ => rfl
  adopted := fun b height _ _ _ h => ⟨h.ring,
    ((b.timers.clearBackup height).clearModeB_fewer height).trans
      ((b.timers.clearBackup_fewer height).trans h.timers)⟩
  broadcasts := fun _ => rfl
  persists := by simp [adoptionActions, Action.isTimer]

theorem Rests.of_keeps {book : MacroBook} {o : Result MacroBook}
    (h : Outcome.Sound (fun b => Shrinks b book) (fun a => a.isTimer = false) o) : Rests book o :=
  ⟨h.state, h.actions⟩

end Rest

theorem MacroFin.propose_rests (ctx : HostContext) (beacon : Hash32) (height : Height)
    (cand : MacroCheckpoint) (book : MacroBook) :
    Rests book (propose ctx beacon height cand book) :=
  .of_keeps (propose_keeps (rests_proposals book) beacon height cand (.refl book))

/-- All handlers of L3 but the one of local micro QCs. -/
theorem MacroHandler.rests {cr : Crypto} {call : NodeCall} {f : MacroBook → Result MacroBook}
    (h : MacroHandler cr call f) (hev : ∀ cv, call.event ≠ some (.certifiedVertexReceived cv))
    (book : MacroBook) : Rests book (f book) := by
  have hnotes := rests_notes book
  have hproposals := rests_proposals book
  have hrecords := rests_records book
  have hvotes := rests_votes book
  have hsubnets := rests_subnets book
  have hadoptions := rests_adoptions book
  apply Rests.of_keeps
  cases h with
  | micro cv acts h hacts => exact absurd h (hev cv)
  | proposal p h =>
    exact onMacroProposal_keeps hnotes hrecords hvotes hsubnets p (.refl book)
  | vote bp h => exact onBlsPartial_keeps hnotes hrecords hsubnets hadoptions bp (.refl book)
  | aggregate a h => exact onSubnetAggregate_keeps hnotes hsubnets hadoptions a (.refl book)
  | qc qc h => exact onMacroQcReceived_keeps hnotes hadoptions qc (.refl book)
  | timer id h => exact onTimerFired_keeps hnotes hproposals hrecords hvotes id (.refl book)

/- The ring. -/

def ringAfter (w : Nat) : List Hash32 → List Hash32 → List Hash32
  | ring, [] => ring
  | ring, h :: hs =>
    if (ring ++ [h]).length < w then ringAfter w (ring ++ [h]) hs else ringAfter w [] hs

theorem ringAfter_append (w : Nat) (ring hs hs' : List Hash32) :
    ringAfter w ring (hs ++ hs') = ringAfter w (ringAfter w ring hs) hs' := by
  induction hs generalizing ring with
  | nil => rfl
  | cons h hs ih =>
    rw [List.cons_append, ringAfter, ringAfter]
    split
    · exact ih _
    · exact ih _

section Push
variable (cr : Crypto) (cfg : Config) (ctx : HostContext) (set : ValidatorSet)

/-- The hashes `on_local_micro_qcs` pushes: all of them, unless one push fails. -/
def pushedOf : List Hash32 → MacroBook → List Hash32
  | [], _ => []
  | h :: hs, book =>
    h :: match (pushMicroQc cr cfg ctx set h book).result with
      | .error _ => []
      | .ok _ => pushedOf hs (pushMicroQc cr cfg ctx set h book).state

def pushAll (hs : List Hash32) (o : Result MacroBook) : Result MacroBook :=
  hs.foldl (fun o h => o.andThen (pushMicroQc cr cfg ctx set h)) o

variable {cr cfg ctx set}

theorem pushAll_error {o : Result MacroBook} {e : Error} (h : o.result = .error e)
    (hs : List Hash32) : pushAll cr cfg ctx set hs o = o := by
  induction hs with
  | nil => rfl
  | cons x hs ih =>
    rw [pushAll, List.foldl_cons, Outcome.andThen_of_error h]
    exact ih

theorem pushMicroQc_ring (h : Hash32) (book : MacroBook) :
    (pushMicroQc cr cfg ctx set h book).state.microRing =
      if (book.microRing ++ [h]).length < cfg.macroFin.macroWindowW then book.microRing ++ [h]
      else [] := by
  unfold pushMicroQc
  dsimp only
  split
  · rfl
  · exact (closeWindow_rest cr cfg ctx set _).1

theorem pushAll_ring (hs : List Hash32) {o : Result MacroBook} {acts : List Action}
    (ho : o.result = .ok acts) :
    (pushAll cr cfg ctx set hs o).state.microRing =
      ringAfter cfg.macroFin.macroWindowW o.state.microRing
        (pushedOf cr cfg ctx set hs o.state) := by
  induction hs generalizing o acts with
  | nil => rfl
  | cons h hs ih =>
    rw [pushAll, List.foldl_cons, ← pushAll, pushedOf, ringAfter]
    have hring := @pushMicroQc_ring cr cfg ctx set h o.state
    cases hr : (pushMicroQc cr cfg ctx set h o.state).result with
    | error e =>
      have hfail : (o.andThen (pushMicroQc cr cfg ctx set h)).result = .error e :=
        Outcome.andThen_error_iff.mpr (Or.inr ⟨acts, ho, hr⟩)
      rw [pushAll_error hfail, Outcome.andThen_of_ok ho]
      dsimp only
      rw [hring]
      split <;> rfl
    | ok acts' =>
      have hok : (o.andThen (pushMicroQc cr cfg ctx set h)).result = .ok (acts ++ acts') := by
        rw [Outcome.andThen_of_ok ho, hr]
        rfl
      rw [ih hok, Outcome.andThen_of_ok ho]
      dsimp only
      rw [hring]
      split <;> rfl

/- Pushes that succeed. -/

theorem vrfSortition_ok (beacon : Hash32) (height : Height) (rep : ValidatorId → Reputation)
    (hlen : 2 ≤ set.entries.length) :
    ∃ schedule, vrfSortition cr beacon set height rep = .ok schedule := by
  unfold vrfSortition
  dsimp only
  split
  · exact ⟨_, rfl⟩
  · rename_i hshort
    have hsize := List.length_insertionSort (· ≤ ·) (set.entries.map fun e =>
      (toLex (cr.sortitionScore (macroSortitionBeta cr beacon height e.id) set.totalStake e.stake
        (rep e.id), e.id) : Nat ×ₗ ValidatorId))
    rw [List.length_map] at hsize
    match hl : (set.entries.map fun e => (toLex (cr.sortitionScore
        (macroSortitionBeta cr beacon height e.id) set.totalStake e.stake (rep e.id), e.id) :
        Nat ×ₗ ValidatorId)).insertionSort (· ≤ ·) with
    | [] =>
      rw [hl, List.length_nil] at hsize
      omega
    | [x] =>
      rw [hl, List.length_singleton] at hsize
      omega
    | a :: b :: rest => exact absurd hl (hshort a b rest)

theorem vrfSortition_short (hshort : set.entries.length < 2)
    (beacon : Hash32) (height : Height) (rep : ValidatorId → Reputation) :
    ∃ e, vrfSortition cr beacon set height rep = .error e := by
  unfold vrfSortition
  dsimp only
  split
  · rename_i x y rest hsort
    have hsize := congrArg List.length hsort
    rw [List.length_insertionSort, List.length_map] at hsize
    simp only [List.length_cons] at hsize
    omega
  · exact ⟨_, rfl⟩

def CanPropose (cr : Crypto) (ctx : HostContext) (set : ValidatorSet) (book : MacroBook) : Prop :=
  ∃ beacon schedule, ctx.beacon = .ok beacon ∧
    vrfSortition cr beacon set book.nextHeight book.reputation = .ok schedule ∧
    (schedule.primary = book.selfId →
      ∃ proof, ctx.vrfProve (vrfAlpha beacon book.nextHeight book.selfId) = .ok proof)

theorem CanPropose.lead {book book' : MacroBook} (h : CanPropose cr ctx set book)
    (hlead : SameLead book' book) : CanPropose cr ctx set book' := by
  unfold CanPropose
  rw [hlead.nextHeight, hlead.reputation, hlead.selfId]
  exact h

theorem closeWindow_ok {book : MacroBook} (h : CanPropose cr ctx set book) :
    ∃ acts, (closeWindow cr cfg ctx set book).result = .ok acts := by
  obtain ⟨beacon, schedule, hbeacon, hsched, hprove⟩ := h
  have hrole : ∃ acts, (takeRole cr cfg ctx set beacon book.nextHeight (windowCandidate cr book)
      (freezeBeacon book.nextHeight beacon (installCandidate cr book))).result = .ok acts := by
    have hsched' : vrfSortition cr beacon set book.nextHeight
      (freezeBeacon book.nextHeight beacon (installCandidate cr book)).reputation =
        .ok schedule := hsched
    unfold takeRole
    rw [hsched']
    dsimp only
    by_cases hp : schedule.primary = book.selfId
    · obtain ⟨proof, hproof⟩ := hprove hp
      have hproof' : ctx.vrfProve (vrfAlpha beacon book.nextHeight
        (freezeBeacon book.nextHeight beacon (installCandidate cr book)).selfId) =
          .ok proof := hproof
      rw [if_pos (by exact hp), propose, hproof']
      exact ⟨_, rfl⟩
    · rw [if_neg (by exact hp)]
      split
      · exact ⟨_, rfl⟩
      · exact ⟨_, rfl⟩
  obtain ⟨acts, hacts⟩ := hrole
  unfold closeWindow
  simp only [hbeacon]
  rw [Outcome.andThen_of_ok hacts]
  unfold armModeB
  split
  · exact ⟨acts ++ [], rfl⟩
  · exact ⟨_, rfl⟩

theorem pushMicroQc_lead (h : Hash32) (book : MacroBook) :
    SameLead (pushMicroQc cr cfg ctx set h book).state book := by
  unfold pushMicroQc
  dsimp only
  split
  · exact ⟨rfl, rfl, rfl⟩
  · have hclosed := (closeWindow_rest cr cfg ctx set
      { book with microRing := book.microRing ++ [h] }).2
    exact hclosed.trans ⟨rfl, rfl, rfl⟩

/-- If the windows that close can be proposed, everything is pushed. -/
theorem pushAll_ok (hs : List Hash32) {o : Result MacroBook} {acts : List Action}
    (ho : o.result = .ok acts)
    (hcan : 1 ≤ closings cfg.macroFin.macroWindowW o.state.microRing.length hs.length →
      CanPropose cr ctx set o.state) :
    (∃ acts', (pushAll cr cfg ctx set hs o).result = .ok acts') ∧
      pushedOf cr cfg ctx set hs o.state = hs := by
  induction hs generalizing o acts with
  | nil => exact ⟨⟨acts, ho⟩, rfl⟩
  | cons h hs ih =>
    have hring := @pushMicroQc_ring cr cfg ctx set h o.state
    have hlead := @pushMicroQc_lead cr cfg ctx set h o.state
    have hstep : (∃ acts', (pushMicroQc cr cfg ctx set h o.state).result = .ok acts') ∧
        (1 ≤ closings cfg.macroFin.macroWindowW
          (pushMicroQc cr cfg ctx set h o.state).state.microRing.length hs.length →
          CanPropose cr ctx set (pushMicroQc cr cfg ctx set h o.state).state) := by
      rw [hring]
      rw [List.length_cons, closings] at hcan
      by_cases hlt : (o.state.microRing ++ [h]).length < cfg.macroFin.macroWindowW
      · rw [if_pos hlt]
        rw [if_pos (by simpa using hlt)] at hcan
        refine ⟨⟨[], by simp only [pushMicroQc, if_pos hlt, Outcome.quiet_result]⟩, ?_⟩
        intro hclose
        refine (hcan ?_).lead hlead
        simpa using hclose
      · rw [if_neg hlt]
        rw [if_neg (by simpa using hlt)] at hcan
        have hpropose := hcan (Nat.le_add_left 1 _)
        refine ⟨?_, fun _ => hpropose.lead hlead⟩
        simp only [pushMicroQc, if_neg hlt]
        exact closeWindow_ok (hpropose.lead ⟨rfl, rfl, rfl⟩)
    obtain ⟨⟨acts', hacts'⟩, hnext⟩ := hstep
    have hok : (o.andThen (pushMicroQc cr cfg ctx set h)).result = .ok (acts ++ acts') := by
      rw [Outcome.andThen_of_ok ho, hacts']
      rfl
    have hstate : (o.andThen (pushMicroQc cr cfg ctx set h)).state =
        (pushMicroQc cr cfg ctx set h o.state).state := by
      rw [Outcome.andThen_of_ok ho]
    have hrest := ih hok (by rwa [hstate])
    rw [hstate] at hrest
    refine ⟨hrest.1, ?_⟩
    simp only [pushedOf, hacts', hrest.2]

end Push
end LuaDag
