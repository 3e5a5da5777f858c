import LuaDag.StableQueue
import LuaDag.Types
import LuaDag.Trace
import Mathlib.Data.Finset.Dedup
import Mathlib.Data.Rat.Defs

/-! The message bus of the simulator (`sim::virtual_net`, `sim::adversary::network`): what is
enqueued comes out once, in the order of its delivery times. -/
namespace LuaDag

structure Partition where
  left : Finset Nat
  right : Finset Nat
  active : Bool

namespace Partition

def new (left right : List Nat) : Partition := ⟨left.toFinset, right.toFinset, true⟩

def heal (p : Partition) : Partition := { p with active := false }

def allows (p : Partition) (sender recipient : Nat) : Bool :=
  if !p.active then true
  else (decide (sender ∈ p.left) && decide (recipient ∈ p.left)) ||
    (decide (sender ∈ p.right) && decide (recipient ∈ p.right))

end Partition

structure InFlight where
  recipient : Nat
  event : Event
  deliverAt : Nat
deriving DecidableEq, Repr

/-- The draws of the random number generator over its states: whether a number drawn from the
unit interval is below a probability, and a number up to a bound. -/
structure Rng (ρ : Type) where
  chance : ℚ → ρ → Bool × ρ
  upTo : Nat → ρ → Nat × ρ

def u64Max : Nat := 2 ^ 64 - 1

def saturatingAdd (a b : Nat) : Nat := min (a + b) u64Max

structure NetworkConditions where
  baseDelayNs : Nat
  maxDelayNs : Nat
  drop : ℚ
  duplicate : ℚ

namespace NetworkConditions

def perfect : NetworkConditions := ⟨0, 0, 0, 0⟩

section Perturb
variable {ρ : Type} (rng : Rng ρ)

def perturb (c : NetworkConditions) (msg : InFlight) (seed : ρ) :
    Except Error ((Option InFlight × Option InFlight) × ρ) :=
  let (dropped, seed) := rng.chance c.drop seed
  if dropped then .ok ((none, none), seed)
  else
    let (extra, seed) := if 0 < c.maxDelayNs then rng.upTo c.maxDelayNs seed else (0, seed)
    if u64Max < msg.deliverAt + extra then .error (.panic "attempt to add with overflow")
    else
      let msg := { msg with deliverAt := msg.deliverAt + extra }
      let (again, seed) := rng.chance c.duplicate seed
      .ok ((some msg, if again then some msg else none), seed)

end Perturb
end NetworkConditions

structure VirtualNet where
  pending : List InFlight
  conditions : NetworkConditions
  partition : Option Partition

namespace VirtualNet

def new : VirtualNet := ⟨[], .perfect, none⟩

def setConditions (conditions : NetworkConditions) (net : VirtualNet) : VirtualNet :=
  { net with conditions := conditions }

def setPartition (left right : List Nat) (net : VirtualNet) : VirtualNet :=
  { net with partition := some (Partition.new left right) }

def healPartition (net : VirtualNet) : VirtualNet :=
  { net with partition := net.partition.map Partition.heal }

def allowsDelivery (net : VirtualNet) (sender recipient : Nat) : Bool :=
  match net.partition with
  | none => true
  | some p => p.allows sender recipient

def enqueue (msg : InFlight) (net : VirtualNet) : VirtualNet :=
  let pos := StableQueue.partitionPoint (fun m => decide (m.deliverAt ≤ msg.deliverAt)) net.pending
  { net with pending := net.pending.insertIdx pos msg }

def popDue (now : Nat) : List InFlight → List InFlight → List InFlight × List InFlight
  | [], out => (out, [])
  | front :: rest, out =>
    if front.deliverAt ≤ now then popDue now rest (out ++ [front]) else (out, front :: rest)

def drainDue (now : Nat) (net : VirtualNet) : List InFlight × VirtualNet :=
  let (out, pending) := popDue now net.pending []
  (out, { net with pending := pending })

def wireEvent : Action → Option Event
  | .broadcastMicroQc qc => some (.microQcAssembled qc)
  | .broadcastMacroProposal p => some (.macroProposalReceived p)
  | .broadcastBlsPartial bp => some (.blsPartialReceived bp)
  | .broadcastMacroQc qc => some (.macroQcReceived qc)
  | .broadcastSubnetAggregate a => some (.subnetAggregateReceived a)
  | .broadcastVertexProposal p => some (.vertexProposalReceived p)
  | .broadcastVertexPartial bp => some (.vertexPartialReceived bp)
  | .broadcastCertifiedVertex cv => some (.certifiedVertexReceived cv)
  | _ => none

section Fanout
variable {ρ : Type} (rng : Rng ρ)

def jitterNanos (max : Nat) (seed : ρ) : Nat × ρ :=
  if max = 0 then (0, seed) else rng.upTo max seed

def sendTo (sender : Nat) (event : Event) (now : Nat) (recipient : Nat) (net : VirtualNet)
    (seed : ρ) : Except Error (VirtualNet × ρ) :=
  if recipient = sender then .ok (net, seed)
  else if !net.allowsDelivery sender recipient then .ok (net, seed)
  else
    let (jitter, seed) := jitterNanos rng net.conditions.maxDelayNs seed
    let deliverAt := saturatingAdd (saturatingAdd now net.conditions.baseDelayNs) jitter
    match net.conditions.perturb rng ⟨recipient, event, deliverAt⟩ seed with
    | .error e => .error e
    | .ok ((maybe, duplicate), seed) =>
      let net := match maybe with
        | some m => net.enqueue m
        | none => net
      let net := match duplicate with
        | some d => net.enqueue d
        | none => net
      .ok (net, seed)

def sendToAll (sender : Nat) (event : Event) (now : Nat) :
    List Nat → VirtualNet → ρ → Except Error (VirtualNet × ρ)
  | [], net, seed => .ok (net, seed)
  | recipient :: rest, net, seed =>
    match sendTo rng sender event now recipient net seed with
    | .error e => .error e
    | .ok (net, seed) => sendToAll sender event now rest net seed

/-- Translate an outbound action of `sender` into events for every recipient that should
receive it. -/
def enqueueFromAction (sender : Nat) (action : Action) (validatorCount now : Nat)
    (net : VirtualNet) (seed : ρ) : Except Error (VirtualNet × ρ) :=
  match wireEvent action with
  | none => .ok (net, seed)
  | some event => sendToAll rng sender event now (List.range validatorCount) net seed

end Fanout

/- What gets onto the bus. -/

theorem mem_enqueue {msg m : InFlight} {net : VirtualNet} (h : m ∈ (net.enqueue msg).pending) :
    m = msg ∨ m ∈ net.pending :=
  List.eq_or_mem_of_mem_insertIdx h

section Fanout
variable {ρ : Type} {rng : Rng ρ} {sender now : Nat} {event : Event} {net net' : VirtualNet}
  {seed seed' : ρ}

def Adds (event : Event) (net net' : VirtualNet) : Prop :=
  ∀ m ∈ net'.pending, m ∈ net.pending ∨ m.event = event

theorem perturb_event {c : NetworkConditions} {msg : InFlight}
    {sent : Option InFlight × Option InFlight} (h : c.perturb rng msg seed = .ok (sent, seed')) :
    ∀ m, sent.1 = some m ∨ sent.2 = some m → m.event = msg.event := by
  unfold NetworkConditions.perturb at h
  dsimp only at h
  split at h
  · cases h
    simp
  generalize (if 0 < c.maxDelayNs then rng.upTo c.maxDelayNs (rng.chance c.drop seed).2
    else (0, (rng.chance c.drop seed).2)) = drawn at h
  split at h
  · cases h
  cases h
  intro m hm
  cases hm with
  | inl hfirst =>
    cases hfirst
    rfl
  | inr hsecond =>
    dsimp only at hsecond
    split at hsecond
    · cases hsecond
      rfl
    · cases hsecond

theorem Adds.refl (event : Event) (net : VirtualNet) : Adds event net net := fun _ hm => .inl hm

theorem Adds.trans {event : Event} {net net₁ net₂ : VirtualNet} (h : Adds event net net₁)
    (h' : Adds event net₁ net₂) : Adds event net net₂ := by
  intro m hm
  cases h' m hm with
  | inl hold => exact h m hold
  | inr hnew => exact .inr hnew

theorem Adds.enqueue {event : Event} {net net' : VirtualNet} (h : Adds event net net')
    {msg : InFlight} (hmsg : msg.event = event) : Adds event net (net'.enqueue msg) := by
  intro m hm
  cases mem_enqueue hm with
  | inl heq => exact .inr (heq ▸ hmsg)
  | inr hold => exact h m hold

theorem sendTo_adds {recipient : Nat}
    (h : sendTo rng sender event now recipient net seed = .ok (net', seed')) :
    Adds event net net' := by
  unfold sendTo at h
  split at h
  · cases h
    exact Adds.refl event net
  split at h
  · cases h
    exact Adds.refl event net
  dsimp only at h
  split at h
  · cases h
  rename_i first second seed'' hsent
  have hevent := perturb_event hsent
  cases h
  cases first with
  | none =>
    cases second with
    | none => exact Adds.refl event net
    | some d => exact (Adds.refl event net).enqueue (hevent d (.inr rfl))
  | some m =>
    have hfirst := (Adds.refl event net).enqueue (hevent m (.inl rfl))
    cases second with
    | none => exact hfirst
    | some d => exact hfirst.enqueue (hevent d (.inr rfl))

theorem sendToAll_adds {recipients : List Nat}
    (h : sendToAll rng sender event now recipients net seed = .ok (net', seed')) :
    Adds event net net' := by
  induction recipients generalizing net seed with
  | nil =>
    cases h
    exact Adds.refl event _
  | cons recipient rest ih =>
    unfold sendToAll at h
    split at h
    · cases h
    · rename_i hsent
      exact (sendTo_adds hsent).trans (ih h)

end Fanout

/- Delivery. -/

theorem popDue_eq (now : Nat) (pending out : List InFlight) :
    popDue now pending out =
      (out ++ pending.takeWhile fun m => decide (m.deliverAt ≤ now),
        pending.dropWhile fun m => decide (m.deliverAt ≤ now)) := by
  induction pending generalizing out with
  | nil => simp [popDue]
  | cons front rest ih =>
    unfold popDue
    by_cases hdue : front.deliverAt ≤ now
    · rw [if_pos hdue, ih]
      simp [hdue]
    · rw [if_neg hdue]
      simp [hdue]

theorem mem_popDue {now : Nat} {net : VirtualNet} {m : InFlight}
    (h : m ∈ (net.drainDue now).1 ∨ m ∈ (net.drainDue now).2.pending) : m ∈ net.pending := by
  unfold drainDue at h
  rw [popDue_eq] at h
  cases h with
  | inl hout => exact (List.takeWhile_sublist _).subset hout
  | inr hrest => exact (List.dropWhile_sublist _).subset hrest

inductive Request where
  | enqueue (msg : InFlight)
  | drainDue (now : Nat)
deriving DecidableEq, Repr

def exec : Request → VirtualNet → Outcome Error Empty InFlight VirtualNet
  | .enqueue msg, net => .quiet (net.enqueue msg)
  | .drainDue now, net => .ok (net.drainDue now).2 (net.drainDue now).1

def Request.message : Request → Option InFlight
  | .enqueue msg => some msg
  | .drainDue _ => none

def onTheWay (msgs : List InFlight) : Request → List InFlight
  | .enqueue msg => msgs ++ [msg]
  | .drainDue now => msgs.filter fun m => decide (now < m.deliverAt)

def outstanding (reqs : List Request) : List InFlight := reqs.foldl onTheWay []

/-- What is pending is what is on its way, by delivery times and then by arrival. -/
def InOrder (msgs : List InFlight) (net : VirtualNet) : Prop :=
  StableQueue.Sorts (·.deliverAt) msgs net.pending

section Delivery
variable {msgs : List InFlight} {net : VirtualNet}

theorem drainDue_fst (h : InOrder msgs net) (now : Nat) :
    (net.drainDue now).1 = net.pending.filter fun m => decide (m.deliverAt ≤ now) := by
  unfold drainDue
  rw [popDue_eq, ← StableQueue.takeWhile_due h.ordered]
  rfl

theorem drainDue_pending (h : InOrder msgs net) (now : Nat) :
    (net.drainDue now).2.pending = net.pending.filter fun m => decide (now < m.deliverAt) := by
  unfold drainDue
  rw [popDue_eq, ← StableQueue.dropWhile_due h.ordered]

theorem inOrder_exec (h : InOrder msgs net) (req : Request) :
    InOrder (onTheWay msgs req) (exec req net).state := by
  cases req with
  | enqueue msg => exact StableQueue.Sorts.insert h msg
  | drainDue now =>
    unfold InOrder
    change StableQueue.Sorts _ _ (net.drainDue now).2.pending
    rw [drainDue_pending h]
    exact StableQueue.Sorts.filter h _

theorem inOrder_final (h : InOrder msgs net) (reqs : List Request) :
    InOrder (reqs.foldl onTheWay msgs) (Trace.final exec net reqs) := by
  induction reqs generalizing msgs net with
  | nil => exact h
  | cons req reqs ih => exact ih (inOrder_exec h req)

theorem exec_perm (h : InOrder msgs net) (req : Request) :
    ((exec req net).actions ++ (exec req net).state.pending).Perm
      (net.pending ++ req.message.toList) := by
  cases req with
  | enqueue msg =>
    have hsorts := (StableQueue.Sorts.insert h msg).perm
    have hbefore := StableQueue.Sorts.perm h
    exact hsorts.trans (hbefore.symm.append_right [msg])
  | drainDue now =>
    change ((net.drainDue now).1 ++ (net.drainDue now).2.pending).Perm (net.pending ++ [])
    rw [drainDue_fst h, drainDue_pending h, List.append_nil]
    have hlate : (fun m : InFlight => decide (now < m.deliverAt)) =
        fun m => !decide (m.deliverAt ≤ now) := by
      funext m
      rw [← decide_not, decide_eq_decide, Nat.not_le]
    rw [hlate]
    exact List.filter_append_perm _ net.pending

theorem run_perm (h : InOrder msgs net) (reqs : List Request) :
    (Trace.emitted exec (Trace.calls exec net reqs) ++ (Trace.final exec net reqs).pending).Perm
      (net.pending ++ reqs.filterMap Request.message) := by
  induction reqs generalizing msgs net with
  | nil => simp [Trace.calls, Trace.final]
  | cons req reqs ih =>
    have hrest := (ih (inOrder_exec h req)).append_left (exec req net).actions
    have hfirst := (exec_perm h req).append_right (reqs.filterMap Request.message)
    have hmsgs : (req :: reqs).filterMap Request.message =
        req.message.toList ++ reqs.filterMap Request.message := by
      cases hm : req.message <;> simp [hm]
    rw [hmsgs, ← List.append_assoc]
    refine List.Perm.trans ?_ hfirst
    simpa only [Trace.calls, Trace.final, Trace.emitted, Trace.outcome, List.flatMap_cons,
      List.append_assoc] using hrest

end Delivery

/-- For all calls in all orders: what is pending is what has arrived and was not yet due, by
delivery times and by arrival among equal ones; a drain returns what is due in that order; and
the messages returned and pending are the messages enqueued, each as often. -/
theorem delivered_once_in_order (conditions : NetworkConditions) (partition : Option Partition)
    (reqs : List Request) :
    InOrder (outstanding reqs) (Trace.final exec ⟨[], conditions, partition⟩ reqs) ∧
    (∀ now, StableQueue.Sorts (·.deliverAt)
      ((outstanding reqs).filter fun m => decide (m.deliverAt ≤ now))
      (exec (.drainDue now) (Trace.final exec ⟨[], conditions, partition⟩ reqs)).actions) ∧
    (Trace.emitted exec (Trace.calls exec ⟨[], conditions, partition⟩ reqs) ++
      (Trace.final exec ⟨[], conditions, partition⟩ reqs).pending).Perm
      (reqs.filterMap Request.message) := by
  have hstart : InOrder [] ⟨[], conditions, partition⟩ := StableQueue.Sorts.nil
  have horder := inOrder_final hstart reqs
  refine ⟨horder, ?_, run_perm hstart reqs⟩
  intro now
  change StableQueue.Sorts _ _ (VirtualNet.drainDue now _).1
  rw [drainDue_fst horder]
  exact StableQueue.Sorts.filter horder _

/-- Two messages for one moment and an earlier one, drained late, then early. -/
example : ((exec (.drainDue 20) (Trace.final exec new
    [.enqueue ⟨0, .timerFired 0, 30⟩, .enqueue ⟨1, .timerFired 1, 10⟩,
      .enqueue ⟨2, .timerFired 2, 10⟩])).actions.map (·.recipient)) = [1, 2] := by decide

end VirtualNet
end LuaDag
