import LuaDag.Types
import LuaDag.Maps
import LuaDag.Trace
import Mathlib.Algebra.Order.Ring.Nat
import Mathlib.Data.List.Basic

/-! The timers of the host (`apps/node/src/timer.rs`): a task for every scheduled timer, and a
registry of the last task of each id, through which it is aborted. What becomes of a timer
depends on the calls that name its id or its task, and on nothing else. -/
namespace LuaDag

/-- A task sleeps, and then sends its event. An abort that comes while it sends is too late
if the task gets through without waiting. -/
inductive TaskPhase where
  | sleeping | woken | aborted
deriving DecidableEq, Repr

structure TimerTask where
  id : TimerId
  nanos : Nat
  phase : TaskPhase
deriving DecidableEq, Repr

structure TimerRegistry where
  handles : Std.TreeMap TimerId Nat := ∅
  tasks : Std.TreeMap Nat TimerTask := ∅
  spawned : Nat := 0

inductive TimerCall where
  | schedule (id : TimerId) (delayNanos : Nat)
  | cancel (id : TimerId)
  /-- The sleep of a task is over. -/
  | elapse (task : Nat)
  /-- The task sends; the channel has room or not. -/
  | send (task : Nat) (room : Bool)
  /-- The runtime drops an aborted task. -/
  | reap (task : Nat)
deriving DecidableEq, Repr

def sleepNanos (delayNanos : Nat) : Nat := min delayNanos (2 ^ 64 - 1)

namespace TimerRegistry

def abort (t : TimerRegistry) (task : Nat) : TimerRegistry :=
  match t.tasks[task]? with
  | none => t
  | some ⟨_, _, .sleeping⟩ => { t with tasks := t.tasks.erase task }
  | some ⟨id, nanos, _⟩ => { t with tasks := t.tasks.insert task ⟨id, nanos, .aborted⟩ }

def cancel (t : TimerRegistry) (id : TimerId) : TimerRegistry :=
  match t.handles[id]? with
  | none => t
  | some task => { t with handles := t.handles.erase id }.abort task

def spawn (t : TimerRegistry) (id : TimerId) (delayNanos : Nat) : TimerRegistry where
  handles := t.handles.insert id t.spawned
  tasks := t.tasks.insert t.spawned ⟨id, sleepNanos delayNanos, .sleeping⟩
  spawned := t.spawned + 1

def scheduleEvent (t : TimerRegistry) (id : TimerId) (delayNanos : Nat) : TimerRegistry :=
  (t.cancel id).spawn id delayNanos

def elapse (t : TimerRegistry) (task : Nat) : TimerRegistry :=
  match t.tasks[task]? with
  | some ⟨id, nanos, .sleeping⟩ => { t with tasks := t.tasks.insert task ⟨id, nanos, .woken⟩ }
  | _ => t

def sends (t : TimerRegistry) (task : Nat) : Option TimerId :=
  match t.tasks[task]? with
  | some ⟨_, _, .sleeping⟩ | none => none
  | some ⟨id, _, _⟩ => some id

def send (t : TimerRegistry) (task : Nat) (room : Bool) : List TimerId × TimerRegistry :=
  match t.sends task with
  | none => ([], t)
  | some id => if room then ([id], { t with tasks := t.tasks.erase task }) else ([], t)

def reap (t : TimerRegistry) (task : Nat) : TimerRegistry :=
  match t.tasks[task]? with
  | some ⟨_, _, .aborted⟩ => { t with tasks := t.tasks.erase task }
  | _ => t

def step : TimerCall → TimerRegistry → Outcome Empty Empty TimerId TimerRegistry
  | .schedule id delay, t => .quiet (t.scheduleEvent id delay)
  | .cancel id, t => .quiet (t.cancel id)
  | .elapse task, t => .quiet (t.elapse task)
  | .send task room, t => .ok (t.send task room).2 (t.send task room).1
  | .reap task, t => .quiet (t.reap task)

abbrev after (calls : List TimerCall) : TimerRegistry := Trace.final step {} calls

abbrev fired (calls : List TimerCall) : List TimerId :=
  Trace.emitted step (Trace.calls step {} calls)

end TimerRegistry

/- Timers one by one. -/

inductive Fate where
  | sleeping | woken | aborted | dropped | fired
deriving DecidableEq, Repr

structure Timed where
  id : TimerId
  nanos : Nat
  fate : Fate
deriving DecidableEq, Repr

namespace Timed

def disturb : Fate → Fate
  | .sleeping => .dropped
  | .woken => .aborted
  | f => f

def next (task : Nat) (e : Timed) : TimerCall → Timed
  | .schedule id _ | .cancel id => if e.id = id then { e with fate := disturb e.fate } else e
  | .elapse k => if k = task ∧ e.fate = .sleeping then { e with fate := .woken } else e
  | .send k room =>
    if k = task ∧ room = true ∧ (e.fate = .woken ∨ e.fate = .aborted)
    then { e with fate := .fired } else e
  | .reap k => if k = task ∧ e.fate = .aborted then { e with fate := .dropped } else e

def task? (e : Timed) : Option TimerTask :=
  match e.fate with
  | .sleeping => some ⟨e.id, e.nanos, .sleeping⟩
  | .woken => some ⟨e.id, e.nanos, .woken⟩
  | .aborted => some ⟨e.id, e.nanos, .aborted⟩
  | .dropped | .fired => none

def Held (e : Timed) : Prop := e.fate = .sleeping ∨ e.fate = .woken

end Timed

namespace TimerCall

def onAll (c : TimerCall) (es : List Timed) : List Timed :=
  let es := es.mapIdx fun k e => e.next k c
  match c with
  | .schedule id delay => es ++ [⟨id, sleepNanos delay, .sleeping⟩]
  | _ => es

def timers (calls : List TimerCall) : List Timed :=
  calls.foldl (fun es c => c.onAll es) []

@[simp] theorem timers_snoc (calls : List TimerCall) (c : TimerCall) :
    timers (calls ++ [c]) = c.onAll (timers calls) := by
  simp [timers]

end TimerCall

/- The registry keeps the timers apart. -/

structure Registers (es : List Timed) (t : TimerRegistry) : Prop where
  spawned : t.spawned = es.length
  tasks : ∀ k : Nat, t.tasks[k]? = es[k]?.bind Timed.task?
  handles : ∀ (id : TimerId) (k : Nat), t.handles[id]? = some k → ∃ e, es[k]? = some e ∧ e.id = id
  held : ∀ (k : Nat) e, es[k]? = some e → e.Held → t.handles[e.id]? = some k

section Registers
variable {es es' : List Timed} {t t' : TimerRegistry}

theorem registers_new : Registers [] {} := by
  refine ⟨rfl, by simp, by simp, by simp⟩

/-- A change of one timer and its task, which does not bring it back. -/
theorem Registers.change (h : Registers es t) (k : Nat) {e e' : Timed} (hget : es[k]? = some e)
    (hid : e'.id = e.id) (hheld : e'.Held → e.Held) (hspawned : t'.spawned = t.spawned)
    (hhandles : t'.handles = t.handles)
    (htasks : ∀ j : Nat, t'.tasks[j]? = if j = k then e'.task? else t.tasks[j]?) :
    Registers (es.set k e') t' := by
  have hlt : k < es.length := (List.getElem?_eq_some_iff.mp hget).1
  have hset : ∀ j : Nat, (es.set k e')[j]? = if j = k then some e' else es[j]? := by
    intro j
    rw [List.getElem?_set]
    by_cases hj : j = k
    · subst hj
      simp [hlt]
    · rw [if_neg hj, if_neg (Ne.symm hj)]
  refine ⟨by rw [hspawned, h.spawned, List.length_set], ?_, ?_, ?_⟩
  · intro j
    rw [htasks, hset]
    split
    · rfl
    · exact h.tasks j
  · intro id j hj
    rw [hhandles] at hj
    obtain ⟨x, hx, hxid⟩ := h.handles id j hj
    rw [hset]
    split
    · rename_i hjk
      subst hjk
      cases hget.symm.trans hx
      exact ⟨e', rfl, hid.trans hxid⟩
    · exact ⟨x, hx, hxid⟩
  · intro j x hx hxheld
    rw [hset] at hx
    rw [hhandles]
    split at hx
    · rename_i hjk
      subst hjk
      cases hx
      rw [hid]
      exact h.held j e hget (hheld hxheld)
    · exact h.held j x hx hxheld

theorem Registers.release (h : Registers es t) {id : TimerId}
    (hover : ∀ (k : Nat) e, es[k]? = some e → e.id = id → ¬ e.Held) :
    Registers es { t with handles := t.handles.erase id } := by
  refine ⟨h.spawned, h.tasks, fun x k hk => h.handles x k (Maps.get_of_erase hk), ?_⟩
  intro k e he hheld
  have hne : id ≠ e.id := fun heq => hover k e he heq.symm hheld
  rw [Maps.get_erase, if_neg hne]
  exact h.held k e he hheld

theorem Registers.spawn (h : Registers es t) {id : TimerId} (delay : Nat)
    (hfree : ∀ (k : Nat) e, es[k]? = some e → e.id = id → ¬ e.Held) :
    Registers (es ++ [⟨id, sleepNanos delay, .sleeping⟩]) (t.spawn id delay) := by
  have hlast : ∀ (k : Nat) e, es[k]? = some e → es.length ≠ k := fun k e he =>
    (List.getElem?_eq_some_iff.mp he).1.ne'
  have hsnoc : ∀ k : Nat, (es ++ [⟨id, sleepNanos delay, .sleeping⟩])[k]? =
      if es.length = k then some ⟨id, sleepNanos delay, .sleeping⟩ else es[k]? := by
    intro k
    by_cases hk : es.length = k
    · subst hk
      simp
    · rw [if_neg hk]
      by_cases hlt : k < es.length
      · exact List.getElem?_append_left hlt
      · rw [List.getElem?_eq_none (by simp only [List.length_append, List.length_singleton]; omega),
          List.getElem?_eq_none (by omega)]
  refine ⟨by simp [TimerRegistry.spawn, h.spawned], ?_, ?_, ?_⟩
  · intro k
    rw [hsnoc]
    simp only [TimerRegistry.spawn, Maps.get_insert, h.spawned]
    split
    · rfl
    · exact h.tasks k
  · intro x k hk
    rw [hsnoc]
    cases Maps.get_of_insert hk with
    | inl hnew =>
      obtain ⟨rfl, rfl⟩ := hnew
      rw [h.spawned, if_pos rfl]
      exact ⟨_, rfl, rfl⟩
    | inr hold =>
      obtain ⟨e, he, hid⟩ := h.handles x k hold
      rw [if_neg (hlast k e he)]
      exact ⟨e, he, hid⟩
  · intro k e he hheld
    rw [hsnoc] at he
    simp only [TimerRegistry.spawn, Maps.get_insert, h.spawned]
    split at he
    · rename_i hk
      cases he
      rw [if_pos rfl, hk]
    · have hne : id ≠ e.id := fun heq => hfree k e he heq.symm hheld
      rw [if_neg hne]
      exact h.held k e he hheld

end Registers

/- Updates by position. -/

theorem mapIdx_eq_self {α : Type} {f : Nat → α → α} {l : List α}
    (hall : ∀ (j : Nat) a, l[j]? = some a → f j a = a) : l.mapIdx f = l := by
  apply List.ext_getElem?
  intro j
  rw [List.getElem?_mapIdx]
  cases hj : l[j]? with
  | none => rfl
  | some a => rw [Option.map_some, hall j a hj]

theorem mapIdx_eq_set {α : Type} {f : Nat → α → α} {l : List α} {k : Nat} {a : α}
    (hget : l[k]? = some a) (hother : ∀ (j : Nat) b, l[j]? = some b → j ≠ k → f j b = b) :
    l.mapIdx f = l.set k (f k a) := by
  have hlt : k < l.length := (List.getElem?_eq_some_iff.mp hget).1
  apply List.ext_getElem?
  intro j
  rw [List.getElem?_mapIdx, List.getElem?_set]
  by_cases hj : k = j
  · subst hj
    rw [if_pos rfl, if_pos hlt, hget]
    rfl
  · rw [if_neg hj]
    cases hb : l[j]? with
    | none => rfl
    | some b => rw [Option.map_some, hother j b hb (Ne.symm hj)]

namespace Timed

theorem disturb_of_not_held {e : Timed} (h : ¬ e.Held) : disturb e.fate = e.fate := by
  unfold Held at h
  cases hf : e.fate <;> simp_all [disturb]

theorem not_held_disturb (f : Fate) : disturb f ≠ .sleeping ∧ disturb f ≠ .woken := by
  cases f <;> simp [disturb]

@[simp] theorem next_id (e : Timed) (task : Nat) (c : TimerCall) : (e.next task c).id = e.id := by
  cases c <;> simp only [next] <;> split <;> rfl

theorem next_cancel {e : Timed} {id : TimerId} (task : Nat) (h : e.id = id → ¬ e.Held) :
    e.next task (.cancel id) = e := by
  simp only [next]
  split
  · rename_i hid
    rw [disturb_of_not_held (h hid)]
  · rfl

end Timed

section Calls
variable {es : List Timed} {t : TimerRegistry}

theorem abort_handles (t : TimerRegistry) (k : Nat) :
    (t.abort k).handles = t.handles ∧ (t.abort k).spawned = t.spawned := by
  unfold TimerRegistry.abort
  split <;> exact ⟨rfl, rfl⟩

theorem Registers.abort_tasks (h : Registers es t) {k : Nat} {e : Timed} (he : es[k]? = some e)
    (j : Nat) : (t.abort k).tasks[j]? =
      if j = k then ({ e with fate := Timed.disturb e.fate } : Timed).task? else t.tasks[j]? := by
  have htask : t.tasks[k]? = e.task? := by rw [h.tasks, he, Option.bind_some]
  obtain ⟨id, nanos, fate⟩ := e
  unfold TimerRegistry.abort
  rw [htask]
  cases fate with
  | sleeping =>
    simp only [Timed.task?, Timed.disturb, Maps.get_erase, eq_comm]
  | woken => simp only [Timed.task?, Timed.disturb, Maps.get_insert, eq_comm]
  | aborted => simp only [Timed.task?, Timed.disturb, Maps.get_insert, eq_comm]
  | _ =>
    simp only [Timed.task?, Timed.disturb]
    split
    · rename_i hjk
      rw [hjk, htask]
      rfl
    · rfl

theorem Registers.cancel (h : Registers es t) (id : TimerId) :
    Registers (es.mapIdx fun k e => e.next k (.cancel id)) (t.cancel id) := by
  unfold TimerRegistry.cancel
  cases hhandle : t.handles[id]? with
  | none =>
    rwa [mapIdx_eq_self]
    intro j e he
    refine Timed.next_cancel j fun hid hheld => ?_
    have hget := h.held j e he hheld
    rw [hid, hhandle] at hget
    cases hget
  | some k =>
    obtain ⟨e, he, hid⟩ := h.handles id k hhandle
    -- only the timer of the handle can be under way
    have hothers : ∀ (j : Nat) b, es[j]? = some b → j ≠ k → b.id = id → ¬ b.Held := by
      intro j b hb hne hbid hheld
      have hget := h.held j b hb hheld
      rw [hbid, hhandle] at hget
      exact hne (Option.some.inj hget).symm
    have hmap : (es.mapIdx fun k e => e.next k (.cancel id)) =
        es.set k { e with fate := Timed.disturb e.fate } := by
      rw [mapIdx_eq_set he fun j b hb hne => Timed.next_cancel j (hothers j b hb hne)]
      simp only [Timed.next, hid, if_pos]
    have hover := Timed.not_held_disturb e.fate
    have hchanged : Registers (es.set k { e with fate := Timed.disturb e.fate }) (t.abort k) := by
      refine h.change k he rfl ?_ (abort_handles t k).2 (abort_handles t k).1 (h.abort_tasks he)
      rintro (hs | hw)
      · exact absurd hs hover.1
      · exact absurd hw hover.2
    rw [hmap]
    have hreleased := @Registers.release _ _ hchanged id ?_
    · have hsame : ({ t with handles := t.handles.erase id } : TimerRegistry).abort k =
          { t.abort k with handles := (t.abort k).handles.erase id } := by
        simp only [TimerRegistry.abort]
        split <;> rfl
      dsimp only
      rw [hsame]
      exact hreleased
    · intro j b hb hbid hheld
      rw [List.getElem?_set] at hb
      split at hb
      · split at hb
        · cases hb
          cases hheld with
          | inl hs => exact hover.1 hs
          | inr hw => exact hover.2 hw
        · cases hb
      · rename_i hne
        exact hothers j b hb (Ne.symm hne) hbid hheld

/-- A call for one task: the timer of that task takes it, the others pass. -/
theorem Registers.own (h : Registers es t) {t' : TimerRegistry} {c : TimerCall} {k : Nat}
    (hother : ∀ (j : Nat) (e : Timed), j ≠ k → e.next j c = e)
    (hheld : ∀ e : Timed, (e.next k c).Held → e.Held) (hspawned : t'.spawned = t.spawned)
    (hhandles : t'.handles = t.handles) (hnone : t.tasks[k]? = none → t' = t)
    (hover : ∀ e : Timed, e.task? = none → e.next k c = e)
    (htasks : ∀ (e : Timed) (task : TimerTask), e.task? = some task → t.tasks[k]? = some task →
      ∀ j : Nat, t'.tasks[j]? = if j = k then (e.next k c).task? else t.tasks[j]?) :
    Registers (es.mapIdx fun j e => e.next j c) t' := by
  cases htask : t.tasks[k]? with
  | none =>
    rw [hnone htask, mapIdx_eq_self]
    · exact h
    intro j e he
    by_cases hj : j = k
    · subst hj
      rw [h.tasks, he, Option.bind_some] at htask
      exact hover e htask
    · exact hother j e hj
  | some task =>
    rw [h.tasks] at htask
    obtain ⟨e, he, htask⟩ := Option.bind_eq_some_iff.mp htask
    rw [mapIdx_eq_set he fun j b _ hj => hother j b hj]
    refine h.change k he (Timed.next_id e k c) (hheld e) hspawned hhandles ?_
    exact htasks e task htask (by rw [h.tasks, he, Option.bind_some, htask])

theorem Registers.elapse (h : Registers es t) (k : Nat) :
    Registers (es.mapIdx fun j e => e.next j (.elapse k)) (t.elapse k) := by
  refine @Registers.own es t h _ (.elapse k) k ?_ ?_ ?_ ?_ ?_ ?_ ?_
  · intro j e hj
    simp [Timed.next, Ne.symm hj]
  · intro e hheld
    simp only [Timed.next] at hheld
    split at hheld
    · rename_i hsleep
      exact Or.inl hsleep.2
    · exact hheld
  · unfold TimerRegistry.elapse
    split <;> rfl
  · unfold TimerRegistry.elapse
    split <;> rfl
  · intro hnone
    simp [TimerRegistry.elapse, hnone]
  · rintro ⟨id, nanos, fate⟩ hnone
    cases fate <;> simp_all [Timed.next, Timed.task?]
  · rintro ⟨id, nanos, fate⟩ task htask hget j
    cases fate <;> cases htask <;>
      simp only [TimerRegistry.elapse, hget, Timed.next, Timed.task?, Maps.get_insert, true_and,
        reduceCtorEq, if_true, if_false, and_false, eq_comm] <;>
      split <;> simp_all

theorem Registers.reap (h : Registers es t) (k : Nat) :
    Registers (es.mapIdx fun j e => e.next j (.reap k)) (t.reap k) := by
  refine @Registers.own es t h _ (.reap k) k ?_ ?_ ?_ ?_ ?_ ?_ ?_
  · intro j e hj
    simp [Timed.next, Ne.symm hj]
  · intro e hheld
    simp only [Timed.next] at hheld
    split at hheld
    · simp [Timed.Held] at hheld
    · exact hheld
  · unfold TimerRegistry.reap
    split <;> rfl
  · unfold TimerRegistry.reap
    split <;> rfl
  · intro hnone
    simp [TimerRegistry.reap, hnone]
  · rintro ⟨id, nanos, fate⟩ hnone
    cases fate <;> simp_all [Timed.next, Timed.task?]
  · rintro ⟨id, nanos, fate⟩ task htask hget j
    cases fate <;> cases htask <;>
      simp only [TimerRegistry.reap, hget, Timed.next, Timed.task?, Maps.get_erase, true_and,
        reduceCtorEq, if_true, if_false, and_false, eq_comm] <;>
      split <;> simp_all

theorem Registers.send (h : Registers es t) (k : Nat) (room : Bool) :
    Registers (es.mapIdx fun j e => e.next j (.send k room)) (t.send k room).2 := by
  refine @Registers.own es t h _ (.send k room) k ?_ ?_ ?_ ?_ ?_ ?_ ?_
  · intro j e hj
    simp [Timed.next, Ne.symm hj]
  · intro e hheld
    simp only [Timed.next] at hheld
    split at hheld
    · simp [Timed.Held] at hheld
    · exact hheld
  · unfold TimerRegistry.send
    split
    · rfl
    · split <;> rfl
  · unfold TimerRegistry.send
    split
    · rfl
    · split <;> rfl
  · intro hnone
    simp [TimerRegistry.send, TimerRegistry.sends, hnone]
  · rintro ⟨id, nanos, fate⟩ hnone
    cases fate <;> simp_all [Timed.next, Timed.task?]
  · rintro ⟨id, nanos, fate⟩ task htask hget j
    cases room <;> cases fate <;> cases htask <;>
      simp only [TimerRegistry.send, TimerRegistry.sends, hget, Timed.next, Timed.task?,
        Maps.get_erase, true_and, reduceCtorEq, if_true, if_false, and_false, false_and, or_true,
        or_false, Bool.false_eq_true, eq_comm] <;>
      split <;> simp_all

theorem Registers.step (h : Registers es t) (c : TimerCall) :
    Registers (c.onAll es) (TimerRegistry.step c t).state := by
  cases c with
  | cancel id => exact h.cancel id
  | elapse k => exact h.elapse k
  | send k room => exact h.send k room
  | reap k => exact h.reap k
  | schedule id delay =>
    -- scheduling an id starts with cancelling it
    have hcancelled := h.cancel id
    refine hcancelled.spawn delay ?_
    intro k e he hid hheld
    rw [List.getElem?_mapIdx] at he
    obtain ⟨b, -, rfl⟩ := Option.map_eq_some_iff.mp he
    rw [Timed.next_id] at hid
    simp only [Timed.next, if_pos hid] at hheld
    cases hheld with
    | inl hs => exact (Timed.not_held_disturb b.fate).1 hs
    | inr hw => exact (Timed.not_held_disturb b.fate).2 hw

/- What fires. -/

def Timed.firedAs (id : TimerId) (e : Timed) : Bool := decide (e.id = id ∧ e.fate = .fired)

theorem countP_mapIdx {α : Type} {p : α → Bool} {f : Nat → α → α} (hp : ∀ k a, p (f k a) = p a)
    (l : List α) : (l.mapIdx f).countP p = l.countP p := by
  induction l using List.reverseRecOn with
  | nil => rfl
  | append_singleton l a ih =>
    rw [List.mapIdx_concat, List.countP_append, List.countP_append, ih]
    simp [List.countP_cons, hp]

theorem disturb_fired (f : Fate) : Timed.disturb f = .fired ↔ f = .fired := by
  cases f <;> simp [Timed.disturb]

theorem firedAs_next {c : TimerCall} (hc : ∀ k room, c ≠ .send k room) (id : TimerId) (k : Nat)
    (e : Timed) : (e.next k c).firedAs id = e.firedAs id := by
  have hcancel : ∀ x : TimerId, (if e.id = x then { e with fate := Timed.disturb e.fate } else e
      : Timed).firedAs id = e.firedAs id := by
    intro x
    split
    · simp only [Timed.firedAs, disturb_fired]
    · rfl
  cases c with
  | schedule x delay => exact hcancel x
  | cancel x => exact hcancel x
  | send k room => exact absurd rfl (hc k room)
  | elapse j =>
    simp only [Timed.next]
    split
    · rename_i hsleep
      simp [Timed.firedAs, hsleep.2]
    · rfl
  | reap j =>
    simp only [Timed.next]
    split
    · rename_i haborted
      simp [Timed.firedAs, haborted.2]
    · rfl

theorem Registers.sends_count (h : Registers es t) (k : Nat) (room : Bool) (id : TimerId) :
    (es.mapIdx fun j e => e.next j (.send k room)).countP (Timed.firedAs id) =
      es.countP (Timed.firedAs id) + (t.send k room).1.count id := by
  have hother : ∀ (j : Nat) (e : Timed), j ≠ k → e.next j (.send k room) = e := by
    intro j e hj
    simp [Timed.next, Ne.symm hj]
  have htask := h.tasks k
  unfold TimerRegistry.send TimerRegistry.sends
  cases he : es[k]? with
  | none =>
    rw [he, Option.bind_none] at htask
    rw [mapIdx_eq_self fun j e hj => hother j e fun heq => by simp [heq, he] at hj, htask]
    rfl
  | some e =>
    have hlt : k < es.length := (List.getElem?_eq_some_iff.mp he).1
    have hnth : es[k] = e := (List.getElem?_eq_some_iff.mp he).2
    rw [he, Option.bind_some] at htask
    rw [mapIdx_eq_set he fun j b _ hj => hother j b hj, List.countP_set hlt, hnth, htask]
    obtain ⟨x, nanos, fate⟩ := e
    by_cases hx : x = id
    · subst hx
      have hcount : fate = .fired → 1 ≤ es.countP (Timed.firedAs x) := by
        rintro rfl
        exact List.countP_pos_iff.mpr ⟨_, List.mem_of_getElem? he, by simp [Timed.firedAs]⟩
      cases room <;> cases fate <;>
        simp [Timed.next, Timed.task?, Timed.firedAs] <;> exact Nat.sub_add_cancel (hcount rfl)
    · cases room <;> cases fate <;> simp [Timed.next, Timed.task?, Timed.firedAs, hx]

theorem Registers.step_count (h : Registers es t) (c : TimerCall) (id : TimerId) :
    (c.onAll es).countP (Timed.firedAs id) =
      es.countP (Timed.firedAs id) + (TimerRegistry.step c t).actions.count id := by
  cases c with
  | send k room => exact h.sends_count k room id
  | schedule x delay =>
    simp only [TimerCall.onAll, List.countP_append, TimerRegistry.step, Outcome.quiet_actions]
    rw [countP_mapIdx fun k e => firedAs_next (by simp) id k e]
    simp [Timed.firedAs]
  | _ => exact countP_mapIdx (fun k e => firedAs_next (by simp) id k e) es

end Calls

theorem registers_after (calls : List TimerCall) :
    Registers (TimerCall.timers calls) (TimerRegistry.after calls) ∧
      ∀ id, (TimerRegistry.fired calls).count id =
        (TimerCall.timers calls).countP (Timed.firedAs id) := by
  induction calls using List.reverseRecOn with
  | nil => exact ⟨registers_new, fun id => rfl⟩
  | append_singleton calls c ih =>
    obtain ⟨hreg, hcount⟩ := ih
    unfold TimerRegistry.after TimerRegistry.fired at *
    rw [TimerCall.timers_snoc, Trace.final_append, Trace.calls_append, Trace.emitted_append]
    refine ⟨hreg.step c, ?_⟩
    intro id
    rw [List.count_append, hcount, hreg.step_count, Trace.calls, Trace.calls,
      Trace.emitted_singleton]
    rfl

/-- The registry keeps timers apart. After any calls, in any order, its tasks are those of the
scheduled timers that are under way, each with the fate that the calls of its own id and number
give it, and as many events have been sent for an id as timers of that id have fired. -/
theorem timers_kept_apart (calls : List TimerCall) :
    (∀ k : Nat, (TimerRegistry.after calls).tasks[k]? =
      (TimerCall.timers calls)[k]?.bind Timed.task?) ∧
    ∀ id, (TimerRegistry.fired calls).count id =
      (TimerCall.timers calls).countP (Timed.firedAs id) :=
  ⟨(registers_after calls).1.tasks, (registers_after calls).2⟩

end LuaDag
