import LuaDag.BlobStore
import LuaDag.Trace

/-! The log of slashing evidence (`storage::persistence_impl`, `slash_store`). Rows lie under a
sequence number that the process counts in memory, from zero. -/
namespace LuaDag

structure RocksPersistence where
  slash : Std.TreeMap ℕ SlashEvidence
  seq : ℕ

inductive LogCall where
  | appendSlashEvidence (ev : SlashEvidence) (io : Except StorageError Unit)
  | restart

namespace RocksPersistence

def new (slash : Std.TreeMap ℕ SlashEvidence) : RocksPersistence := ⟨slash, 0⟩

def appendSlashEvidence (ev : SlashEvidence) (io : Except StorageError Unit)
    (p : RocksPersistence) : Outcome StorageError Empty Empty RocksPersistence :=
  let next := (p.seq + 1) % 2 ^ 64
  match io with
  | .error e => .fail { p with seq := next } e
  | .ok () => .quiet ⟨p.slash.insert p.seq ev, next⟩

def step : LogCall → RocksPersistence → Outcome StorageError Empty Empty RocksPersistence
  | .appendSlashEvidence ev io, p => p.appendSlashEvidence ev io
  | .restart, p => .quiet (new p.slash)

abbrev after (slash : Std.TreeMap ℕ SlashEvidence) (ops : List LogCall) : RocksPersistence :=
  Trace.final step (new slash) ops

abbrev history (slash : Std.TreeMap ℕ SlashEvidence) (ops : List LogCall) :
    List (Call LogCall RocksPersistence) :=
  Trace.calls step (new slash) ops

def Appends (call : Call LogCall RocksPersistence) (ev : SlashEvidence) : Prop :=
  call.input = .appendSlashEvidence ev (.ok ())

def appended (hist : List (Call LogCall RocksPersistence)) : ℕ :=
  hist.countP fun call => match call.input with
    | .appendSlashEvidence _ io => io.isOk
    | .restart => false

/-- At every moment of the run, what has been appended lies under its own number, and there are as
many new rows as there were successful appends. -/
def AppendOnly (slash : Std.TreeMap ℕ SlashEvidence) (ops : List LogCall) : Prop :=
  ∀ before rest, ops = before ++ rest →
    (∀ call ∈ history slash before, ∀ ev, Appends call ev →
      (after slash before).slash[call.pre.seq]? = some ev) ∧
    (after slash before).slash.size = slash.size + appended (history slash before)

/-- No append meets a row under its number. -/
def FindsNoRow (call : Call LogCall RocksPersistence) : Prop :=
  ∀ ev, Appends call ev → call.pre.slash[call.pre.seq]? = none

section Steps
variable {slash : Std.TreeMap ℕ SlashEvidence} {hist : List (Call LogCall RocksPersistence)}
  {p : RocksPersistence} {op : LogCall}

theorem after_snoc (ops : List LogCall) :
    after slash (ops ++ [op]) = (step op (after slash ops)).state :=
  Trace.final_append _ _ _ _

theorem history_snoc (ops : List LogCall) :
    history slash (ops ++ [op]) = history slash ops ++ [⟨after slash ops, op⟩] :=
  Trace.calls_append _ _ _ _

/-- Every row is an appended one that lies where it was put, and none was there before. -/
structure Kept (slash : Std.TreeMap ℕ SlashEvidence) (hist : List (Call LogCall RocksPersistence))
    (p : RocksPersistence) : Prop where
  rows : ∀ call ∈ hist, ∀ ev, Appends call ev → p.slash[call.pre.seq]? = some ev
  size : p.slash.size = slash.size + appended hist

theorem Kept.quiet (h : Kept slash hist p) {p' : RocksPersistence} (hsame : p'.slash = p.slash)
    (hnot : ∀ ev, ¬ Appends ⟨p, op⟩ ev) (hcount : appended (hist ++ [⟨p, op⟩]) = appended hist) :
    Kept slash (hist ++ [⟨p, op⟩]) p' := by
  refine ⟨?_, by rw [hsame, hcount, h.size]⟩
  intro call hcall ev happ
  rw [hsame]
  cases List.mem_append.mp hcall with
  | inl hold => exact h.rows call hold ev happ
  | inr hnew =>
    rw [List.mem_singleton.mp hnew] at happ
    exact absurd happ (hnot ev)

theorem appended_snoc (call : Call LogCall RocksPersistence) : appended (hist ++ [call]) =
    appended hist + appended [call] :=
  List.countP_append

theorem Kept.next (h : Kept slash hist p) (hfree : FindsNoRow ⟨p, op⟩) :
    Kept slash (hist ++ [⟨p, op⟩]) (step op p).state := by
  cases op with
  | restart => exact h.quiet rfl (fun ev h => by cases h) (appended_snoc _)
  | appendSlashEvidence ev io =>
    cases io with
    | error e => exact h.quiet rfl (fun ev h => by cases h) (appended_snoc _)
    | ok u =>
      have hnone : p.slash[p.seq]? = none := hfree ev rfl
      refine ⟨?_, ?_⟩
      · intro call hcall ev' happ
        change (p.slash.insert p.seq ev)[call.pre.seq]? = _
        rw [Maps.get_insert]
        cases List.mem_append.mp hcall with
        | inl hold =>
          have hrow := h.rows call hold ev' happ
          have hne : p.seq ≠ call.pre.seq := by
            intro heq
            rw [← heq, hnone] at hrow
            cases hrow
          rw [if_neg hne, hrow]
        | inr hnew =>
          rw [List.mem_singleton.mp hnew] at happ ⊢
          cases happ
          rw [if_pos rfl]
      · change (p.slash.insert p.seq ev).size = _
        rw [Maps.size_insert, hnone, h.size, appended_snoc]
        rfl

theorem kept_after (ops : List LogCall) (hfree : ∀ call ∈ history slash ops, FindsNoRow call) :
    Kept slash (history slash ops) (after slash ops) :=
  Trace.invariant step FindsNoRow (Kept slash) (new slash)
    ⟨fun _ h => (List.not_mem_nil h).elim, rfl⟩ (fun _ _ _ h hgood => h.next hgood) ops hfree

theorem size_overwrite {ev : SlashEvidence} {row : SlashEvidence}
    (hrow : p.slash[p.seq]? = some row) :
    (step (.appendSlashEvidence ev (.ok ())) p).state.slash.size = p.slash.size := by
  change (p.slash.insert p.seq ev).size = _
  rw [Maps.size_insert, hrow]
  rfl

end Steps

/-- The log is append-only in exactly the runs in which no append meets a row under its number. -/
theorem append_only_iff (slash : Std.TreeMap ℕ SlashEvidence) (ops : List LogCall) :
    AppendOnly slash ops ↔ ∀ call ∈ history slash ops, FindsNoRow call := by
  constructor
  · intro h call hcall ev happ
    obtain ⟨before, rest, hops, hpre⟩ := Trace.mem_calls _ hcall
    obtain ⟨p, op⟩ := call
    dsimp only at hops hpre happ ⊢
    subst hpre happ
    cases hrow : (after slash before).slash[(after slash before).seq]? with
    | none => rfl
    | some row =>
      obtain ⟨-, hsize⟩ := h before _ hops
      obtain ⟨-, hnext⟩ := h (before ++ [.appendSlashEvidence ev (.ok ())]) rest
        (by rw [hops, List.append_assoc, List.singleton_append])
      rw [after_snoc, size_overwrite hrow, hsize, history_snoc, appended_snoc] at hnext
      exact absurd hnext (Nat.ne_of_lt (Nat.add_lt_add_left (Nat.lt_succ_self _) _))
  · rintro hfree before rest rfl
    have hkept := kept_after before fun call hcall => hfree call (by
      rw [history, Trace.calls_append]
      exact List.mem_append_left _ hcall)
    exact ⟨hkept.rows, hkept.size⟩

def doubleVoteOf (v : ValidatorId) : SlashEvidence :=
  .doubleVote ⟨v, 1, ⟨1⟩, ⟨1⟩, ⟨2⟩, ⟨2⟩⟩

/-- The first row after a restart takes the place of the first row before it. -/
theorem append_only_fails : ¬ AppendOnly ∅ [.appendSlashEvidence (doubleVoteOf ⟨1⟩) (.ok ()),
    .restart, .appendSlashEvidence (doubleVoteOf ⟨2⟩) (.ok ())] := by
  intro h
  obtain ⟨-, hsize⟩ := h _ [] (List.append_nil _).symm
  exact absurd hsize (by decide)

end RocksPersistence
end LuaDag
