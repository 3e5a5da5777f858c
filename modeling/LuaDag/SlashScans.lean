import LuaDag.MacroBook

/-! Slashing conditions are looked for after every recorded vote, and in the newest vote only. Over
a whole history no pair of votes is missed by that. -/
namespace LuaDag
open Slashing

def newest {α β : Type} (f : α → α → Option β) (items : List α) : Option β :=
  if items.length < 2 then none
  else items.getLast?.bind fun new => items.dropLast.findSome? (f new)

def historyOf (v : ValidatorId) (log : List (ValidatorId × VoteRecord)) : List VoteRecord :=
  (log.filter fun e => decide (e.1 = v)).map (·.2)

def scanEach {ε : Type} (scan : VoteBook → ValidatorId → Option ε) (v : ValidatorId) :
    VoteBook → List (ValidatorId × VoteRecord) → List (Option ε)
  | _, [] => []
  | book, e :: log =>
    scan (book.record e.1 e.2) v :: scanEach scan v (book.record e.1 e.2) log

section Newest
variable {α β : Type} {f : α → α → Option β}

theorem newest_snoc (items : List α) (a : α) : newest f (items ++ [a]) = items.findSome? (f a) := by
  cases items with
  | nil => rfl
  | cons b items =>
    have hlast : (b :: (items ++ [a])).getLast? = some a := by
      rw [← List.cons_append, List.getLast?_concat]
    have hinit : (b :: (items ++ [a])).dropLast = b :: items := by
      rw [← List.cons_append, List.dropLast_concat]
    simp [newest, hlast, hinit]

theorem newest_some {items : List α} {hit : β} (h : newest f items = some hit) :
    ∃ x ∈ items, ∃ y ∈ items, f x y = some hit := by
  induction items using List.reverseRecOn with
  | nil => cases h
  | append_singleton items a _ =>
    rw [newest_snoc] at h
    obtain ⟨y, hy, hf⟩ := List.exists_of_findSome?_eq_some h
    exact ⟨a, by simp, y, by simp [hy], hf⟩

theorem newest_none {items : List α} (h : ∀ x ∈ items, ∀ y ∈ items, f x y = none) :
    newest f items = none := by
  cases hnew : newest f items with
  | none => rfl
  | some hit =>
    obtain ⟨x, hx, y, hy, hf⟩ := newest_some hnew
    rw [h x hx y hy] at hf
    cases hf

end Newest

section Scans
variable {ε : Type} {scan : VoteBook → ValidatorId → Option ε} {v : ValidatorId}
  {f : VoteRecord → VoteRecord → Option ε}

/-- The votes after a record: those before, and the record if it is one of `v`. -/
theorem votesOf_recorded (book : VoteBook) (e : ValidatorId × VoteRecord)
    (log : List (ValidatorId × VoteRecord)) :
    (book.record e.1 e.2).votesOf v ++ historyOf v log =
      book.votesOf v ++ historyOf v (e :: log) := by
  by_cases he : e.1 = v
  · subst he
    simp [historyOf]
  · simp [historyOf, he, book.votesOf_record_other he]

theorem scanEach_some (hscan : ∀ book, scan book v = newest f (book.votesOf v)) {book : VoteBook}
    {log : List (ValidatorId × VoteRecord)} {ev : ε} (h : some ev ∈ scanEach scan v book log) :
    ∃ x ∈ book.votesOf v ++ historyOf v log, ∃ y ∈ book.votesOf v ++ historyOf v log,
      f x y = some ev := by
  induction log generalizing book with
  | nil => cases h
  | cons e log ih =>
    rw [← votesOf_recorded]
    cases List.mem_cons.mp h with
    | inl hfirst =>
      obtain ⟨x, hx, y, hy, hf⟩ := newest_some ((hscan _).symm.trans hfirst.symm)
      exact ⟨x, List.mem_append_left _ hx, y, List.mem_append_left _ hy, hf⟩
    | inr hrest => exact ih hrest

/-- Scans that find nothing leave no pair behind. The induction is on the log: the votes before a
record do not clash, and those after it clash only in pairs with it, which the scan compares. -/
theorem scanEach_none (hscan : ∀ book, scan book v = newest f (book.votesOf v))
    (hsymm : ∀ x y, f x y = none → f y x = none) (hself : ∀ x, f x x = none) {book : VoteBook}
    {log : List (ValidatorId × VoteRecord)}
    (hbook : ∀ x ∈ book.votesOf v, ∀ y ∈ book.votesOf v, f x y = none)
    (h : ∀ r ∈ scanEach scan v book log, r = none) :
    ∀ x ∈ book.votesOf v ++ historyOf v log, ∀ y ∈ book.votesOf v ++ historyOf v log,
      f x y = none := by
  induction log generalizing book with
  | nil => simpa [historyOf] using hbook
  | cons e log ih =>
    rw [← votesOf_recorded]
    refine ih ?_ fun r hr => h r (List.mem_cons_of_mem _ hr)
    by_cases he : e.1 = v
    · have hnewest := h _ List.mem_cons_self
      rw [hscan, ← he, VoteBook.votesOf_record, newest_snoc, List.findSome?_eq_none_iff] at hnewest
      rw [← he] at hbook ⊢
      rw [VoteBook.votesOf_record]
      intro x hx y hy
      rw [List.mem_append, List.mem_singleton] at hx hy
      cases hx with
      | inl hx =>
        cases hy with
        | inl hy => exact hbook x hx y hy
        | inr hy =>
          rw [hy]
          exact hsymm _ _ (hnewest x hx)
      | inr hx =>
        rw [hx]
        cases hy with
        | inl hy => exact hnewest y hy
        | inr hy =>
          rw [hy]
          exact hself _
    · rwa [book.votesOf_record_other he]

end Scans

/- The two conditions. -/

def Surrounds (a b : VoteRecord) : Prop := surrounds a.source a.target b.source b.target = true

def DoubleVotes (a b : VoteRecord) : Prop := a.target = b.target ∧ a.checkpoint ≠ b.checkpoint

def surroundEvidence (v : ValidatorId) (a b : VoteRecord) : SurroundVote :=
  ⟨v, a.source, a.target, a.sig, a.checkpoint, b.source, b.target, b.sig, b.checkpoint⟩

def doubleVoteEvidence (v : ValidatorId) (a b : VoteRecord) : DoubleVote :=
  ⟨v, b.target, a.checkpoint, a.sig, b.checkpoint, b.sig⟩

section Conditions
variable (v : ValidatorId)

def surroundHit (new old : VoteRecord) : Option SurroundVote :=
  if surrounds new.source new.target old.source old.target then some (surroundEvidence v new old)
  else if surrounds old.source old.target new.source new.target then
    some (surroundEvidence v old new)
  else none

def doubleVoteHit (new old : VoteRecord) : Option DoubleVote :=
  if old.target = new.target ∧ old.checkpoint ≠ new.checkpoint then
    some (doubleVoteEvidence v old new)
  else none

theorem scanForSurround_eq (book : VoteBook) :
    scanForSurround book v = newest (surroundHit v) (book.votesOf v) := rfl

theorem scanForDoubleVote_eq (book : VoteBook) :
    scanForDoubleVote book v = newest (doubleVoteHit v) (book.votesOf v) := rfl

variable {v}

theorem surroundHit_none (x y : VoteRecord) :
    surroundHit v x y = none ↔ ¬ Surrounds x y ∧ ¬ Surrounds y x := by
  unfold surroundHit Surrounds
  split
  · simp [*]
  · split <;> simp [*]

theorem doubleVoteHit_none (x y : VoteRecord) : doubleVoteHit v x y = none ↔ ¬ DoubleVotes y x := by
  unfold doubleVoteHit DoubleVotes
  split <;> simp [*]

theorem surroundHit_some {x y : VoteRecord} {ev : SurroundVote} (h : surroundHit v x y = some ev) :
    (Surrounds x y ∧ ev = surroundEvidence v x y) ∨
      (Surrounds y x ∧ ev = surroundEvidence v y x) := by
  unfold surroundHit at h
  split at h
  · rename_i hxy
    exact Or.inl ⟨hxy, (Option.some.inj h).symm⟩
  · split at h
    · rename_i hyx
      exact Or.inr ⟨hyx, (Option.some.inj h).symm⟩
    · cases h

theorem doubleVoteHit_some {x y : VoteRecord} {ev : DoubleVote}
    (h : doubleVoteHit v x y = some ev) : DoubleVotes y x ∧ ev = doubleVoteEvidence v y x := by
  unfold doubleVoteHit at h
  split at h
  · rename_i hyx
    exact ⟨hyx, (Option.some.inj h).symm⟩
  · cases h

end Conditions

/- From the empty book. -/

section Book
variable (v : ValidatorId) (log : List (ValidatorId × VoteRecord))

theorem history_of_empty : (({} : VoteBook).votesOf v ++ historyOf v log) = historyOf v log := rfl

theorem scans_complete {ε : Type} {scan : VoteBook → ValidatorId → Option ε}
    {f : VoteRecord → VoteRecord → Option ε}
    (hscan : ∀ book, scan book v = newest f (book.votesOf v))
    (hsymm : ∀ x y, f x y = none → f y x = none) (hself : ∀ x, f x x = none)
    (h : ∃ x ∈ historyOf v log, ∃ y ∈ historyOf v log, f x y ≠ none) :
    ∃ ev, some ev ∈ scanEach scan v {} log := by
  by_contra hnone
  have hquiet : ∀ r ∈ scanEach scan v {} log, r = none := by
    intro r hr
    cases r with
    | none => rfl
    | some ev => exact absurd ⟨ev, hr⟩ hnone
  obtain ⟨x, hx, y, hy, hf⟩ := h
  have hall := scanEach_none hscan hsymm hself (fun x hx => absurd hx (by simp [VoteBook.votesOf]))
    hquiet
  exact hf (hall x hx y hy)

theorem surround_scans_complete
    (h : ∃ a ∈ historyOf v log, ∃ b ∈ historyOf v log, Surrounds a b) :
    ∃ ev, some ev ∈ scanEach scanForSurround v {} log := by
  refine scans_complete v log (scanForSurround_eq v) ?_ ?_ ?_
  · intro x y hxy
    exact (surroundHit_none y x).mpr ((surroundHit_none x y).mp hxy).symm
  · intro x
    have hself : ¬ Surrounds x x := by simp [Surrounds, surrounds]
    exact (surroundHit_none x x).mpr ⟨hself, hself⟩
  · obtain ⟨a, ha, b, hb, hab⟩ := h
    exact ⟨a, ha, b, hb, fun hnone => ((surroundHit_none a b).mp hnone).1 hab⟩

theorem doubleVote_scans_complete
    (h : ∃ a ∈ historyOf v log, ∃ b ∈ historyOf v log, DoubleVotes a b) :
    ∃ ev, some ev ∈ scanEach scanForDoubleVote v {} log := by
  refine scans_complete v log (scanForDoubleVote_eq v) ?_ ?_ ?_
  · intro x y hxy
    rw [doubleVoteHit_none] at hxy ⊢
    exact fun h => hxy ⟨h.1.symm, h.2.symm⟩
  · intro x
    rw [doubleVoteHit_none]
    exact fun h => h.2 rfl
  · obtain ⟨a, ha, b, hb, hab⟩ := h
    exact ⟨b, hb, a, ha, fun hnone => (doubleVoteHit_none b a).mp hnone hab⟩

theorem surround_scans_sound (ev : SurroundVote)
    (h : some ev ∈ scanEach scanForSurround v {} log) :
    ∃ a ∈ historyOf v log, ∃ b ∈ historyOf v log, Surrounds a b ∧ ev = surroundEvidence v a b := by
  obtain ⟨x, hx, y, hy, hf⟩ := scanEach_some (scanForSurround_eq v) h
  rw [history_of_empty] at hx hy
  cases surroundHit_some hf with
  | inl hxy => exact ⟨x, hx, y, hy, hxy⟩
  | inr hyx => exact ⟨y, hy, x, hx, hyx⟩

theorem doubleVote_scans_sound (ev : DoubleVote)
    (h : some ev ∈ scanEach scanForDoubleVote v {} log) :
    ∃ a ∈ historyOf v log, ∃ b ∈ historyOf v log,
      DoubleVotes a b ∧ ev = doubleVoteEvidence v a b := by
  obtain ⟨x, hx, y, hy, hf⟩ := scanEach_some (scanForDoubleVote_eq v) h
  rw [history_of_empty] at hx hy
  exact ⟨y, hy, x, hx, doubleVoteHit_some hf⟩

end Book

/-- The scans after every record find something exactly if two votes of the history violate the
condition, and what they find is such a pair, the surrounding vote first. -/
theorem slash_scans_exact (v : ValidatorId) (log : List (ValidatorId × VoteRecord)) :
    ((∃ ev, some ev ∈ scanEach scanForSurround v {} log) ↔
        ∃ a ∈ historyOf v log, ∃ b ∈ historyOf v log, Surrounds a b) ∧
      (∀ ev, some ev ∈ scanEach scanForSurround v {} log →
        ∃ a ∈ historyOf v log, ∃ b ∈ historyOf v log,
          Surrounds a b ∧ ev = surroundEvidence v a b) ∧
      ((∃ ev, some ev ∈ scanEach scanForDoubleVote v {} log) ↔
        ∃ a ∈ historyOf v log, ∃ b ∈ historyOf v log, DoubleVotes a b) ∧
      ∀ ev, some ev ∈ scanEach scanForDoubleVote v {} log →
        ∃ a ∈ historyOf v log, ∃ b ∈ historyOf v log,
          DoubleVotes a b ∧ ev = doubleVoteEvidence v a b := by
  have hsurround := surround_scans_sound v log
  have hdouble := doubleVote_scans_sound v log
  refine ⟨⟨?_, surround_scans_complete v log⟩, hsurround,
    ⟨?_, doubleVote_scans_complete v log⟩, hdouble⟩
  · intro h
    obtain ⟨ev, hev⟩ := h
    obtain ⟨a, ha, b, hb, hab, -⟩ := hsurround ev hev
    exact ⟨a, ha, b, hb, hab⟩
  · intro h
    obtain ⟨ev, hev⟩ := h
    obtain ⟨a, ha, b, hb, hab, -⟩ := hdouble ev hev
    exact ⟨a, ha, b, hb, hab⟩

end LuaDag
