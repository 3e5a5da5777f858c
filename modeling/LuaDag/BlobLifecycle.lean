import LuaDag.BlobHost

/-! The life of a publish record. `Ready` becomes `Attached` when a vertex takes the blob; the
way back is a second publication of the same payload, which writes its record unseen. -/
namespace LuaDag
open Database PublishState

/-- A record that has reached `Attached` is `Ready` at no later point of the run. -/
def AttachedTerminal (blake3 : BlobHash) (cfg : BlobCustodyConfig) (db : Database)
    (moves : List HostMove) : Prop :=
  ∀ before between rest : List HostMove, moves = before ++ between ++ rest → ∀ id : BlobId,
    (World.after blake3 cfg db before).host.db.stateOf id attached →
      ¬ (World.after blake3 cfg db (before ++ between)).host.db.stateOf id ready

def Publishes (cfg : BlobCustodyConfig) (m : HostMove) (payload : List Byte) : Prop :=
  m = .publishPayload payload (.ok ()) ∧ ReedSolomon.Valid cfg.erasure ∧
    payload.length ≤ cfg.erasure.paddedLen

/-- The call publishes a payload whose blob is on record as `Attached`. -/
def Republishes (blake3 : BlobHash) (cfg : BlobCustodyConfig) (call : Call HostMove World) : Prop :=
  ∃ payload, Publishes cfg call.input payload ∧
    call.pre.host.db.stateOf (blobIdFromPayload blake3 payload) attached

namespace World
variable {blake3 : BlobHash} {cfg : BlobCustodyConfig} {db : Database} {w : World} {m : HostMove}

/-- The host has recovered, and no task is about to write anything but `Attached`. -/
structure Steady (w : World) : Prop where
  done : w.host.bootSyncDone = true
  attaches : ∀ id row, Task.attach id row ∈ w.tasks → row.state = attached.toByte

theorem steady_boot : Steady (boot cfg db) :=
  ⟨rfl, fun id row h => by simp [boot] at h⟩

theorem Steady.next (h : Steady w) : Steady (step blake3 cfg m w).state := by
  refine ⟨step_done h.done, ?_⟩
  intro id row hrun
  cases step_attach hrun with
  | inl hold => exact h.attaches id row hold
  | inr hnew =>
    obtain ⟨record, -, -, rfl⟩ := attachedRow_ok hnew.2
    rfl

theorem after_snoc (moves : List HostMove) : after blake3 cfg db (moves ++ [m]) =
    (step blake3 cfg m (after blake3 cfg db moves)).state :=
  Trace.final_append _ _ _ _

theorem steady_after (moves : List HostMove) : Steady (after blake3 cfg db moves) :=
  Trace.invariant (step blake3 cfg) (fun _ => True) (fun _ w => Steady w) (boot cfg db)
    steady_boot (fun _ _ _ h _ => h.next) moves fun _ _ => trivial

theorem Steady.keeps (h : Steady w) {id : BlobId} (hattached : w.host.db.stateOf id attached)
    (hfresh : ¬ Republishes blake3 cfg ⟨w, m⟩) :
    (step blake3 cfg m w).state.host.db.stateOf id attached := by
  have hw := @step_writes blake3 cfg m w
  generalize (step blake3 cfg m w).state.host.db = db' at hw ⊢
  cases hw with
  | nothing => exact hattached
  | publish payload io blobRef chunks db' hok =>
    obtain ⟨hcfg, hlen, rfl⟩ :=
      (BlobCustodyHandle.publishDurably_ok_iff h.done).mp ⟨_, hok⟩
    have hother : blobIdFromPayload blake3 payload ≠ id := by
      rintro rfl
      exact hfresh ⟨payload, ⟨rfl, hcfg, hlen⟩, hattached⟩
    obtain ⟨record, hrow, hstate⟩ := hattached
    refine ⟨record, ?_, hstate⟩
    rw [BlobCustodyHandle.publishDurably_record hok, Maps.get_insert, if_neg hother]
    exact hrow
  | chunk c io db' hok =>
    obtain ⟨-, rfl⟩ := apply_ok hok
    exact hattached
  | attach m id' row hrun =>
    rw [stateOf_put]
    split
    · exact h.attaches id' row hrun
    · exact hattached

theorem Steady.keeps_after (h : Steady w) {id : BlobId}
    (hattached : w.host.db.stateOf id attached) (moves : List HostMove)
    (hfresh : ∀ call ∈ Trace.calls (step blake3 cfg) w moves, ¬ Republishes blake3 cfg call) :
    (Trace.final (step blake3 cfg) w moves).host.db.stateOf id attached :=
  (Trace.invariant (step blake3 cfg) (fun call => ¬ Republishes blake3 cfg call)
    (fun _ w => Steady w ∧ w.host.db.stateOf id attached) w ⟨h, hattached⟩
    (fun _ _ _ hinv hgood => ⟨hinv.1.next, hinv.1.keeps hinv.2 hgood⟩) moves hfresh).2

theorem Steady.takes_back (h : Steady w) (hrepublishes : Republishes blake3 cfg ⟨w, m⟩) :
    ∃ id, w.host.db.stateOf id attached ∧
      (step blake3 cfg m w).state.host.db.stateOf id ready := by
  obtain ⟨payload, ⟨rfl, hcfg, hlen⟩, hattached⟩ := hrepublishes
  have hok : ∃ r, w.host.publishDurably blake3 cfg (.ok ()) payload = .ok r :=
    (BlobCustodyHandle.publishDurably_ok_iff h.done).mpr ⟨hcfg, hlen, rfl⟩
  obtain ⟨⟨blobRef, chunks, db'⟩, hok⟩ := hok
  refine ⟨blobIdFromPayload blake3 payload, hattached,
    ⟨PublishState.ready.toByte, blobRef⟩, ?_, rfl⟩
  have hdb : (step blake3 cfg (.publishPayload payload (.ok ())) w).state.host.db = db' := by
    rw [step_publish hok]
  rw [hdb, BlobCustodyHandle.publishDurably_record hok, Maps.get_insert, if_pos rfl]

end World

/-- `Attached` is terminal in exactly the runs that never publish the payload of an attached blob
again. -/
theorem attached_terminal_iff (blake3 : BlobHash) (cfg : BlobCustodyConfig) (db : Database)
    (moves : List HostMove) : AttachedTerminal blake3 cfg db moves ↔
      ∀ call ∈ World.history blake3 cfg db moves, ¬ Republishes blake3 cfg call := by
  constructor
  · intro hterminal call hcall hrep
    obtain ⟨before, rest, hmoves, hpre⟩ := Trace.mem_calls _ hcall
    obtain ⟨w, m⟩ := call
    dsimp only at hmoves hpre
    subst hpre
    obtain ⟨id, hattached, hready⟩ := (World.steady_after before).takes_back hrep
    refine hterminal before [m] rest ?_ id hattached ?_
    · rw [hmoves, List.append_assoc, List.singleton_append]
    · rw [World.after_snoc]
      exact hready
  · rintro hfresh before between rest rfl id hattached hready
    have hkept := (World.steady_after before).keeps_after hattached between fun call hcall => by
      refine hfresh call ?_
      rw [World.history, List.append_assoc, Trace.calls_append, Trace.calls_append]
      exact List.mem_append_right _ (List.mem_append_left _ hcall)
    rw [World.after, Trace.final_append] at hready
    exact absurd (stateOf_unique hkept hready) (by decide)

def lengthHash : BlobHash
  | _, .bytes b => ⟨b.length⟩
  | _, _ => ⟨0⟩

/-- A payload is published, attached, and published once more. -/
theorem attached_terminal_fails : ¬ AttachedTerminal lengthHash ⟨⟨1, 2, 4⟩⟩ {}
    [.publishPayload [1, 0] (.ok ()), .markAttached ⟨2⟩, .proceed 1 (.ok ()),
      .publishPayload [1, 0] (.ok ())] := by
  let cfg : BlobCustodyConfig := ⟨⟨1, 2, 4⟩⟩
  have hcfg : ReedSolomon.Valid cfg.erasure :=
    ⟨by decide, by decide, by decide, by decide⟩
  let w₀ := World.boot cfg {}
  have hok : ∃ r, w₀.host.publishDurably lengthHash cfg (.ok ()) [1, 0] = .ok r :=
    (BlobCustodyHandle.publishDurably_ok_iff rfl).mpr ⟨hcfg, by decide, rfl⟩
  obtain ⟨⟨blobRef, chunks, db₁⟩, hok⟩ := hok
  have hpublish : (World.step lengthHash cfg (.publishPayload [1, 0] (.ok ())) w₀).state =
      { w₀ with host := { w₀.host with db := db₁ }, tasks := [.enqueue blobRef chunks] } :=
    World.step_publish hok
  have hrow : db₁.blobPublish[(⟨2⟩ : BlobId)]? = some ⟨ready.toByte, blobRef⟩ := by
    rw [BlobCustodyHandle.publishDurably_record hok, Maps.get_insert]
    rfl
  have hattach : db₁.attachedRow ⟨2⟩ = .ok (some ⟨attached.toByte, blobRef⟩) := by
    simp only [attachedRow, hrow, fromByte_toByte]
  have hthird : (World.after lengthHash cfg {} [.publishPayload [1, 0] (.ok ()),
      .markAttached ⟨2⟩, .proceed 1 (.ok ())]).host.db =
        db₁.put (.publish ⟨2⟩ ⟨attached.toByte, blobRef⟩) := by
    have hsteps : [HostMove.publishPayload [1, 0] (.ok ()), .markAttached ⟨2⟩,
        .proceed 1 (.ok ())] = [] ++ [.publishPayload [1, 0] (.ok ())] ++ [.markAttached ⟨2⟩] ++
          [.proceed 1 (.ok ())] := rfl
    rw [hsteps, World.after_snoc, World.after_snoc, World.after_snoc,
      show World.after lengthHash cfg {} [] = w₀ from rfl, hpublish]
    simp only [World.step, hattach]
    rfl
  have hrepublishes : Republishes lengthHash cfg ⟨World.after lengthHash cfg {}
      [.publishPayload [1, 0] (.ok ()), .markAttached ⟨2⟩, .proceed 1 (.ok ())],
        .publishPayload [1, 0] (.ok ())⟩ := by
    refine ⟨[1, 0], ⟨rfl, hcfg, by decide⟩, ?_⟩
    rw [hthird, stateOf_put]
    rfl
  obtain ⟨id, hattached, hready⟩ := (World.steady_after _).takes_back hrepublishes
  rw [← World.after_snoc] at hready
  intro hterminal
  exact hterminal _ [.publishPayload [1, 0] (.ok ())] [] rfl id hattached hready

end LuaDag
