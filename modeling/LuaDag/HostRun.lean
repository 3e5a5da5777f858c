import LuaDag.Orchestrator

/-! What the process amounts to. In any order of the steps of its tasks, the state machine makes a
run of its own; the calls of that run are served the vertices verified so far and the beacon of
the QCs stored so far, and the database holds what its successful writes make of it. -/
namespace LuaDag
namespace Host
variable {s : NodeSetup}

/- Dispatching leaves the loop's own state alone. -/
section Frames
variable (io : Except StorageError Unit) (a : Action) (h : Host)

@[simp] theorem loopBack_sm : (h.loopBack a).sm = h.sm := by cases a <;> rfl
@[simp] theorem loopBack_dag : (h.loopBack a).dag = h.dag := by cases a <;> rfl
@[simp] theorem loopBack_loop : (h.loopBack a).loop = h.loop := by cases a <;> rfl
@[simp] theorem loopBack_beacon : (h.loopBack a).beacon = h.beacon := by cases a <;> rfl
@[simp] theorem loopBack_rows : (h.loopBack a).rows = h.rows := by cases a <;> rfl

theorem handOver_cases (P : Host → Prop) (hstay : P h) (hsent : ∀ q, P { h with netActions := q })
    (hdrop : ∀ m, P { h with metrics := m }) : P (h.handOver a) := by
  unfold handOver
  split
  · split
    · exact hsent _
    · exact hdrop _
  · exact hstay

@[simp] theorem handOver_sm : (h.handOver a).sm = h.sm :=
  handOver_cases a h (·.sm = h.sm) rfl (fun _ => rfl) fun _ => rfl
@[simp] theorem handOver_dag : (h.handOver a).dag = h.dag :=
  handOver_cases a h (·.dag = h.dag) rfl (fun _ => rfl) fun _ => rfl
@[simp] theorem handOver_loop : (h.handOver a).loop = h.loop :=
  handOver_cases a h (·.loop = h.loop) rfl (fun _ => rfl) fun _ => rfl
@[simp] theorem handOver_beacon : (h.handOver a).beacon = h.beacon :=
  handOver_cases a h (·.beacon = h.beacon) rfl (fun _ => rfl) fun _ => rfl
@[simp] theorem handOver_rows : (h.handOver a).rows = h.rows :=
  handOver_cases a h (·.rows = h.rows) rfl (fun _ => rfl) fun _ => rfl

@[simp] theorem apply_sm : (h.apply s io a).sm = h.sm := by
  cases a <;> cases io <;> rfl
@[simp] theorem apply_dag : (h.apply s io a).dag = h.dag := by
  cases a <;> cases io <;> rfl
@[simp] theorem apply_loop : (h.apply s io a).loop = h.loop := by
  cases a <;> cases io <;> rfl

@[simp] theorem dispatchAction_sm : (dispatchAction s io a h).sm = h.sm := by
  simp [dispatchAction]
@[simp] theorem dispatchAction_dag : (dispatchAction s io a h).dag = h.dag := by
  simp [dispatchAction]
@[simp] theorem dispatchAction_loop : (dispatchAction s io a h).loop = h.loop := by
  simp [dispatchAction]

end Frames

theorem dispatchActions_frame {β : Type} (f : Host → β)
    (hf : ∀ io a h, f (dispatchAction s io a h) = f h) (ans : Answers) (i : Nat)
    (acts : List Action) (h : Host) : f (dispatchActions s ans i acts h) = f h := by
  induction acts generalizing i h with
  | nil => rfl
  | cons a acts ih => exact (ih (i + 1) _).trans (hf _ a h)

/- What is stored. -/

def storedFrom (ans : Answers) : Nat → List Action → List Action
  | _, [] => []
  | i, a :: as => if (ans.db i).isOk then a :: storedFrom ans (i + 1) as
      else storedFrom ans (i + 1) as

def logCallsFrom (ans : Answers) : Nat → List Action → List LogCall
  | _, [] => []
  | i, a :: as =>
    match a with
    | .emitSlashEvidence _ ev =>
      .appendSlashEvidence ev (ans.db i) :: logCallsFrom ans (i + 1) as
    | _ => logCallsFrom ans (i + 1) as

def tiersOf (blob : BlobId) (acts : List Action) : List Nat :=
  acts.filterMap fun a => match a with
    | .updateBlobStatus b status => if b = blob then some status.tier else none
    | _ => none

structure Wrote (s : NodeSetup) (before after : Host) (stored : List Action)
    (log : List LogCall) : Prop where
  beacon : after.beacon = ChainedBeacon.applied s.cr before.beacon stored
  macros : after.rows.macros = stored.foldl MacroRows.apply before.rows.macros
  slash : after.rows.slash = Trace.final RocksPersistence.step before.rows.slash log
  tiers : ∀ blob, (after.rows.blobStatus blob).tier =
    (tiersOf blob stored).foldl max (before.rows.blobStatus blob).tier

theorem Wrote.nothing {before after : Host} (hbeacon : after.beacon = before.beacon)
    (hmacros : after.rows.macros = before.rows.macros)
    (hslash : after.rows.slash = before.rows.slash)
    (hstatuses : after.rows.statuses = before.rows.statuses) : Wrote s before after [] [] where
  beacon := hbeacon
  macros := hmacros
  slash := hslash
  tiers := fun blob => by simp [HostRows.blobStatus, hstatuses, tiersOf]

theorem Wrote.trans {a b c : Host} {stored stored' : List Action} {log log' : List LogCall}
    (h : Wrote s a b stored log) (h' : Wrote s b c stored' log') :
    Wrote s a c (stored ++ stored') (log ++ log') where
  beacon := by rw [h'.beacon, h.beacon, ChainedBeacon.applied_append]
  macros := by rw [h'.macros, h.macros, List.foldl_append]
  slash := by rw [h'.slash, h.slash, Trace.final_append]
  tiers := fun blob => by
    rw [h'.tiers, h.tiers, ← List.foldl_append]
    simp [tiersOf]

theorem tier_putMonotonic (statuses : Std.TreeMap BlobId BlobStatus) (b blob : BlobId)
    (status : BlobStatus) : ((HostRows.putMonotonic statuses b status)[blob]?.getD .accepted).tier =
      if b = blob then max (statuses[blob]?.getD .accepted).tier status.tier
      else (statuses[blob]?.getD .accepted).tier := by
  unfold HostRows.putMonotonic
  cases hb : statuses[b]? with
  | none =>
    simp only [Maps.get_insert]
    split
    · rename_i heq
      subst heq
      simp [hb, BlobStatus.tier]
    · rfl
  | some existing =>
    dsimp only
    by_cases heq : b = blob
    · subst heq
      rw [if_pos rfl, hb]
      split
      · rename_i hlt
        simp [max_eq_right hlt.le]
      · rename_i hle
        simp [hb, max_eq_left (Nat.le_of_not_lt hle)]
    · rw [if_neg heq]
      split
      · rw [Maps.get_insert, if_neg heq]
      · rfl

theorem apply_wrote (ans : Answers) (i : Nat) (a : Action) (h : Host) :
    Wrote s h (h.apply s (ans.db i) a) (storedFrom ans i [a]) (logCallsFrom ans i [a]) := by
  have hstored : storedFrom ans i [a] = if (ans.db i).isOk then [a] else [] := by
    simp [storedFrom]
  rw [hstored]
  cases hio : ans.db i with
  | error e =>
    have hno : ((.error e : Except StorageError Unit)).isOk = false := rfl
    rw [hno, if_neg (by simp)]
    cases a with
    | emitSlashEvidence o ev =>
      exact ⟨rfl, rfl, by simp [apply, logCallsFrom, Trace.final, RocksPersistence.step, hio],
        fun b => by simp [apply, tiersOf, HostRows.blobStatus]⟩
    | _ => exact Wrote.nothing rfl rfl rfl rfl
  | ok u =>
    have hyes : ((.ok u : Except StorageError Unit)).isOk = true := rfl
    rw [hyes, if_pos rfl]
    cases a with
    | persistMacroCheckpoint cp => exact ⟨rfl, rfl, rfl, fun b => rfl⟩
    | persistMacroQc qc => exact ⟨rfl, rfl, rfl, fun b => rfl⟩
    | emitSlashEvidence o ev =>
      exact ⟨rfl, rfl, by simp [apply, logCallsFrom, Trace.final, RocksPersistence.step, hio],
        fun b => rfl⟩
    | updateBlobStatus b status =>
      refine ⟨rfl, rfl, rfl, fun blob => ?_⟩
      simp only [apply, HostRows.blobStatus, tier_putMonotonic, tiersOf, List.filterMap_cons,
        List.filterMap_nil]
      split <;> rfl
    | _ => exact ⟨rfl, rfl, rfl, fun b => rfl⟩

theorem dispatchAction_wrote (ans : Answers) (i : Nat) (a : Action) (h : Host) :
    Wrote s h (dispatchAction s (ans.db i) a h) (storedFrom ans i [a])
      (logCallsFrom ans i [a]) := by
  let counted : Host := { h with metrics := { h.metrics with
    actionsDispatched := h.metrics.actionsDispatched + 1 } }
  have hsent : Wrote s h ((counted.loopBack a).handOver a) [] [] :=
    Wrote.nothing (by simp [counted]) (by simp [counted]) (by simp [counted]) (by simp [counted])
  exact hsent.trans (apply_wrote ans i a ((counted.loopBack a).handOver a))

theorem storedFrom_cons (ans : Answers) (i : Nat) (a : Action) (as : List Action) :
    storedFrom ans i (a :: as) = storedFrom ans i [a] ++ storedFrom ans (i + 1) as := by
  simp only [storedFrom]
  split <;> rfl

theorem logCallsFrom_cons (ans : Answers) (i : Nat) (a : Action) (as : List Action) :
    logCallsFrom ans i (a :: as) = logCallsFrom ans i [a] ++ logCallsFrom ans (i + 1) as := by
  cases a <;> rfl

theorem dispatchActions_wrote (ans : Answers) (i : Nat) (acts : List Action) (h : Host) :
    Wrote s h (dispatchActions s ans i acts h) (storedFrom ans i acts)
      (logCallsFrom ans i acts) := by
  induction acts generalizing i h with
  | nil => exact Wrote.nothing rfl rfl rfl rfl
  | cons a acts ih =>
    rw [storedFrom_cons, logCallsFrom_cons]
    exact (dispatchAction_wrote ans i a h).trans (ih (i + 1) _)

/- One step. -/

inductive Drives (s : NodeSetup) (h : Host) :
    HostStep → Answers → StateMachine.Request → Host → Prop
  | boot (ans : Answers) (hloop : h.loop = .starting) (hpropose : s.proposeEnabled = true) :
      Drives s h (.boot ans) ans .genesis h
  | vertex (ans : Answers) (cv : CertifiedVertex) (es : List Event) (m : Metrics)
      (hloop : h.loop = .running) (hevents : h.events = .certifiedVertexReceived cv :: es)
      (hok : verifyCertifiedVertex s.cr cv s.valset = .ok ()) (hio : ans.db 0 = .ok ()) :
      Drives s h (.next ans) ans (.event (.certifiedVertexReceived cv))
        { h with
          events := es, metrics := m, dag := h.dag.ingest cv, rows := h.rows.putVertex cv }
  | event (ans : Answers) (e : Event) (es : List Event) (m : Metrics)
      (hloop : h.loop = .running) (hevents : h.events = e :: es)
      (hother : ∀ cv, e ≠ .certifiedVertexReceived cv) :
      Drives s h (.next ans) ans (.event e) { h with events := es, metrics := m }

structure Idles (h : Host) (o : HostResult) : Prop where
  quiet : o = .quiet o.state
  sm : o.state.sm = h.sm
  dag : o.state.dag = h.dag
  beacon : o.state.beacon = h.beacon
  rows : o.state.rows = h.rows

theorem step_cases (t : HostStep) (h : Host) :
    (∃ ans req g, Drives s h t ans req g ∧ step s t h = drive s ans req g) ∨
      Idles h (step s t h) := by
  have hidle : ∀ g : Host, g.sm = h.sm → g.dag = h.dag → g.beacon = h.beacon → g.rows = h.rows →
      Idles h (.quiet g) := fun g hsm hdag hbeacon hrows => ⟨rfl, hsm, hdag, hbeacon, hrows⟩
  cases t with
  | boot ans =>
    simp only [step, boot]
    split
    · rename_i hloop
      split
      · rename_i hpropose
        exact Or.inl ⟨ans, .genesis, h, .boot ans hloop hpropose, rfl⟩
      · exact Or.inr (hidle _ rfl rfl rfl rfl)
    · exact Or.inr (hidle _ rfl rfl rfl rfl)
  | next ans =>
    simp only [step, next]
    split
    · rename_i e es hloop hevents
      unfold onEvent
      dsimp only
      split
      · rename_i cv
        unfold admitVertex
        split
        · exact Or.inr (hidle _ rfl rfl rfl rfl)
        · rename_i hok
          cases hio : ans.db 0 with
          | error err => exact Or.inr (hidle _ rfl rfl rfl rfl)
          | ok u => exact Or.inl ⟨ans, _, _, .vertex ans cv es _ hloop hevents hok hio, rfl⟩
      · rename_i hother
        exact Or.inl ⟨ans, _, _, .event ans e es _ hloop hevents hother, rfl⟩
    · exact Or.inr (hidle _ rfl rfl rfl rfl)
  | message topic data =>
    simp only [step, message]
    split <;> exact Or.inr (hidle _ rfl rfl rfl rfl)
  | fanIn =>
    simp only [step, fanIn]
    split
    · exact Or.inr (hidle _ rfl rfl rfl rfl)
    · split <;> exact Or.inr (hidle _ rfl rfl rfl rfl)
  | publish =>
    simp only [step, publish]
    split
    · exact Or.inr (hidle _ rfl rfl rfl rfl)
    · split <;> exact Or.inr (hidle _ rfl rfl rfl rfl)
  | arm =>
    simp only [step, arm]
    split <;> exact Or.inr (hidle _ rfl rfl rfl rfl)
  | _ => exact Or.inr (hidle _ rfl rfl rfl rfl)

theorem dispatchAction_vertices (io : Except StorageError Unit) (a : Action) (h : Host) :
    (dispatchAction s io a h).rows.vertices = h.rows.vertices := by
  have happly : ∀ g : Host, (g.apply s io a).rows.vertices = g.rows.vertices := by
    intro g
    cases a <;> cases io <;> rfl
  simp [dispatchAction, happly]

structure Drove (s : NodeSetup) (ans : Answers) (g : Host) (o : Result StateMachine)
    (o' : HostResult) : Prop where
  sm : o'.state.sm = o.state
  dag : o'.state.dag = g.dag
  vertices : o'.state.rows.vertices = g.rows.vertices
  actions : o'.actions = o.actions
  signed : o'.signed = o.signed
  wrote : Wrote s g o'.state (storedFrom ans 1 o.actions) (logCallsFrom ans 1 o.actions)

theorem drive_error {ans : Answers} {req : StateMachine.Request} {g : Host} {e : Error}
    (hres : (StateMachine.exec s.cr (req, g.context s ans) g.sm).result = .error e) :
    drive s ans req g = ⟨{ g with
        sm := (StateMachine.exec s.cr (req, g.context s ans) g.sm).state
        loop := LoopState.afterError e },
      (StateMachine.exec s.cr (req, g.context s ans) g.sm).signed, .ok []⟩ := by
  simp [drive, hres]

theorem drive_ok {ans : Answers} {req : StateMachine.Request} {g : Host} {acts : List Action}
    (hres : (StateMachine.exec s.cr (req, g.context s ans) g.sm).result = .ok acts) :
    drive s ans req g = ⟨dispatchActions s ans 1 acts { g with
        sm := (StateMachine.exec s.cr (req, g.context s ans) g.sm).state
        loop := .running },
      (StateMachine.exec s.cr (req, g.context s ans) g.sm).signed, .ok acts⟩ := by
  simp [drive, hres]

theorem drive_drove (ans : Answers) (req : StateMachine.Request) (g : Host) :
    Drove s ans g (StateMachine.exec s.cr (req, g.context s ans) g.sm) (drive s ans req g) := by
  cases hres : (StateMachine.exec s.cr (req, g.context s ans) g.sm).result with
  | error e =>
    have hno : (StateMachine.exec s.cr (req, g.context s ans) g.sm).actions = [] := by
      simp [Outcome.actions, hres]
    rw [drive_error hres]
    refine ⟨rfl, rfl, rfl, hno.symm, rfl, ?_⟩
    rw [hno]
    exact Wrote.nothing rfl rfl rfl rfl
  | ok acts =>
    have hacts : (StateMachine.exec s.cr (req, g.context s ans) g.sm).actions = acts := by
      simp [Outcome.actions, hres]
    rw [drive_ok hres]
    refine ⟨dispatchActions_frame (·.sm) (fun _ _ _ => dispatchAction_sm _ _ _) _ _ _ _,
      dispatchActions_frame (·.dag) (fun _ _ _ => dispatchAction_dag _ _ _) _ _ _ _,
      dispatchActions_frame (·.rows.vertices) dispatchAction_vertices _ _ _ _, hacts.symm, rfl, ?_⟩
    rw [hacts]
    have hwrote := @dispatchActions_wrote s ans 1 acts { g with
      sm := (StateMachine.exec s.cr (req, g.context s ans) g.sm).state, loop := .running }
    exact ⟨hwrote.beacon, hwrote.macros, hwrote.slash, hwrote.tiers⟩

/- Runs. -/

abbrev HostCall := StateMachine.Input × Answers

def delivered (is : List StateMachine.Input) : List CertifiedVertex :=
  is.filterMap fun i => match i.1 with
    | .event (.certifiedVertexReceived cv) => some cv
    | _ => none

@[simp] theorem delivered_append (is js : List StateMachine.Input) :
    delivered (is ++ js) = delivered is ++ delivered js := by
  simp [delivered]

def writes {β : Type} (cr : Crypto) (f : Answers → Nat → List Action → List β) :
    StateMachine → List HostCall → List β
  | _, [] => []
  | sm, c :: cs => f c.2 1 (StateMachine.exec cr c.1 sm).actions ++
      writes cr f (StateMachine.exec cr c.1 sm).state cs

theorem writes_append {β : Type} (cr : Crypto) (f : Answers → Nat → List Action → List β)
    (sm : StateMachine) (cs ds : List HostCall) :
    writes cr f sm (cs ++ ds) = writes cr f sm cs ++
      writes cr f (Trace.final (StateMachine.exec cr) sm (cs.map (·.1))) ds := by
  induction cs generalizing sm with
  | nil => rfl
  | cons c cs ih => simp [writes, Trace.final, ih]

def stored (s : NodeSetup) (cs : List HostCall) : List Action :=
  writes s.cr storedFrom (StateMachine.new s.cfg s.self) cs

def logCalls (s : NodeSetup) (cs : List HostCall) : List LogCall :=
  writes s.cr logCallsFrom (StateMachine.new s.cfg s.self) cs

structure Served (s : NodeSetup) (past : List HostCall) (c : HostCall) : Prop where
  dag : c.1.2.dag = (LiveDag.of (delivered ((past ++ [c]).map (·.1)))).view
  setFor : c.1.2.setFor = Host.setFor s.valset
  beacon : c.1.2.beacon = .ok (ChainedBeacon.applied s.cr ChainedBeacon.new (stored s past))
  signBls : c.1.2.signBls = s.signBls
  vrfProve : c.1.2.vrfProve = s.vrfProve
  drain : c.1.2.drain = c.2.drain
  fuel : c.1.2.fuel = s.fuel

/-- A process that has made the calls `cs`. -/
structure Hosted (s : NodeSetup) (rows : HostRows) (hist : List (Call HostStep Host)) (h : Host)
    (cs : List HostCall) : Prop where
  sm : h.sm = StateMachine.reached s.cr s.cfg s.self (cs.map (·.1))
  actions : Trace.emitted (step s) hist =
    StateMachine.actions s.cr s.cfg s.self (cs.map (·.1))
  signed : Trace.signed (step s) hist = StateMachine.signLog s.cr s.cfg s.self (cs.map (·.1))
  verified : ∀ cv ∈ delivered (cs.map (·.1)), verifyCertifiedVertex s.cr cv s.valset = .ok ()
  dag : h.dag = LiveDag.of (delivered (cs.map (·.1)))
  vertices : h.rows.vertices = (delivered (cs.map (·.1))).foldl
    (fun m cv => m.insert (toLex (cv.vertex.round, cv.vertex.author)) cv) rows.vertices
  wrote : Wrote s (new s rows) h (stored s cs) (logCalls s cs)
  served : ∀ past c rest, cs = past ++ c :: rest → Served s past c

theorem snoc_split {α : Type} {l past rest : List α} {x y : α}
    (h : l ++ [x] = past ++ y :: rest) :
    (past = l ∧ y = x) ∨ ∃ rest', l = past ++ y :: rest' := by
  cases rest using List.reverseRecOn with
  | nil =>
    obtain ⟨hl, hx⟩ := List.append_inj_left' h rfl, List.append_inj_right' h rfl
    exact Or.inl ⟨hl.symm, (List.singleton_inj.mp hx).symm⟩
  | append_singleton rest z =>
    refine Or.inr ⟨rest, ?_⟩
    have hassoc : past ++ y :: (rest ++ [z]) = (past ++ y :: rest) ++ [z] := by simp
    rw [hassoc] at h
    exact List.append_inj_left' h rfl

theorem Hosted.call {rows : HostRows} {hist : List (Call HostStep Host)} {h g : Host}
    {cs : List HostCall} (hh : Hosted s rows hist h cs) {t : HostStep} {ans : Answers}
    {req : StateMachine.Request} (hd : Drives s h t ans req g)
    (hstep : step s t h = drive s ans req g) :
    Hosted s rows (hist ++ [⟨h, t⟩]) (step s t h).state
      (cs ++ [((req, g.context s ans), ans)]) := by
  have hdrove := @drive_drove s ans req g
  rw [← hstep] at hdrove
  -- what the loop does before the call
  obtain ⟨hsm, hbeacon, hwrote, hverified, hdag, hvertices⟩ : g.sm = h.sm ∧ g.beacon = h.beacon ∧
      Wrote s h g [] [] ∧ (∀ cv ∈ delivered [(req, g.context s ans)],
        verifyCertifiedVertex s.cr cv s.valset = .ok ()) ∧
      g.dag = (delivered [(req, g.context s ans)]).foldl LiveDag.ingest h.dag ∧
      g.rows.vertices = (delivered [(req, g.context s ans)]).foldl
        (fun m cv => m.insert (toLex (cv.vertex.round, cv.vertex.author)) cv) h.rows.vertices := by
    cases hd with
    | boot ans hloop hpropose =>
      exact ⟨rfl, rfl, Wrote.nothing rfl rfl rfl rfl, by simp [delivered], rfl, rfl⟩
    | vertex ans cv es m hloop hevents hok hio =>
      exact ⟨rfl, rfl, Wrote.nothing rfl rfl rfl rfl, by simpa [delivered] using hok, rfl, rfl⟩
    | event ans e es m hloop hevents hother =>
      have hnone : delivered [((.event e : StateMachine.Request), Host.context s ans
          { h with events := es, metrics := m })] = [] := by
        cases e with
        | certifiedVertexReceived cv => exact absurd rfl (hother cv)
        | _ => rfl
      rw [hnone]
      exact ⟨rfl, rfl, Wrote.nothing rfl rfl rfl rfl, by simp, rfl, rfl⟩
  have hpre : g.sm = Trace.final (StateMachine.exec s.cr) (StateMachine.new s.cfg s.self)
      (cs.map (·.1)) := hsm.trans hh.sm
  have hmap : (cs ++ [((req, g.context s ans), ans)]).map (·.1) =
      cs.map (·.1) ++ [(req, g.context s ans)] := by simp
  refine ⟨?_, ?_, ?_, ?_, ?_, ?_, ?_, ?_⟩
  · rw [hdrove.sm, hmap, StateMachine.reached, Trace.final_append, ← hpre]
    rfl
  · rw [Trace.emitted_append, Trace.emitted_singleton, hh.actions, hmap, StateMachine.actions,
      StateMachine.actions, StateMachine.run, StateMachine.run, Trace.calls_append,
      Trace.emitted_append, ← hpre, Trace.calls, Trace.calls, Trace.emitted_singleton]
    exact congrArg _ hdrove.actions
  · rw [Trace.signed_append, Trace.signed_singleton, hh.signed, hmap, StateMachine.signLog,
      StateMachine.signLog, StateMachine.run, StateMachine.run, Trace.calls_append,
      Trace.signed_append, ← hpre, Trace.calls, Trace.calls, Trace.signed_singleton]
    exact congrArg _ hdrove.signed
  · intro cv hcv
    rw [hmap, delivered_append] at hcv
    cases List.mem_append.mp hcv with
    | inl hold => exact hh.verified cv hold
    | inr hnew => exact hverified cv hnew
  · rw [hdrove.dag, hdag, hh.dag, hmap, delivered_append, LiveDag.of, LiveDag.of,
      List.foldl_append]
  · rw [hdrove.vertices, hvertices, hh.vertices, hmap, delivered_append, List.foldl_append]
  · have hall := (hh.wrote.trans hwrote).trans hdrove.wrote
    rw [List.append_nil, List.append_nil, hpre] at hall
    have hstored : stored s (cs ++ [((req, g.context s ans), ans)]) = stored s cs ++
        storedFrom ans 1 (StateMachine.exec s.cr (req, g.context s ans)
          (Trace.final (StateMachine.exec s.cr) (StateMachine.new s.cfg s.self)
            (cs.map (·.1)))).actions := by
      rw [stored, writes_append]
      simp [writes, stored]
    have hlog : logCalls s (cs ++ [((req, g.context s ans), ans)]) = logCalls s cs ++
        logCallsFrom ans 1 (StateMachine.exec s.cr (req, g.context s ans)
          (Trace.final (StateMachine.exec s.cr) (StateMachine.new s.cfg s.self)
            (cs.map (·.1)))).actions := by
      rw [logCalls, writes_append]
      simp [writes, logCalls]
    rw [hstored, hlog]
    exact hall
  · intro past c rest hsplit
    cases snoc_split hsplit with
    | inr hold =>
      obtain ⟨rest', hold⟩ := hold
      exact hh.served past c rest' hold
    | inl hnew =>
      obtain ⟨rfl, rfl⟩ := hnew
      refine ⟨?_, rfl, ?_, rfl, rfl, rfl, rfl⟩
      · rw [hmap, delivered_append, LiveDag.of, List.foldl_append, ← LiveDag.of, ← hh.dag, ← hdag]
        rfl
      · change Except.ok g.beacon = _
        rw [hbeacon, hh.wrote.beacon]
        rfl

theorem Hosted.idle {rows : HostRows} {hist : List (Call HostStep Host)} {h : Host}
    {cs : List HostCall} (hh : Hosted s rows hist h cs) {t : HostStep}
    (hi : Idles h (step s t h)) : Hosted s rows (hist ++ [⟨h, t⟩]) (step s t h).state cs := by
  have hactions : (step s t h).actions = [] := by rw [hi.quiet, Outcome.quiet_actions]
  have hsigned : (step s t h).signed = [] := by rw [hi.quiet, Outcome.quiet_signed]
  refine ⟨hi.sm.trans hh.sm, ?_, ?_, hh.verified, hi.dag.trans hh.dag, ?_, ?_, hh.served⟩
  · rw [Trace.emitted_append, Trace.emitted_singleton, Trace.outcome, hactions, List.append_nil,
      hh.actions]
  · rw [Trace.signed_append, Trace.signed_singleton, Trace.outcome, hsigned, List.append_nil,
      hh.signed]
  · rw [hi.rows, hh.vertices]
  · exact ⟨by rw [hi.beacon, hh.wrote.beacon], by rw [hi.rows, hh.wrote.macros],
      by rw [hi.rows, hh.wrote.slash], by rw [hi.rows]; exact hh.wrote.tiers⟩

theorem exists_hosted (s : NodeSetup) (rows : HostRows) (ts : List HostStep) :
    ∃ cs, Hosted s rows (run s rows ts) (after s rows ts) cs := by
  refine Trace.invariant (step s) (fun _ => True)
    (fun hist h => ∃ cs, Hosted s rows hist h cs) (new s rows) ?_ ?_ ts (fun _ _ => trivial)
  · exact ⟨[], rfl, rfl, rfl, by simp [delivered], rfl, rfl, Wrote.nothing rfl rfl rfl rfl,
      by simp⟩
  · rintro hist h t ⟨cs, hh⟩ -
    cases @step_cases s t h with
    | inl hdrive =>
      obtain ⟨ans, req, g, hd, hstep⟩ := hdrive
      exact ⟨_, hh.call hd hstep⟩
    | inr hidle => exact ⟨cs, hh.idle hidle⟩

/-- In whatever order the tasks of the process take their steps, it makes a run of the state
machine. The run is served the DAG of exactly the vertices that were verified so far and the
beacon chained over the QCs stored so far; the actions and signatures are those of the run; the
rows are what the successful writes make of them, and a tier never falls. -/
theorem host_runs_machine (s : NodeSetup) (rows : HostRows) (ts : List HostStep) :
    ∃ cs, Hosted s rows (run s rows ts) (after s rows ts) cs :=
  exists_hosted s rows ts

end Host
end LuaDag
