import TieredKVCache.Adapter.EngineSessions
import TieredKVCache.DataPath.TransferRuns

/-!
# The pipeline over the upstream engine

A `DataPath` with a `MooncakeTransferBackend` behind it, as one system. `TransferAsync` asks the
backend for the path, the worker submits to it and waits for its future, and the backend, which
the pipeline refers to, outlives the pipeline. A run of the system is a run of the pipeline
together with a session of the engine (`Joined`). That the owner waits for the futures is no
assumption any more: the worker does, and it is joined before the backend is destroyed. So every
accepted request is answered as the engine answers it, with one batch at a time, and at the end
the engine has nothing left (`enginePath_delivers`).
-/

namespace TieredKVCache.DataPath

open Adapter MooncakeTransferBackend Lib

/-- A `DataPath` and its backend. -/
structure EnginePath where
  path : State
  session : Session

/-- After the constructors. -/
def EnginePath.init (b : MooncakeTransferBackend) : EnginePath := ⟨.init, { backend := b }⟩

/-- What the pipeline does in a step, and what the session does. -/
structure EngineLabel where
  path : Option Label
  session : Option SessionLabel

def pathTrace (trace : List EngineLabel) : List Label := trace.filterMap EngineLabel.path

def sessionTrace (trace : List EngineLabel) : List SessionLabel :=
  trace.filterMap EngineLabel.session

/-- A call of `SubmitAsync`. -/
def Begins : SessionLabel → Prop
  | .began _ _ => True
  | _ => False

/-- A submission takes the number of its call. -/
inductive EnginePathStep (capacity : Nat) (s : EnginePath) : EngineLabel → EnginePath → Prop
  | path {label : Label} {path : State} (hstep : Step capacity s.path label path)
      (hlocal : label.Local fun request => s.session.backend.selectPath request) :
      EnginePathStep capacity s ⟨some label, none⟩ { s with path }
  | submit {item : PendingItem} {path : State} {session : Session}
      (hstep : Step capacity s.path (.submit item) path)
      (hbegin : SessionStep s.session (.began item.call item.request) session) :
      EnginePathStep capacity s
        ⟨some (.submit item), some (.began item.call item.request)⟩ ⟨path, session⟩
  /-- The worker waits for its future. -/
  | answer {item : PendingItem} {result : Result TransferReceipt} {path : State} {task : Task}
      (hstep : Step capacity s.path (.answer item result) path) (htask : task ∈ s.session.tasks)
      (hid : task.id = item.call) (hready : task.stage = .returned result) :
      EnginePathStep capacity s ⟨some (.answer item result), none⟩ { s with path }
  | session {label : SessionLabel} {session : Session}
      (hstep : SessionStep s.session label session) (hbegins : ¬ Begins label)
      (hdestruct : label = .destructing → s.path.destructor = .finished) :
      EnginePathStep capacity s ⟨none, some label⟩ { s with session }

/-! ## What the steps do -/

section

variable {capacity : Nat} {p p' : State} {label : Label}

theorem Step.finished (h : Step capacity p label p') (hfinished : p.destructor = .finished) :
    p'.destructor = .finished := by
  cases h with
  | shutdown hdestructor | notifyAll hdestructor | join hdestructor | finish hdestructor =>
    cases hfinished.symm.trans hdestructor
  | _ => exact hfinished

end

/-- The request of a task, as the pipeline has it. -/
def taskItem (task : Task) : PendingItem := ⟨task.id, task.request⟩

/-! ## The components of a run -/

/-- A run of the system, as runs of its components. -/
structure Joined (requested : Nat) (b : MooncakeTransferBackend) (trace : List EngineLabel)
    (s : EnginePath) : Prop where
  path : Run (Step (queueCapacity requested)) .init (pathTrace trace) s.path
  session : Run WaitedStep { backend := b } (sessionTrace trace) s.session
  outlives : s.session.lifetime ≠ .alive → s.path.destructor = .finished
  tasks : s.session.tasks.map taskItem = shown Label.submitted (pathTrace trace)
  running : ∀ task ∈ s.session.tasks, task.stage.isReturned = false →
    s.path.worker = .submitted (taskItem task)
  answered : ∀ pair ∈ shown Label.answered (pathTrace trace),
    ∃ task ∈ s.session.tasks, taskItem task = pair.1 ∧ task.stage = .returned pair.2
  routed : ∀ item ∈ shown Label.accepted (pathTrace trace),
    item.request.preferred = b.selectPath item.request

section

variable {requested : Nat} {b : MooncakeTransferBackend} {trace : List EngineLabel}
  {s s' : EnginePath} {label : EngineLabel}

theorem joined_init (requested : Nat) (b : MooncakeTransferBackend) :
    Joined requested b [] (.init b) where
  path := .nil
  session := .nil
  outlives hne := absurd rfl hne
  tasks := rfl
  running _ htask := by cases htask
  answered _ hpair := by cases hpair
  routed _ hitem := by cases hitem

/-- The backend selects paths as when it was created. -/
theorem selectPath_of_run {strace : List SessionLabel} {session : Session}
    (h : Run WaitedStep { backend := b } strace session) (request : TransferRequest) :
    session.backend.selectPath request = b.selectPath request := by
  have hrdma : session.backend.rdmaInstalled = b.rdmaInstalled :=
    h.invariant (P := fun _ session => session.backend.rdmaInstalled = b.rdmaInstalled) rfl
      fun ih hstep => hstep.1.rdmaInstalled.trans ih
  rw [selectPath, selectPath, hrdma]

theorem Joined.tasksKept (h : Joined requested b trace s) :
    TasksKept { backend := b } (sessionTrace trace) s.session :=
  h.session.invariant (tasksKept_start b) TasksKept.step

theorem Joined.wired_and_tracked (h : Joined requested b trace s) :
    Wired (queueCapacity requested) s.path ∧ Tracked (pathTrace trace) s.path :=
  DataPath.wired_and_tracked requested h.path

/-- The tasks of one number are one task. -/
theorem Joined.task_eq (h : Joined requested b trace s) {task task' : Task}
    (htask : task ∈ s.session.tasks) (htask' : task' ∈ s.session.tasks)
    (hid : task.id = task'.id) : task = task' :=
  List.inj_on_of_nodup_map h.tasksKept.ids htask htask' hid

/-- The worker has waited for every future when it is joined. -/
theorem Joined.settled (h : Joined requested b trace s)
    (hended : s.session.lifetime ≠ .alive) : s.session.Settled := by
  intro task htask
  cases hrunning : task.stage.isReturned with
  | true => rfl
  | false =>
    have hexited := h.wired_and_tracked.1.joined (.inr (h.outlives hended))
    cases (h.running task htask hrunning).symm.trans hexited

theorem shown_pathTrace_snoc {α : Type} (f : Label → Option α) (trace : List EngineLabel)
    (label : EngineLabel) : shown f (pathTrace (trace ++ [label])) =
      shown f (pathTrace trace) ++ (label.path.bind f).toList :=
  shown_filterMap_concat f EngineLabel.path trace label

theorem Joined.step_path (h : Joined requested b trace s) {label : Label} {path : State}
    (hstep : Step (queueCapacity requested) s.path label path)
    (hlocal : label.Local fun request => s.session.backend.selectPath request) :
    Joined requested b (trace ++ [⟨some label, none⟩]) { s with path } := by
  obtain ⟨hsubmitted, hanswered⟩ := hlocal.shown
  have hshown {α : Type} {f : Label → Option α} (hf : f label = none) :
      shown f (pathTrace (trace ++ [⟨some label, none⟩])) = shown f (pathTrace trace) := by
    rw [shown_pathTrace_snoc, Option.bind_some, hf, Option.toList_none, List.append_nil]
  refine ⟨?_, ?_, fun hended => hstep.finished (h.outlives hended), ?_, ?_, ?_, ?_⟩
  · rw [pathTrace, filterMap_concat]
    exact h.path.moves hstep
  · rw [sessionTrace, filterMap_concat]
    exact h.session.moves rfl
  · rw [hshown hsubmitted]
    exact h.tasks
  · exact fun task htask hrunning => hstep.waits (h.running task htask hrunning) hanswered
  · rw [hshown hanswered]
    exact h.answered
  · rw [shown_pathTrace_snoc]
    refine List.forall_mem_append.mpr ⟨h.routed, fun item hitem => ?_⟩
    cases label with
    | accept item' =>
      obtain rfl := List.mem_singleton.mp hitem
      exact hlocal.trans (selectPath_of_run h.session _)
    | _ => cases hitem

theorem Joined.step_submit (h : Joined requested b trace s) {item : PendingItem} {path : State}
    {session : Session} (hstep : Step (queueCapacity requested) s.path (.submit item) path)
    (hbegin : SessionStep s.session (.began item.call item.request) session) :
    Joined requested b
      (trace ++ [⟨some (.submit item), some (.began item.call item.request)⟩])
      ⟨path, session⟩ := by
  have hsession : WaitedStep s.session (.began item.call item.request) session := by
    refine ⟨hbegin, fun hlifetime => ?_⟩
    exact h.settled (by simp [hlifetime])
  have hsteps := hstep
  cases hbegin with
  | task htasks htask => cases htask
  | begin _ _ halive hnew =>
    cases hstep with
    | submit hworker =>
      refine ⟨?_, ?_, fun hended => absurd halive hended, ?_, ?_, ?_, ?_⟩
      · rw [pathTrace, filterMap_concat]
        exact h.path.moves hsteps
      · rw [sessionTrace, filterMap_concat]
        exact h.session.moves hsession
      · rw [shown_pathTrace_snoc, List.map_append, h.tasks]
        rfl
      · refine List.forall_mem_append.mpr ⟨fun task htask hrunning => ?_, ?_⟩
        · cases hworker.symm.trans (h.running task htask hrunning)
        · exact List.forall_mem_singleton.mpr fun _ => rfl
      · rw [shown_pathTrace_snoc]
        refine List.forall_mem_append.mpr ⟨fun pair hpair => ?_, List.forall_mem_nil _⟩
        obtain ⟨task, htask, hpair⟩ := h.answered pair hpair
        exact ⟨task, List.mem_append_left _ htask, hpair⟩
      · rw [shown_pathTrace_snoc]
        exact List.forall_mem_append.mpr ⟨h.routed, List.forall_mem_nil _⟩

theorem Joined.step_answer (h : Joined requested b trace s) {item : PendingItem}
    {result : Result TransferReceipt} {path : State} {task : Task}
    (hstep : Step (queueCapacity requested) s.path (.answer item result) path)
    (htask : task ∈ s.session.tasks) (hid : task.id = item.call)
    (hready : task.stage = .returned result) :
    Joined requested b (trace ++ [⟨some (.answer item result), none⟩]) { s with path } := by
  have hsteps := hstep
  cases hstep with
  | answer _ hworker =>
    -- the worker had submitted this item, and its task is the one with its number
    have hitem : taskItem task = item := by
      have hsubmitted : item ∈ s.session.tasks.map taskItem := by
        rw [h.tasks, h.wired_and_tracked.2.submitted, hworker]
        exact List.mem_append_right _ (List.mem_singleton_self item)
      obtain ⟨task', htask', hitem⟩ := List.mem_map.mp hsubmitted
      rw [h.task_eq htask htask' (hid.trans (congrArg PendingItem.call hitem).symm), hitem]
    refine ⟨?_, ?_, fun hended => hsteps.finished (h.outlives hended), ?_, ?_, ?_, ?_⟩
    · rw [pathTrace, filterMap_concat]
      exact h.path.moves hsteps
    · rw [sessionTrace, filterMap_concat]
      exact h.session.moves rfl
    · rw [shown_pathTrace_snoc]
      exact h.tasks.trans (List.append_nil _).symm
    · intro task' htask' hrunning
      have hwaited := (h.running task' htask' hrunning).symm.trans hworker
      have hcall : task'.id = item.call := congrArg PendingItem.call (Worker.submitted.inj hwaited)
      rw [h.task_eq htask' htask (hcall.trans hid.symm), hready] at hrunning
      cases hrunning
    · rw [shown_pathTrace_snoc]
      exact List.forall_mem_append.mpr
        ⟨h.answered, List.forall_mem_singleton.mpr ⟨task, htask, hitem, hready⟩⟩
    · rw [shown_pathTrace_snoc]
      exact List.forall_mem_append.mpr ⟨h.routed, List.forall_mem_nil _⟩

theorem Joined.step_session (h : Joined requested b trace s) {label : SessionLabel}
    {session : Session} (hstep : SessionStep s.session label session) (hbegins : ¬ Begins label)
    (hdestruct : label = .destructing → s.path.destructor = .finished) :
    Joined requested b (trace ++ [⟨none, some label⟩]) { s with session } := by
  have htrace : pathTrace (trace ++ [⟨none, some label⟩]) = pathTrace trace := by
    rw [pathTrace, filterMap_concat]
    exact List.append_nil _
  have hkept : session.tasks.map taskItem = s.session.tasks.map taskItem ∧
      (∀ task ∈ session.tasks, task.stage.isReturned = false →
        s.path.worker = .submitted (taskItem task)) ∧
      ∀ task ∈ s.session.tasks, task.stage.isReturned = true → task ∈ session.tasks := by
    rcases hstep.tasks_cases with htasks | ⟨id, request, rfl, -⟩ |
      ⟨task, before, after, stage, htasks, htask, htasks'⟩
    · rw [htasks]
      exact ⟨rfl, h.running, fun task htask _ => htask⟩
    · exact absurd trivial hbegins
    · have hrunning := h.running
      have hstepped := htask.running
      rw [htasks] at hrunning
      rw [htasks, htasks']
      refine ⟨by simp [taskItem], ?_, ?_⟩
      · simp only [List.mem_append, List.mem_cons] at hrunning ⊢
        rintro task' (hbefore | rfl | hafter) hrunning'
        · exact hrunning task' (.inl hbefore) hrunning'
        · exact hrunning task (.inr (.inl rfl)) hstepped
        · exact hrunning task' (.inr (.inr hafter)) hrunning'
      · simp only [List.mem_append, List.mem_cons]
        rintro task' (hbefore | rfl | hafter) hreturned
        · exact .inl hbefore
        · cases hstepped.symm.trans hreturned
        · exact .inr (.inr hafter)
  obtain ⟨hitems, hrunning, hreturned⟩ := hkept
  refine ⟨htrace ▸ h.path, ?_, ?_, ?_, hrunning, ?_, htrace ▸ h.routed⟩
  · rw [sessionTrace, filterMap_concat]
    refine h.session.moves ⟨hstep, fun hlifetime => h.settled ?_⟩
    simp [hlifetime]
  · intro hended
    exact (hstep.destructing_or hended).elim hdestruct h.outlives
  · rw [htrace, hitems]
    exact h.tasks
  · rw [htrace]
    intro pair hpair
    obtain ⟨task, htask, hitem, hready⟩ := h.answered pair hpair
    exact ⟨task, hreturned task htask (by rw [hready]; rfl), hitem, hready⟩

theorem Joined.step (h : Joined requested b trace s)
    (hstep : EnginePathStep (queueCapacity requested) s label s') :
    Joined requested b (trace ++ [label]) s' := by
  cases hstep with
  | path hstep hlocal => exact h.step_path hstep hlocal
  | submit hstep hbegin => exact h.step_submit hstep hbegin
  | answer hstep htask hid hready => exact h.step_answer hstep htask hid hready
  | session hstep hbegins hdestruct => exact h.step_session hstep hbegins hdestruct

end

/-! ## Delivery -/

/-- A step of the pipeline itself or of a task. -/
def EngineLabel.Internal : EngineLabel → Prop
  | ⟨some label, _⟩ => label.Internal
  | ⟨none, some label⟩ => ∃ task, label = .timedOut task ∨ (label.callOf task).isSome
  | ⟨none, none⟩ => False

/-- What the pipeline owes to its clients and to an engine that the calls `opening` have opened for
the backend `b`. -/
structure EngineDelivers (opening : List EngineEvent) (b : MooncakeTransferBackend)
    (requested : Nat) (trace : List EngineLabel) (s : EnginePath) : Prop where
  path : Delivers (queueCapacity requested) (pathTrace trace) s.path
  session : SessionSound opening { backend := b } (sessionTrace trace) s.session
  oneBatch : (batchesOf s.session.tasks).card ≤ 1
  /-- An answer is that of `SubmitAsync`, for what the engine has answered to its own calls. -/
  answered : ∀ pair ∈ shown Label.answered (pathTrace trace), ∃ earlier later s₀,
    sessionTrace trace = earlier ++ .began pair.1.call pair.1.request :: later ∧
      Run WaitedStep { backend := b } earlier s₀ ∧
      s₀.backend.submitAsync pair.1.request (answersOf pair.1.call (sessionTrace trace)) =
        (callsOf pair.1.call (sessionTrace trace), pair.2)
  /-- A receipt means that the engine has reported the transfer as completed, on the path that
  `TransferAsync` had selected. -/
  receipts : ∀ item receipt, (item, .ok receipt) ∈ shown Label.answered (pathTrace trace) →
    ∃ status, (0, status) ∈ (answersOf item.call (sessionTrace trace)).polls ∧
      status.status = statusCompleted ∧
      receipt = ⟨item.request.key, item.request.preferred, status.transferredBytes⟩
  /-- No promise is left open for want of a step. -/
  enabled : s.path.pending ≠ [] → ∃ label s',
    EnginePathStep (queueCapacity requested) s label s' ∧ label.Internal
  /-- The backend is destroyed after all that was accepted has been transferred. -/
  destroyed : s.session.lifetime = .destroyed → s.path.pending = [] ∧
    shown Label.submitted (pathTrace trace) = shown Label.accepted (pathTrace trace)

section

variable {requested : Nat} {b : MooncakeTransferBackend} {trace : List EngineLabel}
  {s : EnginePath}

theorem Joined.oneBatch (h : Joined requested b trace s) :
    (batchesOf s.session.tasks).card ≤ 1 := by
  by_cases hsettled : s.session.Settled
  · rw [batchesOf_settled hsettled]
    exact Nat.zero_le 1
  · obtain ⟨task, htask, hrunning⟩ : ∃ task ∈ s.session.tasks, ¬ task.stage.isReturned = true := by
      simpa [Session.Settled] using hsettled
    obtain ⟨before, after, htasks⟩ := List.append_of_mem htask
    have hrest : ∀ other ∈ before ++ after, other.stage.isReturned = true := by
      have hids := h.tasksKept.ids
      rw [htasks, List.map_append, List.map_cons, List.nodup_middle, List.nodup_cons,
        ← List.map_append] at hids
      intro other hother
      by_contra hrunning'
      have hmem : other ∈ s.session.tasks := by
        rw [htasks]
        rcases List.mem_append.mp hother with hbefore | hafter
        · exact List.mem_append_left _ hbefore
        · exact List.mem_append_right _ (List.mem_cons_of_mem _ hafter)
      have hsame := (h.running task htask (Bool.eq_false_iff.mpr hrunning)).symm.trans
        (h.running other hmem (Bool.eq_false_iff.mpr hrunning'))
      have hid : task.id = other.id := congrArg PendingItem.call (Worker.submitted.inj hsame)
      exact hids.1 (hid ▸ List.mem_map_of_mem hother)
    rw [htasks, batchesOf_split, batchesOf_settled hrest, add_zero]
    exact task.stage.card_batches_le

/-- The future that an answer comes from. -/
theorem Joined.answer_spec (h : Joined requested b trace s)
    {pair : PendingItem × Result TransferReceipt}
    (hpair : pair ∈ shown Label.answered (pathTrace trace)) : ∃ earlier later s₀,
      sessionTrace trace = earlier ++ .began pair.1.call pair.1.request :: later ∧
        Run WaitedStep { backend := b } earlier s₀ ∧
        s₀.backend.submitAsync pair.1.request (answersOf pair.1.call (sessionTrace trace)) =
          (callsOf pair.1.call (sessionTrace trace), pair.2) := by
  obtain ⟨task, htask, hitem, hready⟩ := h.answered pair hpair
  obtain ⟨earlier, later, s₀, hbegun⟩ := h.tasksKept.begun task htask
  have hprogress := hbegun.progress
  rw [hready] at hprogress
  rw [← hitem]
  cases hprogress with
  | returned hresult => exact ⟨earlier, later, s₀, hbegun.trace_eq, hbegun.run, hresult⟩

theorem Joined.receipt (h : Joined requested b trace s) {item : PendingItem}
    {receipt : TransferReceipt}
    (hpair : (item, .ok receipt) ∈ shown Label.answered (pathTrace trace)) :
    ∃ status, (0, status) ∈ (answersOf item.call (sessionTrace trace)).polls ∧
      status.status = statusCompleted ∧
      receipt = ⟨item.request.key, item.request.preferred, status.transferredBytes⟩ := by
  obtain ⟨earlier, later, s₀, -, hrun, hresult⟩ := h.answer_spec hpair
  obtain ⟨status, hmem, hstatus, hreceipt⟩ := receipt_of_submitAsync (congrArg Prod.snd hresult)
  refine ⟨status, hmem, hstatus, hreceipt.trans ?_⟩
  have haccepted : item ∈ shown Label.accepted (pathTrace trace) := by
    have htracked := h.wired_and_tracked.2
    refine htracked.submitted_prefix.subset ?_
    rw [htracked.submitted]
    exact List.mem_append_left _ (List.mem_map_of_mem hpair)
  rw [h.routed item haccepted, selectPath_of_run hrun]

/-- A task goes on by itself. -/
theorem task_enabled {task : Task}
    (htask : task ∈ s.session.tasks) (hrunning : task.stage.isReturned = false) :
    ∃ label s', EnginePathStep (queueCapacity requested) s label s' ∧ label.Internal := by
  obtain ⟨label, stage, hstep⟩ := exists_taskStep s.session.backend hrunning
  obtain ⟨before, after, htasks⟩ := List.append_of_mem htask
  refine ⟨⟨none, some label⟩, _, .session (.task htasks hstep) ?_ ?_, task.id, ?_⟩
  · cases hstep <;> exact id
  · rintro rfl
    cases hstep
  · cases hstep with
    | timeout => exact .inl rfl
    | _ => exact .inr (by simp [SessionLabel.callOf])

theorem Joined.enabled (h : Joined requested b trace s) (hpending : s.path.pending ≠ []) :
    ∃ label s', EnginePathStep (queueCapacity requested) s label s' ∧ label.Internal := by
  obtain ⟨hwired, htracked⟩ := h.wired_and_tracked
  have hstarted : s.path.destructor ≠ .finished := by
    intro hfinished
    exact hpending ((htracked.delivers hwired).executed hfinished).1
  have halive : s.session.lifetime = .alive := by
    by_contra hended
    exact hstarted (h.outlives hended)
  obtain ⟨label, path, hstep, hinternal⟩ := hwired.enabled (.inl hpending)
  have hsteps := hstep
  cases hstep with
  | @submit item hworker =>
    have hnew : item.call ∉ s.session.tasks.map Task.id := by
      have hcalls := htracked.called_nodup.sublist (accepted_sublist _)
      rw [htracked.accepted, hworker, List.map_append, List.map_append, List.append_assoc,
        ← h.tasks, List.map_map] at hcalls
      exact fun hmem => (List.disjoint_of_nodup_append hcalls) hmem (by simp)
    exact ⟨_, _, .submit hsteps (.begin item.call item.request halive hnew), trivial⟩
  | @answer item result hworker =>
    have hsubmitted : item ∈ s.session.tasks.map taskItem := by
      rw [h.tasks, htracked.submitted, hworker]
      exact List.mem_append_right _ (List.mem_singleton_self item)
    obtain ⟨task, htask, hitem⟩ := List.mem_map.mp hsubmitted
    cases hready : task.stage with
    | returned result =>
      exact ⟨_, _, .answer (.answer result hworker) htask (congrArg PendingItem.call hitem) hready,
        trivial⟩
    | _ => exact task_enabled htask (by rw [hready]; rfl)
  | accept => cases hinternal
  | _ => exact ⟨_, _, .path hsteps trivial, hinternal⟩

end

/-- **Delivery over the engine.** Every interleaving of the clients, the worker, the tasks of the
backend and the two destructors answers the accepted requests as the engine does, and keeps to the
interface of the engine. -/
theorem enginePath_delivers (config : MooncakeBackendConfig) (answers : CreateAnswers)
    (requested : Nat) (b : MooncakeTransferBackend) (hcreate : (create config answers).2 = .ok b)
    (trace : List EngineLabel) (s : EnginePath)
    (h : Run (EnginePathStep (queueCapacity requested)) (.init b) trace s) :
    EngineDelivers (create config answers).1 b requested trace s := by
  have hopened : engineAfter (create config answers).1 = some { phase := .opened b.segment } := by
    rcases create_spec config answers with ⟨b', hok, -, hopened⟩ | ⟨⟨error, herror⟩, -⟩
    · cases hcreate.symm.trans hok
      exact hopened
    · cases hcreate.symm.trans herror
  have hjoined : Joined requested b trace s := h.invariant (joined_init requested b) Joined.step
  obtain ⟨hwired, htracked⟩ := hjoined.wired_and_tracked
  have hdelivers := htracked.delivers hwired
  refine ⟨hdelivers, sessionSound_of_run hjoined.session hopened, hjoined.oneBatch,
    fun pair hpair => hjoined.answer_spec hpair, fun item receipt hpair => hjoined.receipt hpair,
    hjoined.enabled, fun hdestroyed => hdelivers.executed (hjoined.outlives ?_)⟩
  simp [hdestroyed]

/-- A pipeline that has accepted one request. -/
def delivering (worker : Worker) : State where
  worker := worker
  notifies := 1
  calls := 1

theorem delivering_task {stage stage' : TaskStage} {label : SessionLabel}
    (hbegins : ¬ Begins label) (hdestruct : label ≠ .destructing)
    (h : SessionStep (transferring stage) label (transferring stage')) :
    EnginePathStep (queueCapacity 1) ⟨delivering (.submitted ⟨0, selfTransfer⟩), transferring stage⟩
      ⟨none, some label⟩ ⟨delivering (.submitted ⟨0, selfTransfer⟩), transferring stage'⟩ :=
  .session h hbegins fun heq => absurd heq hdestruct

/-- A buffer is registered and sent to itself. -/
theorem run_delivering : ∃ trace, Run (EnginePathStep (queueCapacity 1)) (.init tcpBackend) trace
    ⟨delivering .locking, transferring (.returned transferred)⟩ := by
  have hregistered : EnginePathStep (queueCapacity 1) (.init tcpBackend) _
      ⟨.init, { backend := tcpBackend, registering := [(4096, 8, false)] }⟩ :=
    .session (.register 4096 8 false 0 rfl) id fun heq => by cases heq
  have hrecorded : EnginePathStep (queueCapacity 1)
      ⟨.init, { backend := tcpBackend, registering := [(4096, 8, false)] }⟩ _
      ⟨.init, { backend := (tcpBackend.registerBuffer 0 4096 8 false).2 }⟩ :=
    .session (@SessionStep.record _ _ _ _ [] [] rfl) id fun heq => by cases heq
  have haccepted : EnginePathStep (queueCapacity 1)
      ⟨.init, { backend := (tcpBackend.registerBuffer 0 4096 8 false).2 }⟩ _
      ⟨{ queue := [⟨0, selfTransfer⟩], notifies := 1, calls := 1 },
        { backend := (tcpBackend.registerBuffer 0 4096 8 false).2 }⟩ :=
    .path (.accept selfTransfer .tcp (by decide) (by decide)) rfl
  have hpopped : EnginePathStep (queueCapacity 1)
      ⟨{ queue := [⟨0, selfTransfer⟩], notifies := 1, calls := 1 },
        { backend := (tcpBackend.registerBuffer 0 4096 8 false).2 }⟩ _
      ⟨delivering (.popped ⟨0, selfTransfer⟩),
        { backend := (tcpBackend.registerBuffer 0 4096 8 false).2 }⟩ :=
    .path (.pop rfl rfl) trivial
  have hsubmitted : EnginePathStep (queueCapacity 1)
      ⟨delivering (.popped ⟨0, selfTransfer⟩),
        { backend := (tcpBackend.registerBuffer 0 4096 8 false).2 }⟩ _
      ⟨delivering (.submitted ⟨0, selfTransfer⟩), transferring .allocating⟩ :=
    .submit (.submit rfl) (.begin 0 selfTransfer rfl List.not_mem_nil)
  have hallocated : SessionStep (transferring .allocating) _ (transferring (.submitting 7)) :=
    (transferring_task (.allocate 7 rfl)).1
  have hwritten : SessionStep (transferring (.submitting 7)) _ (transferring (.polling 7)) :=
    (transferring_task (.submit 0 rfl)).1
  have hpolled : SessionStep (transferring (.polling 7)) _
      (transferring (.freeing 7 transferred)) :=
    (transferring_task (.poll 0 ⟨statusCompleted, 8⟩ rfl)).1
  have hfreed : SessionStep (transferring (.freeing 7 transferred)) _
      (transferring (.returned transferred)) :=
    (transferring_task (.free rfl)).1
  have hanswered : EnginePathStep (queueCapacity 1)
      ⟨delivering (.submitted ⟨0, selfTransfer⟩), transferring (.returned transferred)⟩ _
      ⟨delivering (.answered ⟨0, selfTransfer⟩ transferred),
        transferring (.returned transferred)⟩ :=
    .answer (.answer transferred rfl) List.mem_cons_self rfl rfl
  have hfulfilled : EnginePathStep (queueCapacity 1)
      ⟨delivering (.answered ⟨0, selfTransfer⟩ transferred),
        transferring (.returned transferred)⟩ _
      ⟨delivering .locking, transferring (.returned transferred)⟩ :=
    .path (.fulfil rfl) trivial
  exact ⟨_, .snoc (.snoc (.snoc (.snoc (.snoc (.snoc (.snoc (.snoc (.snoc (.snoc (.snoc .nil
    hregistered) hrecorded) haccepted) hpopped) hsubmitted) (delivering_task id (by simp) hallocated))
    (delivering_task id (by simp) hwritten)) (delivering_task id (by simp) hpolled))
    (delivering_task id (by simp) hfreed)) hanswered) hfulfilled⟩

theorem enginePath_delivers_oneTransfer : ∃ trace s, s.path.calls = 1 ∧ s.path.pending = [] ∧
    EngineDelivers (create tcpConfig tcpAnswers).1 tcpBackend 1 trace s := by
  obtain ⟨trace, hrun⟩ := run_delivering
  exact ⟨trace, _, rfl, rfl, enginePath_delivers tcpConfig tcpAnswers 1 tcpBackend rfl trace _ hrun⟩

end TieredKVCache.DataPath
