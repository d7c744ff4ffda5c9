import Mathlib.Data.Multiset.AddSub
import TieredKVCache.Adapter.Registrations

/-!
# Sessions of the upstream engine

`EngineState` says how a client may use the C interface of the engine: it creates the engine once,
opens a segment, transfers to this segment alone and on batches that it has been given and has not
freed, and destroys the engine after it has closed the segment, with no batch left. A backend goes
through such a session: `Create`, the calls of the clients and the tasks of `SubmitAsync` in any
order of their steps, and the destructor. Every interleaving keeps to the interface, provided that
the owner waits for the futures before the destructor closes the segment, and each future holds
what `submitAsync` says for the answers that its own calls got (`session_sound`).
-/

namespace TieredKVCache.Adapter

open Lib

/-! ## The interface -/

/-- A call of the engine with its answer; the calls of a transfer name the task that makes them. -/
inductive EngineEvent where
  | createTransferEngine (metadataConnString localServerName ipOrHostName : String)
      (rpcPort : UInt64) (created : Bool)
  | installTransport (proto : String) (installed : Bool)
  | openSegment (segmentName : String) (segment : Int32)
  | registerLocalMemory (addr len : Nat) (location : String) (answer : Int)
  | unregisterLocalMemory (addr : Nat) (answer : Int)
  | allocateBatchID (task : Nat) (batch : UInt64)
  | submitTransfer (task : Nat) (batch : UInt64) (entry : EngineRequest) (answer : Int)
  | getTransferStatus (task : Nat) (batch : UInt64) (code : Int) (status : EngineStatus)
  | freeBatchID (task : Nat) (batch : UInt64)
  | closeSegment (segment : Int32)
  | destroyTransferEngine
deriving DecidableEq

inductive EnginePhase where
  | absent
  /-- Created, and no segment is open. -/
  | bare
  | opened (segment : Int32)
  | closed
  | destroyed
deriving DecidableEq

/-- The engine, as its client has to know it. -/
structure EngineState where
  phase : EnginePhase := .absent
  /-- The batches that are not freed. -/
  batches : Multiset UInt64 := 0

def EnginePhase.isOpened : EnginePhase → Bool
  | .opened _ => true
  | _ => false

/-- The state after a call, unless the client may not make it. -/
def EngineState.next (e : EngineState) : EngineEvent → Option EngineState
  | .createTransferEngine _ _ _ _ created =>
    if e.phase = .absent then some { e with phase := if created then .bare else .absent } else none
  | .installTransport _ _ => if e.phase = .bare then some e else none
  | .openSegment _ segment =>
    if e.phase = .bare then
      some { e with phase := if segment < 0 then .bare else .opened segment }
    else none
  | .registerLocalMemory _ _ _ _ => if e.phase.isOpened then some e else none
  | .unregisterLocalMemory _ _ => if e.phase.isOpened then some e else none
  | .allocateBatchID _ batch =>
    if e.phase.isOpened then
      some { e with batches := if batch = invalidBatch then e.batches else batch ::ₘ e.batches }
    else none
  | .submitTransfer _ batch entry _ =>
    if e.phase = .opened entry.targetId ∧ batch ∈ e.batches then some e else none
  | .getTransferStatus _ batch _ _ =>
    if e.phase.isOpened ∧ batch ∈ e.batches then some e else none
  | .freeBatchID _ batch =>
    if e.phase.isOpened ∧ batch ∈ e.batches then
      some { e with batches := e.batches.erase batch }
    else none
  | .closeSegment segment =>
    if e.phase = .opened segment ∧ e.batches = 0 then some { e with phase := .closed } else none
  | .destroyTransferEngine =>
    if e.phase = .bare ∨ e.phase = .closed then some { e with phase := .destroyed } else none

/-- The state after some calls, unless the client may not make one of them. -/
def engineAfter (events : List EngineEvent) : Option EngineState :=
  events.foldlM EngineState.next {}

theorem engineAfter_append (events events' : List EngineEvent) :
    engineAfter (events ++ events') =
      (engineAfter events).bind fun e => events'.foldlM EngineState.next e := by
  rw [engineAfter, List.foldlM_append]
  rfl

/-! ## Create -/

structure MooncakeBackendConfig where
  metadataConnString : String
  localServerName : String
  ipOrHostName : String
  rpcPort : UInt64 := 12345
  tryRdma : Bool := true
  gpuLocation : String := "cuda:0"
  remoteSegmentName : String := ""

/-- What the engine answers to `Create`. -/
structure CreateAnswers where
  created : Bool
  rdma : Bool
  tcp : Bool
  segment : Int32

namespace MooncakeTransferBackend

/-- The first call of `Create`. -/
def creation (config : MooncakeBackendConfig) (created : Bool) : EngineEvent :=
  .createTransferEngine config.metadataConnString config.localServerName config.ipOrHostName
    config.rpcPort created

/-- The calls of the engine, and the backend. -/
def create (config : MooncakeBackendConfig) (answers : CreateAnswers) :
    List EngineEvent × Result MooncakeTransferBackend :=
  if !answers.created then
    ([creation config false], .ofStatus (.make .transferFailed
      "createTransferEngine 失败：无法初始化上游引擎"))
  else
    let calls := creation config true ::
      if config.tryRdma then [.installTransport "rdma" answers.rdma] else []
    let rdmaInstalled := config.tryRdma && answers.rdma
    if !rdmaInstalled && !answers.tcp then
      (calls ++ [.installTransport "tcp" false, .destroyTransferEngine],
        .ofStatus (.make .transferFailed "installTransport 失败：RDMA 与 TCP 均不可用"))
    else
      let calls := calls ++ if rdmaInstalled then [] else [.installTransport "tcp" true]
      let segmentName :=
        if config.remoteSegmentName.isEmpty then config.localServerName
        else config.remoteSegmentName
      let calls := calls ++ [.openSegment segmentName answers.segment]
      if answers.segment < 0 then
        (calls ++ [.destroyTransferEngine],
          .ofStatus (.make .transferFailed ("openSegment 失败：segment=" ++ segmentName)))
      else (calls, .ok (created config.gpuLocation rdmaInstalled answers.segment))

/-- `Create` returns a backend whose segment is open, or leaves no engine behind. -/
theorem create_spec (config : MooncakeBackendConfig) (answers : CreateAnswers) :
    (∃ b, (create config answers).2 = .ok b ∧ b.liveRegistrations = ∅ ∧
        engineAfter (create config answers).1 = some { phase := .opened b.segment }) ∨
      (∃ error, (create config answers).2 = .error error) ∧
        ∃ phase, engineAfter (create config answers).1 = some { phase } ∧
          (phase = .absent ∨ phase = .destroyed) := by
  have hbare : engineAfter (creation config true ::
      if config.tryRdma then [.installTransport "rdma" answers.rdma] else []) =
        some { phase := .bare } := by
    split <;> rfl
  have htransport (installed : Bool) : engineAfter ((creation config true ::
      if config.tryRdma then [.installTransport "rdma" answers.rdma] else []) ++
        if installed then [] else [.installTransport "tcp" true]) = some { phase := .bare } := by
    rw [engineAfter_append, hbare]
    split <;> rfl
  unfold create
  extract_lets calls rdmaInstalled calls' segmentName calls''
  have hopened : engineAfter calls'' =
      some { phase := if answers.segment < 0 then .bare else .opened answers.segment } := by
    rw [engineAfter_append, htransport]
    rfl
  split
  next => exact .inr ⟨⟨_, rfl⟩, .absent, rfl, .inl rfl⟩
  next =>
    split
    next =>
      refine .inr ⟨⟨_, rfl⟩, .destroyed, ?_, .inr rfl⟩
      rw [engineAfter_append, hbare]
      rfl
    next =>
      split
      next hsegment =>
        rw [if_pos hsegment] at hopened
        refine .inr ⟨⟨_, rfl⟩, .destroyed, ?_, .inr rfl⟩
        rw [engineAfter_append, hopened]
        rfl
      next hsegment =>
        rw [if_neg hsegment] at hopened
        exact .inl ⟨_, rfl, rfl, hopened⟩

/-! ## Tasks -/

/-- A round of the loop over `getTransferStatus`: the loop goes on, or has a result. -/
def pollResult (request : TransferRequest) (path : TransportPath) (code : Int)
    (status : EngineStatus) : Option (Result TransferReceipt) :=
  if code ≠ 0 then some (.ofStatus (.make .transferFailed "getTransferStatus 失败"))
  else if status.status = statusCompleted then
    some (.ok ⟨request.key, path, status.transferredBytes⟩)
  else if status.status = statusFailed ∨ status.status = statusTimeout ∨
      status.status = statusCanceled then
    some (.ofStatus (.make .transferFailed
      ("传输失败：key.hash_id=" ++ toString request.key.hashId ++ " path=" ++ path.name ++
        " upstream_status=" ++ toString status.status)))
  else none

/-- The result at the deadline. -/
def timeoutResult (request : TransferRequest) : Result TransferReceipt :=
  .ofStatus (.make .transferFailed ("传输超时：key.hash_id=" ++ toString request.key.hashId))

theorem pollTransfer_cons (request : TransferRequest) (path : TransportPath) (batch : UInt64)
    (code : Int) (status : EngineStatus) (polls : List (Int × EngineStatus)) :
    pollTransfer request path batch ((code, status) :: polls) =
      match pollResult request path code status with
      | some result => ([.getTransferStatus batch 0, .freeBatchID batch], result)
      | none => (.getTransferStatus batch 0 :: (pollTransfer request path batch polls).1,
          (pollTransfer request path batch polls).2) := by
  rw [pollTransfer, pollResult]
  split
  next => rfl
  next =>
    split
    next => rfl
    next =>
      split
      next => rfl
      next => rfl

/-- Rounds without a result. -/
theorem pollTransfer_append {request : TransferRequest} {path : TransportPath} (batch : UInt64)
    {polls : List (Int × EngineStatus)}
    (hpolls : ∀ poll ∈ polls, pollResult request path poll.1 poll.2 = none)
    (rest : List (Int × EngineStatus)) : pollTransfer request path batch (polls ++ rest) =
      (polls.map (fun _ => .getTransferStatus batch 0) ++ (pollTransfer request path batch rest).1,
        (pollTransfer request path batch rest).2) := by
  induction polls with
  | nil => rfl
  | cons poll polls ih =>
    obtain ⟨code, status⟩ := poll
    obtain ⟨hpoll, hrest⟩ := List.forall_mem_cons.mp hpolls
    rw [List.cons_append, pollTransfer_cons, hpoll, ih hrest]
    rfl

theorem submitAsync_of_live {b : MooncakeTransferBackend} {request : TransferRequest}
    (hlive : request.src.regId ∈ b.liveRegistrations ∧ request.dst.regId ∈ b.liveRegistrations)
    (answers : EngineAnswers) :
    b.submitAsync request answers = b.transfer request (b.selectPath request) answers := by
  rw [submitAsync, if_neg]
  rintro (hdead | hdead)
  · exact hdead hlive.1
  · exact hdead hlive.2

/-- A receipt says what the engine has reported of a completed transfer. -/
theorem receipt_of_pollTransfer {request : TransferRequest} {path : TransportPath}
    {batch : UInt64} {polls : List (Int × EngineStatus)} {receipt : TransferReceipt}
    (h : (pollTransfer request path batch polls).2 = .ok receipt) :
    ∃ status, (0, status) ∈ polls ∧ status.status = statusCompleted ∧
      receipt = ⟨request.key, path, status.transferredBytes⟩ := by
  induction polls with
  | nil => cases h
  | cons poll polls ih =>
    obtain ⟨code, status⟩ := poll
    rw [pollTransfer] at h
    split at h
    next => cases h
    next hcode =>
      cases not_not.mp hcode
      split at h
      next hcompleted =>
        cases h
        exact ⟨status, List.mem_cons_self, hcompleted, rfl⟩
      next =>
        split at h
        next => cases h
        next =>
          obtain ⟨status', hmem, hstatus⟩ := ih h
          exact ⟨status', List.mem_cons_of_mem _ hmem, hstatus⟩

theorem receipt_of_submitAsync {b : MooncakeTransferBackend} {request : TransferRequest}
    {answers : EngineAnswers} {receipt : TransferReceipt}
    (h : (b.submitAsync request answers).2 = .ok receipt) :
    ∃ status, (0, status) ∈ answers.polls ∧ status.status = statusCompleted ∧
      receipt = ⟨request.key, b.selectPath request, status.transferredBytes⟩ := by
  unfold submitAsync transfer at h
  split at h
  next => cases h
  next =>
    split at h
    next => cases h
    next =>
      split at h
      next => cases h
      next => exact receipt_of_pollTransfer h

end MooncakeTransferBackend

open MooncakeTransferBackend

/-- Where the task of a submission is. -/
inductive TaskStage where
  | allocating
  | submitting (batch : UInt64)
  | polling (batch : UInt64)
  /-- About to free the batch; the result is known. -/
  | freeing (batch : UInt64) (result : Result TransferReceipt)
  /-- The future is ready. -/
  | returned (result : Result TransferReceipt)

/-- The batches of the task that are not freed. -/
def TaskStage.batches : TaskStage → Multiset UInt64
  | .allocating => 0
  | .submitting batch | .polling batch | .freeing batch _ => {batch}
  | .returned _ => 0

def TaskStage.isReturned : TaskStage → Bool
  | .returned _ => true
  | _ => false

theorem TaskStage.card_batches_le (stage : TaskStage) : stage.batches.card ≤ 1 := by
  cases stage with
  | allocating => exact Nat.zero_le 1
  | returned result => exact Nat.zero_le 1
  | submitting batch => exact le_of_eq (Multiset.card_singleton batch)
  | polling batch => exact le_of_eq (Multiset.card_singleton batch)
  | freeing batch result => exact le_of_eq (Multiset.card_singleton batch)

structure Task where
  id : Nat
  request : TransferRequest
  path : TransportPath
  stage : TaskStage

/-- What a task has called so far and what it was answered, of a request that the backend `b` was
given. -/
inductive Progress (b : MooncakeTransferBackend) (request : TransferRequest) :
    TaskStage → List EngineCall → EngineAnswers → Prop
  | allocating (hlive : request.src.regId ∈ b.liveRegistrations ∧
      request.dst.regId ∈ b.liveRegistrations) : Progress b request .allocating [] ⟨0, 0, []⟩
  | submitting {batch : UInt64} (hlive : request.src.regId ∈ b.liveRegistrations ∧
      request.dst.regId ∈ b.liveRegistrations) (hbatch : batch ≠ invalidBatch) :
      Progress b request (.submitting batch) [.allocateBatchID 1] ⟨batch, 0, []⟩
  | polling {batch : UInt64} (polls : List (Int × EngineStatus))
      (hlive : request.src.regId ∈ b.liveRegistrations ∧
        request.dst.regId ∈ b.liveRegistrations) (hbatch : batch ≠ invalidBatch)
      (hpolls : ∀ poll ∈ polls, pollResult request (b.selectPath request) poll.1 poll.2 = none) :
      Progress b request (.polling batch) (.allocateBatchID 1 ::
        .submitTransfer batch [b.entry request] ::
          polls.map fun _ => .getTransferStatus batch 0) ⟨batch, 0, polls⟩
  | freeing {batch : UInt64} {result : Result TransferReceipt} {calls : List EngineCall}
      {answers : EngineAnswers}
      (h : b.submitAsync request answers = (calls ++ [.freeBatchID batch], result)) :
      Progress b request (.freeing batch result) calls answers
  | returned {result : Result TransferReceipt} {calls : List EngineCall} {answers : EngineAnswers}
      (h : b.submitAsync request answers = (calls, result)) :
      Progress b request (.returned result) calls answers

/-- After `allocateBatchID`. -/
def TaskStage.allocated (batch : UInt64) : TaskStage :=
  if batch = invalidBatch then
    .returned (.ofStatus (.make .transferFailed "allocateBatchID 失败"))
  else .submitting batch

/-- After `submitTransfer`. -/
def TaskStage.submitted (request : TransferRequest) (batch : UInt64) (answer : Int) : TaskStage :=
  if answer ≠ 0 then
    .freeing batch (.ofStatus (.make .transferFailed
      ("submitTransfer 失败：key.hash_id=" ++ toString request.key.hashId)))
  else .polling batch

/-- After `getTransferStatus`. -/
def TaskStage.polled (request : TransferRequest) (path : TransportPath) (batch : UInt64)
    (code : Int) (status : EngineStatus) : TaskStage :=
  match pollResult request path code status with
  | some result => .freeing batch result
  | none => .polling batch

section

variable {b : MooncakeTransferBackend} {request : TransferRequest} {calls : List EngineCall}
  {answers : EngineAnswers} {batch : UInt64}

theorem Progress.allocate (h : Progress b request .allocating calls answers) (batch : UInt64) :
    Progress b request (.allocated batch) (calls ++ [.allocateBatchID 1])
      { answers with batch } := by
  cases h with
  | allocating hlive =>
    unfold TaskStage.allocated
    split
    next hinvalid =>
      apply Progress.returned
      rw [submitAsync_of_live hlive, transfer, if_pos hinvalid]
      rfl
    next hbatch => exact .submitting hlive hbatch

theorem Progress.submit (h : Progress b request (.submitting batch) calls answers) (answer : Int) :
    Progress b request (.submitted request batch answer)
      (calls ++ [.submitTransfer batch [b.entry request]]) { answers with submit := answer } := by
  cases h with
  | submitting hlive hbatch =>
    unfold TaskStage.submitted
    split
    next hanswer =>
      apply Progress.freeing
      rw [submitAsync_of_live hlive, transfer, if_neg hbatch, if_pos hanswer]
      rfl
    next hanswer =>
      cases not_not.mp hanswer
      exact .polling [] hlive hbatch (List.forall_mem_nil _)

/-- A transfer up to its last round. -/
theorem submitAsync_polls (hlive : request.src.regId ∈ b.liveRegistrations ∧
    request.dst.regId ∈ b.liveRegistrations) (hbatch : batch ≠ invalidBatch)
    {polls : List (Int × EngineStatus)}
    (hpolls : ∀ poll ∈ polls, pollResult request (b.selectPath request) poll.1 poll.2 = none)
    (rest : List (Int × EngineStatus)) :
    b.submitAsync request ⟨batch, 0, polls ++ rest⟩ =
      ((.allocateBatchID 1 :: .submitTransfer batch [b.entry request] ::
          polls.map fun _ => .getTransferStatus batch 0) ++
          (pollTransfer request (b.selectPath request) batch rest).1,
        (pollTransfer request (b.selectPath request) batch rest).2) := by
  rw [submitAsync_of_live hlive, transfer, if_neg hbatch, if_neg (not_not.mpr rfl),
    pollTransfer_append batch hpolls]
  rfl

theorem Progress.poll (h : Progress b request (.polling batch) calls answers) (code : Int)
    (status : EngineStatus) :
    Progress b request (.polled request (b.selectPath request) batch code status)
      (calls ++ [.getTransferStatus batch 0])
      { answers with polls := answers.polls ++ [(code, status)] } := by
  cases h with
  | polling polls hlive hbatch hpolls =>
    unfold TaskStage.polled
    split
    next result hresult =>
      apply Progress.freeing
      rw [submitAsync_polls hlive hbatch hpolls, pollTransfer_cons, hresult]
      simp
    next hnone =>
      have hmore : ∀ poll ∈ polls ++ [(code, status)],
          pollResult request (b.selectPath request) poll.1 poll.2 = none :=
        List.forall_mem_append.mpr ⟨hpolls, List.forall_mem_singleton.mpr hnone⟩
      have hpolling := Progress.polling _ hlive hbatch hmore
      rwa [List.map_append] at hpolling

theorem Progress.timeout (h : Progress b request (.polling batch) calls answers) :
    Progress b request (.freeing batch (timeoutResult request)) calls answers := by
  cases h with
  | polling polls hlive hbatch hpolls =>
    apply Progress.freeing
    rw [← List.append_nil polls, submitAsync_polls hlive hbatch hpolls, List.append_nil]
    rfl

theorem Progress.free {result : Result TransferReceipt}
    (h : Progress b request (.freeing batch result) calls answers) :
    Progress b request (.returned result) (calls ++ [.freeBatchID batch]) answers := by
  cases h with
  | freeing h => exact .returned h

end

/-! ## Sessions -/

/-- Where the destructor of the backend is. -/
inductive Lifetime where
  | alive
  /-- About to unregister what was registered. -/
  | clearing (addrs : List Nat)
  | closed
  | destroyed
deriving DecidableEq

structure Session where
  backend : MooncakeTransferBackend
  /-- Buffers that the engine has registered and `RegisterBuffer` has not recorded. -/
  registering : List (Nat × Nat × Bool) := []
  /-- Handles that `DeregisterBuffer` has erased and the engine has not unregistered. -/
  erased : List BufferHandle := []
  tasks : List Task := []
  lifetime : Lifetime := .alive

/-- Every future is ready. -/
def Session.Settled (s : Session) : Prop := ∀ task ∈ s.tasks, task.stage.isReturned = true

inductive SessionLabel where
  | engine (event : EngineEvent)
  | recorded (handle : BufferHandle)
  | erased (handle : BufferHandle)
  | began (task : Nat) (request : TransferRequest)
  | timedOut (task : Nat)
  | destructing

/-- The stage in which `SubmitAsync` leaves its task: a request without registered buffers gets
none, and its future is ready. -/
def TaskStage.start (b : MooncakeTransferBackend) (request : TransferRequest) : TaskStage :=
  if request.src.regId ∉ b.liveRegistrations ∨ request.dst.regId ∉ b.liveRegistrations then
    .returned (.ofStatus (.make .addressNotRegistered "SubmitAsync：源或目标缓冲未注册"))
  else .allocating

/-- A step of a task: what it calls, if anything, and where it is then. -/
inductive TaskStep (b : MooncakeTransferBackend) (task : Task) : SessionLabel → TaskStage → Prop
  | allocate (batch : UInt64) (hstage : task.stage = .allocating) :
      TaskStep b task (.engine (.allocateBatchID task.id batch)) (.allocated batch)
  | submit {batch : UInt64} (answer : Int) (hstage : task.stage = .submitting batch) :
      TaskStep b task (.engine (.submitTransfer task.id batch (b.entry task.request) answer))
        (.submitted task.request batch answer)
  | poll {batch : UInt64} (code : Int) (status : EngineStatus)
      (hstage : task.stage = .polling batch) :
      TaskStep b task (.engine (.getTransferStatus task.id batch code status))
        (.polled task.request task.path batch code status)
  | timeout {batch : UInt64} (hstage : task.stage = .polling batch) :
      TaskStep b task (.timedOut task.id) (.freeing batch (timeoutResult task.request))
  | free {batch : UInt64} {result : Result TransferReceipt}
      (hstage : task.stage = .freeing batch result) :
      TaskStep b task (.engine (.freeBatchID task.id batch)) (.returned result)

/-- A step of a client, of a task or of the destructor. No call of the backend begins once the
destructor has begun, and none is in progress then; the tasks go on. -/
inductive SessionStep (s : Session) : SessionLabel → Session → Prop
  | register (addr len : Nat) (onGpu : Bool) (answer : Int) (halive : s.lifetime = .alive) :
      SessionStep s
        (.engine (.registerLocalMemory addr len (s.backend.pathToLocation onGpu) answer))
        { s with registering :=
            if answer = 0 then (addr, len, onGpu) :: s.registering else s.registering }
  | record {addr len : Nat} {onGpu : Bool} {before after : List (Nat × Nat × Bool)}
      (hregistering : s.registering = before ++ (addr, len, onGpu) :: after) :
      SessionStep s (.recorded ⟨addr, len, s.backend.nextRegId, onGpu⟩)
        { s with
          backend := (s.backend.registerBuffer 0 addr len onGpu).2
          registering := before ++ after }
  | erase (handle : BufferHandle) (halive : s.lifetime = .alive)
      (hlive : handle.regId ∈ s.backend.liveRegistrations) :
      SessionStep s (.erased handle)
        { s with
          backend := (s.backend.deregisterBuffer 0 handle).2
          erased := handle :: s.erased }
  | unregister {handle : BufferHandle} {before after : List BufferHandle} (answer : Int)
      (herased : s.erased = before ++ handle :: after) :
      SessionStep s (.engine (.unregisterLocalMemory handle.addr answer))
        { s with erased := before ++ after }
  | begin (id : Nat) (request : TransferRequest) (halive : s.lifetime = .alive)
      (hnew : id ∉ s.tasks.map Task.id) :
      SessionStep s (.began id request)
        { s with tasks := s.tasks ++
            [⟨id, request, s.backend.selectPath request, .start s.backend request⟩] }
  | task {task : Task} {before after : List Task} {label : SessionLabel} {stage : TaskStage}
      (htasks : s.tasks = before ++ task :: after) (hstep : TaskStep s.backend task label stage) :
      SessionStep s label { s with tasks := before ++ { task with stage } :: after }
  | destruct (halive : s.lifetime = .alive) (hregistering : s.registering = [])
      (herased : s.erased = []) :
      SessionStep s .destructing
        { s with backend := s.backend.destroy.2, lifetime := .clearing s.backend.destroy.1 }
  | clear {addr : Nat} {addrs : List Nat} (answer : Int)
      (hlifetime : s.lifetime = .clearing (addr :: addrs)) :
      SessionStep s (.engine (.unregisterLocalMemory addr answer))
        { s with lifetime := .clearing addrs }
  | close (hlifetime : s.lifetime = .clearing []) :
      SessionStep s (.engine (.closeSegment s.backend.segment)) { s with lifetime := .closed }
  | destroy (hlifetime : s.lifetime = .closed) :
      SessionStep s (.engine .destroyTransferEngine) { s with lifetime := .destroyed }

/-- The owner waits for the futures before the destructor closes the segment. -/
def WaitedStep (s : Session) (label : SessionLabel) (s' : Session) : Prop :=
  SessionStep s label s' ∧ (s.lifetime = .clearing [] → s.Settled)

section

variable {s s' : Session} {label : SessionLabel}

/-- What a step does to the tasks. -/
theorem SessionStep.tasks_cases (h : SessionStep s label s') :
    s'.tasks = s.tasks ∨
      (∃ id request, label = .began id request ∧ s'.tasks = s.tasks ++
        [⟨id, request, s.backend.selectPath request, .start s.backend request⟩]) ∨
      ∃ task before after stage, s.tasks = before ++ task :: after ∧
        TaskStep s.backend task label stage ∧
        s'.tasks = before ++ { task with stage } :: after := by
  cases h with
  | begin id request => exact .inr (.inl ⟨id, request, rfl, rfl⟩)
  | task htasks htask => exact .inr (.inr ⟨_, _, _, _, htasks, htask, rfl⟩)
  | _ => exact .inl rfl

/-- The destructor begins with a label of its own. -/
theorem SessionStep.destructing_or (h : SessionStep s label s') (hended : s'.lifetime ≠ .alive) :
    label = .destructing ∨ s.lifetime ≠ .alive := by
  cases h with
  | destruct => exact .inl rfl
  | clear answer hlifetime | close hlifetime | destroy hlifetime =>
    refine .inr fun halive => ?_
    cases halive.symm.trans hlifetime
  | _ => exact .inr hended

/-- A task that has no result yet can go on, whatever the engine answers. -/
theorem exists_taskStep (b : MooncakeTransferBackend) {task : Task}
    (hrunning : task.stage.isReturned = false) : ∃ label stage, TaskStep b task label stage := by
  cases hstage : task.stage with
  | allocating => exact ⟨_, _, .allocate 0 hstage⟩
  | submitting batch => exact ⟨_, _, .submit 0 hstage⟩
  | polling batch => exact ⟨_, _, .timeout hstage⟩
  | freeing batch result => exact ⟨_, _, .free hstage⟩
  | returned result =>
    rw [hstage] at hrunning
    cases hrunning

theorem SessionStep.rdmaInstalled (h : SessionStep s label s') :
    s'.backend.rdmaInstalled = s.backend.rdmaInstalled := by
  cases h with
  | record => rfl
  | erase handle =>
    show (s.backend.deregisterBuffer 0 handle).2.rdmaInstalled = _
    unfold deregisterBuffer
    split
    next => rfl
    next => rfl
  | _ => rfl

end

/-! ## What a trace shows -/

def SessionLabel.event : SessionLabel → Option EngineEvent
  | .engine event => some event
  | _ => none

/-- The call of a task. -/
def SessionLabel.callOf (id : Nat) : SessionLabel → Option EngineCall
  | .engine (.allocateBatchID task _) => if task = id then some (.allocateBatchID 1) else none
  | .engine (.submitTransfer task batch entry _) =>
    if task = id then some (.submitTransfer batch [entry]) else none
  | .engine (.getTransferStatus task batch _ _) =>
    if task = id then some (.getTransferStatus batch 0) else none
  | .engine (.freeBatchID task batch) => if task = id then some (.freeBatchID batch) else none
  | _ => none

/-- The calls of the engine. -/
def engineEvents (trace : List SessionLabel) : List EngineEvent :=
  trace.filterMap SessionLabel.event

/-- The calls of one task. -/
def callsOf (id : Nat) (trace : List SessionLabel) : List EngineCall :=
  trace.filterMap (SessionLabel.callOf id)

/-- What a task has been answered, after a step. -/
def hear (id : Nat) (answers : EngineAnswers) : SessionLabel → EngineAnswers
  | .engine (.allocateBatchID task batch) => if task = id then { answers with batch } else answers
  | .engine (.submitTransfer task _ _ answer) =>
    if task = id then { answers with submit := answer } else answers
  | .engine (.getTransferStatus task _ code status) =>
    if task = id then { answers with polls := answers.polls ++ [(code, status)] } else answers
  | _ => answers

/-- The answers to the calls of one task. -/
def answersOf (id : Nat) (trace : List SessionLabel) : EngineAnswers :=
  trace.foldl (hear id) ⟨0, 0, []⟩

/-- The engine after a step. -/
def EngineState.after (e : EngineState) (label : SessionLabel) : Option EngineState :=
  match label.event with
  | none => some e
  | some event => e.next event

theorem engineAfter_snoc (opening : List EngineEvent) (trace : List SessionLabel)
    (label : SessionLabel) : engineAfter (opening ++ engineEvents (trace ++ [label])) =
      (engineAfter (opening ++ engineEvents trace)).bind fun e => e.after label := by
  rw [engineEvents, filterMap_concat, ← List.append_assoc, engineAfter_append]
  unfold EngineState.after
  cases label.event with
  | none => rfl
  | some event => simp [engineEvents]

theorem callsOf_snoc (id : Nat) (trace : List SessionLabel) (label : SessionLabel) :
    callsOf id (trace ++ [label]) = callsOf id trace ++ (label.callOf id).toList :=
  filterMap_concat (SessionLabel.callOf id) trace label

theorem answersOf_snoc (id : Nat) (trace : List SessionLabel) (label : SessionLabel) :
    answersOf id (trace ++ [label]) = hear id (answersOf id trace) label := by
  rw [answersOf, List.foldl_append]
  rfl

/-- Only a call is answered. -/
theorem hear_of_silent {id : Nat} {label : SessionLabel} (h : label.callOf id = none)
    (answers : EngineAnswers) : hear id answers label = answers := by
  cases label with
  | engine event =>
    cases event with
    | allocateBatchID task batch => exact if_neg fun heq => by simp [SessionLabel.callOf, heq] at h
    | submitTransfer task batch entry answer =>
      exact if_neg fun heq => by simp [SessionLabel.callOf, heq] at h
    | getTransferStatus task batch code status =>
      exact if_neg fun heq => by simp [SessionLabel.callOf, heq] at h
    | _ => rfl
  | _ => rfl

/-! ## The engine of a session -/

def Lifetime.phase (segment : Int32) : Lifetime → EnginePhase
  | .closed => .closed
  | .destroyed => .destroyed
  | _ => .opened segment

/-- The batches that the tasks have to free. -/
def batchesOf (tasks : List Task) : Multiset UInt64 :=
  (tasks.map fun task => task.stage.batches).sum

theorem batchesOf_split (before after : List Task) (task : Task) :
    batchesOf (before ++ task :: after) = task.stage.batches + batchesOf (before ++ after) := by
  simp only [batchesOf, List.map_append, List.map_cons, List.sum_append, List.sum_cons]
  exact add_left_comm _ _ _

theorem batchesOf_settled {tasks : List Task}
    (h : ∀ task ∈ tasks, task.stage.isReturned = true) : batchesOf tasks = 0 := by
  refine List.sum_eq_zero fun batches hbatches => ?_
  obtain ⟨task, htask, rfl⟩ := List.mem_map.mp hbatches
  have hreturned := h task htask
  cases hstage : task.stage with
  | returned result => rfl
  | allocating => rfl
  | submitting batch =>
    rw [hstage] at hreturned
    cases hreturned
  | polling batch =>
    rw [hstage] at hreturned
    cases hreturned
  | freeing batch result =>
    rw [hstage] at hreturned
    cases hreturned

/-- The engine allows what a task does while the segment is open. -/
theorem TaskStep.after {b : MooncakeTransferBackend} {task : Task} {label : SessionLabel}
    {stage : TaskStage} (h : TaskStep b task label stage) (rest : Multiset UInt64) :
    EngineState.after ⟨.opened b.segment, task.stage.batches + rest⟩ label =
      some ⟨.opened b.segment, stage.batches + rest⟩ := by
  have hmem (batch : UInt64) : batch ∈ ({batch} : Multiset UInt64) + rest :=
    Multiset.mem_add.mpr (.inl (Multiset.mem_singleton_self batch))
  cases h with
  | allocate batch hstage =>
    rw [hstage]
    show some (EngineState.mk (.opened b.segment) _) = _
    unfold TaskStage.allocated
    split
    next => rfl
    next => rw [TaskStage.batches, TaskStage.batches, zero_add, Multiset.singleton_add]
  | @submit batch answer hstage =>
    rw [hstage]
    refine (if_pos ⟨rfl, hmem batch⟩).trans ?_
    unfold TaskStage.submitted
    split
    next => rfl
    next => rfl
  | @poll batch code status hstage =>
    rw [hstage]
    refine (if_pos ⟨rfl, hmem batch⟩).trans ?_
    unfold TaskStage.polled
    split
    next => rfl
    next => rfl
  | timeout hstage =>
    rw [hstage]
    rfl
  | @free batch result hstage =>
    rw [hstage]
    refine (if_pos ⟨rfl, hmem batch⟩).trans ?_
    rw [TaskStage.batches, TaskStage.batches, Multiset.singleton_add, Multiset.erase_cons_head,
      zero_add]

theorem batches_start (b : MooncakeTransferBackend) (request : TransferRequest) :
    (TaskStage.start b request).batches = 0 := by
  unfold TaskStage.start
  split
  next => rfl
  next => rfl

theorem segment_registerBuffer (b : MooncakeTransferBackend) (answer : Int) (addr len : Nat)
    (onGpu : Bool) : (b.registerBuffer answer addr len onGpu).2.segment = b.segment := by
  unfold registerBuffer
  split
  next => rfl
  next => rfl

theorem segment_deregisterBuffer (b : MooncakeTransferBackend) (answer : Int)
    (handle : BufferHandle) : (b.deregisterBuffer answer handle).2.segment = b.segment := by
  unfold deregisterBuffer
  split
  next => rfl
  next =>
    dsimp only
    split
    next => rfl
    next => rfl

/-- The engine of a session that the calls `opening` have opened. -/
structure Regular (opening : List EngineEvent) (trace : List SessionLabel) (s : Session) :
    Prop where
  engine : engineAfter (opening ++ engineEvents trace) =
    some ⟨s.lifetime.phase s.backend.segment, batchesOf s.tasks⟩
  closing : s.lifetime ≠ .alive → s.registering = [] ∧ s.erased = []
  settled : s.lifetime = .closed ∨ s.lifetime = .destroyed → s.Settled

section

variable {opening : List EngineEvent} {trace : List SessionLabel} {s s' : Session}
  {label : SessionLabel}

/-- The engine allows a step of the session. -/
theorem Regular.engine_snoc (h : Regular opening trace s) {e : EngineState}
    (hnext : EngineState.after ⟨s.lifetime.phase s.backend.segment, batchesOf s.tasks⟩ label =
      some e) : engineAfter (opening ++ engineEvents (trace ++ [label])) = some e := by
  rw [engineAfter_snoc, h.engine]
  exact hnext

/-- While a task runs the segment is open. -/
theorem Regular.phase_of_running (h : Regular opening trace s) {task : Task}
    (htask : task ∈ s.tasks) (hrunning : task.stage.isReturned = false) :
    s.lifetime.phase s.backend.segment = .opened s.backend.segment := by
  have hopen : ¬ (s.lifetime = .closed ∨ s.lifetime = .destroyed) := by
    intro hended
    exact Bool.false_ne_true (hrunning.symm.trans (h.settled hended task htask))
  cases hlifetime : s.lifetime with
  | alive => rfl
  | clearing addrs => rfl
  | closed => exact absurd (.inl hlifetime) hopen
  | destroyed => exact absurd (.inr hlifetime) hopen

theorem TaskStep.running {b : MooncakeTransferBackend} {task : Task} {stage : TaskStage}
    (h : TaskStep b task label stage) : task.stage.isReturned = false := by
  cases h with
  | allocate batch hstage => rw [hstage]; rfl
  | submit answer hstage => rw [hstage]; rfl
  | poll code status hstage => rw [hstage]; rfl
  | timeout hstage => rw [hstage]; rfl
  | free hstage => rw [hstage]; rfl

theorem Regular.step (h : Regular opening trace s) (hstep : WaitedStep s label s') :
    Regular opening (trace ++ [label]) s' := by
  obtain ⟨hstep, hwaited⟩ := hstep
  have hopened (halive : s.lifetime = .alive) : (s.lifetime.phase s.backend.segment).isOpened := by
    rw [halive]
    rfl
  cases hstep with
  | register addr len onGpu answer halive =>
    exact ⟨h.engine_snoc (if_pos (hopened halive)), fun hne => absurd halive hne, h.settled⟩
  | @record addr len onGpu before after hregistering =>
    refine ⟨?_, fun hne => ?_, h.settled⟩
    · rw [segment_registerBuffer]
      exact h.engine_snoc rfl
    · rw [(h.closing hne).1] at hregistering
      exact absurd hregistering.symm (List.append_ne_nil_of_right_ne_nil _ (List.cons_ne_nil _ _))
  | erase handle halive hlive =>
    refine ⟨?_, fun hne => absurd halive hne, h.settled⟩
    rw [segment_deregisterBuffer]
    exact h.engine_snoc rfl
  | @unregister handle before after answer herased =>
    have halive : s.lifetime = .alive := by
      by_contra hne
      rw [(h.closing hne).2] at herased
      exact absurd herased.symm (List.append_ne_nil_of_right_ne_nil _ (List.cons_ne_nil _ _))
    exact ⟨h.engine_snoc (if_pos (hopened halive)), fun hne => absurd halive hne, h.settled⟩
  | begin id request halive hnew =>
    refine ⟨?_, fun hne => absurd halive hne, fun hended => ?_⟩
    · have hbatches : batchesOf (s.tasks ++ [⟨id, request, s.backend.selectPath request,
          .start s.backend request⟩]) = batchesOf s.tasks := by
        rw [batchesOf_split, List.append_nil, batches_start, zero_add]
      rw [hbatches]
      exact h.engine_snoc rfl
    · rw [halive] at hended
      simp at hended
  | @task task before after label stage htasks hstep =>
    have htask : task ∈ s.tasks := htasks ▸ List.mem_append_right _ List.mem_cons_self
    refine ⟨?_, h.closing, fun hended => ?_⟩
    · have hphase := h.phase_of_running htask hstep.running
      show engineAfter _ = some ⟨s.lifetime.phase s.backend.segment, _⟩
      rw [batchesOf_split, hphase]
      apply h.engine_snoc
      rw [hphase, htasks, batchesOf_split]
      exact hstep.after _
    · exact absurd (h.settled hended task htask) (Bool.eq_false_iff.mp hstep.running)
  | destruct halive hregistering herased =>
    refine ⟨h.engine_snoc ?_, fun _ => ⟨hregistering, herased⟩, fun hended => by simp at hended⟩
    rw [halive]
    rfl
  | clear answer hlifetime =>
    have hclosing := h.closing (by simp [hlifetime])
    refine ⟨h.engine_snoc ?_, fun _ => hclosing, fun hended => by simp at hended⟩
    rw [hlifetime]
    rfl
  | close hlifetime =>
    have hsettled := hwaited hlifetime
    refine ⟨h.engine_snoc ?_, fun _ => h.closing (by simp [hlifetime]), fun _ => hsettled⟩
    rw [hlifetime]
    exact if_pos ⟨rfl, batchesOf_settled hsettled⟩
  | destroy hlifetime =>
    have hsettled := h.settled (.inl hlifetime)
    refine ⟨h.engine_snoc ?_, fun _ => h.closing (by simp [hlifetime]), fun _ => hsettled⟩
    rw [hlifetime]
    rfl

end

/-! ## The futures of a session -/

section

variable {start s s' : Session} {trace : List SessionLabel} {label : SessionLabel}
  {b : MooncakeTransferBackend} {task : Task} {stage : TaskStage}

/-- A task, and the backend that began it. -/
structure Begun (start : Session) (trace earlier later : List SessionLabel) (s : Session)
    (task : Task) : Prop where
  trace_eq : trace = earlier ++ .began task.id task.request :: later
  run : Run WaitedStep start earlier s
  path : task.path = s.backend.selectPath task.request
  segment : s.backend.segment = start.backend.segment
  progress : Progress s.backend task.request task.stage (callsOf task.id trace)
    (answersOf task.id trace)

/-- A step of the session that is none of the task. -/
theorem Begun.snoc {earlier later : List SessionLabel} (h : Begun start trace earlier later s task)
    (hlabel : label.callOf task.id = none) :
    Begun start (trace ++ [label]) earlier (later ++ [label]) s task where
  trace_eq := by rw [h.trace_eq, List.append_assoc, List.cons_append]
  run := h.run
  path := h.path
  segment := h.segment
  progress := by
    rw [callsOf_snoc, hlabel, Option.toList_none, List.append_nil, answersOf_snoc,
      hear_of_silent hlabel]
    exact h.progress

theorem TaskStep.callOf_ne (h : TaskStep b task label stage) {id : Nat} (hne : task.id ≠ id) :
    label.callOf id = none := by
  cases h with
  | timeout => rfl
  | allocate => exact if_neg hne
  | submit => exact if_neg hne
  | poll => exact if_neg hne
  | free => exact if_neg hne

theorem TaskStep.progress (h : TaskStep b task label stage) {earlier later : List SessionLabel}
    (hbegun : Begun start trace earlier later s task)
    (hsegment : b.segment = start.backend.segment) :
    Progress s.backend task.request stage (callsOf task.id (trace ++ [label]))
      (answersOf task.id (trace ++ [label])) := by
  have hprogress := hbegun.progress
  rw [callsOf_snoc, answersOf_snoc]
  cases h with
  | allocate batch hstage =>
    rw [hstage] at hprogress
    rw [SessionLabel.callOf, if_pos rfl, hear, if_pos rfl]
    exact hprogress.allocate batch
  | submit answer hstage =>
    have hentry : b.entry task.request = s.backend.entry task.request := by
      rw [entry, entry, hsegment, hbegun.segment]
    rw [hstage] at hprogress
    rw [SessionLabel.callOf, if_pos rfl, hentry, hear, if_pos rfl]
    exact hprogress.submit answer
  | poll code status hstage =>
    rw [hstage] at hprogress
    rw [SessionLabel.callOf, if_pos rfl, hbegun.path, hear, if_pos rfl]
    exact hprogress.poll code status
  | timeout hstage =>
    rw [hstage] at hprogress
    show Progress _ _ _ (callsOf task.id trace ++ []) (answersOf task.id trace)
    rw [List.append_nil]
    exact hprogress.timeout
  | free hstage =>
    rw [hstage] at hprogress
    rw [SessionLabel.callOf, if_pos rfl]
    exact hprogress.free

/-- The tasks of a session. -/
structure TasksKept (start : Session) (trace : List SessionLabel) (s : Session) : Prop where
  run : Run WaitedStep start trace s
  ids : (s.tasks.map Task.id).Nodup
  silent : ∀ id, id ∉ s.tasks.map Task.id →
    callsOf id trace = [] ∧ answersOf id trace = ⟨0, 0, []⟩
  segment : s.backend.segment = start.backend.segment
  begun : ∀ task ∈ s.tasks, ∃ earlier later s₀, Begun start trace earlier later s₀ task

theorem tasksKept_start (b : MooncakeTransferBackend) :
    TasksKept { backend := b } [] { backend := b } where
  run := .nil
  ids := .nil
  silent _ _ := ⟨rfl, rfl⟩
  segment := rfl
  begun _ htask := by cases htask

/-- A step that is none of a task. -/
theorem TasksKept.snoc (h : TasksKept start trace s) (hstep : WaitedStep s label s')
    (htasks : s'.tasks = s.tasks) (hsegment : s'.backend.segment = s.backend.segment)
    (hlabel : ∀ id, label.callOf id = none) : TasksKept start (trace ++ [label]) s' where
  run := .snoc h.run hstep
  ids := htasks ▸ h.ids
  silent id hid := by
    obtain ⟨hcalls, hanswers⟩ := h.silent id (htasks ▸ hid)
    rw [callsOf_snoc, answersOf_snoc, hear_of_silent (hlabel id), hlabel, hcalls]
    exact ⟨rfl, hanswers⟩
  segment := hsegment.trans h.segment
  begun task htask := by
    obtain ⟨earlier, later, s₀, hbegun⟩ := h.begun task (htasks ▸ htask)
    exact ⟨earlier, later ++ [label], s₀, hbegun.snoc (hlabel task.id)⟩

/-- `SubmitAsync` begins a task that has made no call. -/
theorem progress_start (b : MooncakeTransferBackend) (request : TransferRequest) :
    Progress b request (.start b request) [] ⟨0, 0, []⟩ := by
  unfold TaskStage.start
  split
  next hdead =>
    apply Progress.returned
    rw [submitAsync, if_pos hdead]
  next hlive =>
    obtain ⟨hsrc, hdst⟩ := not_or.mp hlive
    exact .allocating ⟨not_not.mp hsrc, not_not.mp hdst⟩

theorem TasksKept.begin (h : TasksKept start trace s) {id : Nat} {request : TransferRequest}
    (hnew : id ∉ s.tasks.map Task.id)
    (hstep : WaitedStep s (.began id request) { s with tasks := s.tasks ++
      [⟨id, request, s.backend.selectPath request, .start s.backend request⟩] }) :
    TasksKept start (trace ++ [.began id request]) { s with tasks := s.tasks ++
      [⟨id, request, s.backend.selectPath request, .start s.backend request⟩] } := by
  have hcalls (id' : Nat) : callsOf id' (trace ++ [.began id request]) = callsOf id' trace := by
    rw [callsOf_snoc]
    exact List.append_nil _
  have hanswers (id' : Nat) :
      answersOf id' (trace ++ [.began id request]) = answersOf id' trace := answersOf_snoc ..
  refine ⟨.snoc h.run hstep, ?_, fun id' hid => ?_, h.segment, ?_⟩
  · rw [List.map_append, List.map_singleton]
    exact h.ids.append (List.nodup_singleton id) (List.disjoint_singleton.mpr hnew)
  · rw [List.map_append, List.mem_append, not_or] at hid
    rw [hcalls, hanswers]
    exact h.silent id' hid.1
  · refine List.forall_mem_append.mpr ⟨fun task htask => ?_, List.forall_mem_singleton.mpr ?_⟩
    · obtain ⟨earlier, later, s₀, hbegun⟩ := h.begun task htask
      exact ⟨earlier, later ++ [.began id request], s₀, hbegun.snoc rfl⟩
    · refine ⟨trace, [], s, rfl, h.run, rfl, h.segment, ?_⟩
      rw [hcalls, hanswers, (h.silent id hnew).1, (h.silent id hnew).2]
      exact progress_start s.backend request

theorem TasksKept.taskStep (h : TasksKept start trace s) {before after : List Task}
    (htasks : s.tasks = before ++ task :: after) (hstep : TaskStep s.backend task label stage)
    (hwaited : WaitedStep s label { s with tasks := before ++ { task with stage } :: after }) :
    TasksKept start (trace ++ [label])
      { s with tasks := before ++ { task with stage } :: after } := by
  have hids : (before ++ { task with stage } :: after).map Task.id = s.tasks.map Task.id := by
    rw [htasks, List.map_append, List.map_append]
    rfl
  have hmem : task ∈ s.tasks := htasks ▸ List.mem_append_right _ List.mem_cons_self
  refine ⟨.snoc h.run hwaited, hids ▸ h.ids, fun id hid => ?_, h.segment, ?_⟩
  · have hid' : id ∉ s.tasks.map Task.id := hids ▸ hid
    have hne : task.id ≠ id := fun heq => hid' (heq ▸ List.mem_map_of_mem hmem)
    obtain ⟨hcalls, hanswers⟩ := h.silent id hid'
    rw [callsOf_snoc, answersOf_snoc, hear_of_silent (hstep.callOf_ne hne),
      hstep.callOf_ne hne, hcalls]
    exact ⟨rfl, hanswers⟩
  · have hother : ∀ other ∈ before ++ after, task.id ≠ other.id := by
      have hnodup := h.ids
      rw [htasks, List.map_append, List.map_cons, List.nodup_middle, List.nodup_cons,
        ← List.map_append] at hnodup
      intro other hmem' heq
      exact hnodup.1 (heq ▸ List.mem_map_of_mem hmem')
    have hkept : ∀ other ∈ before ++ after,
        ∃ earlier later s₀, Begun start (trace ++ [label]) earlier later s₀ other := by
      intro other hmem'
      have hin : other ∈ s.tasks := by
        rw [htasks]
        rcases List.mem_append.mp hmem' with hbefore | hafter
        · exact List.mem_append_left _ hbefore
        · exact List.mem_append_right _ (List.mem_cons_of_mem _ hafter)
      obtain ⟨earlier, later, s₀, hbegun⟩ := h.begun other hin
      exact ⟨earlier, later ++ [label], s₀, hbegun.snoc (hstep.callOf_ne (hother other hmem'))⟩
    obtain ⟨hbefore, hafter⟩ := List.forall_mem_append.mp hkept
    refine List.forall_mem_append.mpr ⟨hbefore, List.forall_mem_cons.mpr ⟨?_, hafter⟩⟩
    obtain ⟨earlier, later, s₀, hbegun⟩ := h.begun task hmem
    refine ⟨earlier, later ++ [label], s₀, ?_, hbegun.run, hbegun.path, hbegun.segment, ?_⟩
    · rw [hbegun.trace_eq, List.append_assoc, List.cons_append]
    · exact hstep.progress hbegun h.segment

theorem TasksKept.step (h : TasksKept start trace s) (hstep : WaitedStep s label s') :
    TasksKept start (trace ++ [label]) s' := by
  cases hstep.1 with
  | register => exact h.snoc hstep rfl rfl fun _ => rfl
  | record => exact h.snoc hstep rfl (segment_registerBuffer _ _ _ _ _) fun _ => rfl
  | erase => exact h.snoc hstep rfl (segment_deregisterBuffer _ _ _) fun _ => rfl
  | unregister => exact h.snoc hstep rfl rfl fun _ => rfl
  | begin id request halive hnew => exact h.begin hnew hstep
  | task htasks htask => exact h.taskStep htasks htask hstep
  | destruct => exact h.snoc hstep rfl rfl fun _ => rfl
  | clear => exact h.snoc hstep rfl rfl fun _ => rfl
  | close => exact h.snoc hstep rfl rfl fun _ => rfl
  | destroy => exact h.snoc hstep rfl rfl fun _ => rfl

end

/-! ## Soundness -/

/-- What a session owes to the engine that the calls `opening` have opened, and to its clients. -/
structure SessionSound (opening : List EngineEvent) (start : Session) (trace : List SessionLabel)
    (s : Session) : Prop where
  /-- The engine allows every call, and has the batches of the running tasks. -/
  engine : engineAfter (opening ++ engineEvents trace) =
    some ⟨s.lifetime.phase s.backend.segment, batchesOf s.tasks⟩
  /-- At the end the engine has nothing left. -/
  destroyed : s.lifetime = .destroyed →
    engineAfter (opening ++ engineEvents trace) = some ⟨.destroyed, 0⟩
  /-- A future holds what its own calls brought, for the backend that began it. -/
  futures : ∀ task ∈ s.tasks, ∀ result, task.stage = .returned result →
    ∃ earlier later s₀, trace = earlier ++ .began task.id task.request :: later ∧
      Run WaitedStep start earlier s₀ ∧
      s₀.backend.submitAsync task.request (answersOf task.id trace) =
        (callsOf task.id trace, result)

/-- What `Create` owes: no engine, or sound sessions. -/
def CreateSound (config : MooncakeBackendConfig) (answers : CreateAnswers) : Prop :=
  match create config answers with
  | (calls, .error _) => ∃ phase, engineAfter calls = some ⟨phase, 0⟩ ∧
      (phase = .absent ∨ phase = .destroyed)
  | (calls, .ok b) => ∀ trace s, Run WaitedStep { backend := b } trace s →
      SessionSound calls { backend := b } trace s

theorem sessionSound_of_run {opening : List EngineEvent} {b : MooncakeTransferBackend}
    {trace : List SessionLabel} {s : Session} (h : Run WaitedStep { backend := b } trace s)
    (hopening : engineAfter opening = some { phase := .opened b.segment }) :
    SessionSound opening { backend := b } trace s := by
  have hregular : Regular opening trace s := by
    refine h.invariant ?_ Regular.step
    refine ⟨?_, fun hne => absurd rfl hne, fun _ task htask => ?_⟩
    · rw [engineEvents, List.filterMap_nil, List.append_nil]
      exact hopening
    · cases htask
  have hkept : TasksKept { backend := b } trace s := h.invariant (tasksKept_start b) TasksKept.step
  refine ⟨hregular.engine, fun hdestroyed => ?_, fun task htask result hresult => ?_⟩
  · have hsettled := hregular.settled (.inr hdestroyed)
    rw [hregular.engine, hdestroyed, batchesOf_settled hsettled]
    rfl
  · obtain ⟨earlier, later, s₀, hbegun⟩ := hkept.begun task htask
    have hprogress := hbegun.progress
    rw [hresult] at hprogress
    cases hprogress with
    | returned h => exact ⟨earlier, later, s₀, hbegun.trace_eq, hbegun.run, h⟩

/-- The backend keeps to the interface of the engine in every interleaving. -/
theorem session_sound (config : MooncakeBackendConfig) (answers : CreateAnswers) :
    CreateSound config answers := by
  unfold CreateSound
  have hspec := create_spec config answers
  split
  next calls error hcreate =>
    rw [hcreate] at hspec
    rcases hspec with ⟨b, hok, -, -⟩ | ⟨-, phase, hphase⟩
    · cases hok
    · exact ⟨phase, hphase⟩
  next calls b hcreate =>
    rw [hcreate] at hspec
    rcases hspec with ⟨b', hok, -, hopened⟩ | ⟨⟨error, herror⟩, -⟩
    · cases hok
      exact fun trace s hrun => sessionSound_of_run hrun hopened
    · cases herror

/-- A node over TCP. -/
def tcpConfig : MooncakeBackendConfig where
  metadataConnString := "P2PHANDSHAKE"
  localServerName := "127.0.0.1:12345"
  ipOrHostName := "127.0.0.1"
  tryRdma := false

def tcpAnswers : CreateAnswers := ⟨true, false, true, 3⟩

def tcpBackend : MooncakeTransferBackend := created "cuda:0" false 3

/-- From the first registered buffer to itself. -/
def selfTransfer : TransferRequest := ⟨{}, ⟨4096, 8, 1, false⟩, ⟨4096, 8, 1, false⟩, .tcp⟩

/-- A session with one buffer and one task. -/
def transferring (stage : TaskStage) : Session where
  backend := (tcpBackend.registerBuffer 0 4096 8 false).2
  tasks := [⟨0, selfTransfer, .tcp, stage⟩]

theorem transferring_task {stage stage' : TaskStage} {label : SessionLabel}
    (h : TaskStep (transferring stage).backend ⟨0, selfTransfer, .tcp, stage⟩ label stage') :
    WaitedStep (transferring stage) label (transferring stage') :=
  ⟨@SessionStep.task _ _ [] [] _ _ rfl h, fun hlifetime => by cases hlifetime⟩

def transferred : Result TransferReceipt := .ok ⟨{}, .tcp, 8⟩

/-- The session in its destructor. -/
def ending (lifetime : Lifetime) : Session where
  backend := (transferring (.returned transferred)).backend.destroy.2
  tasks := [⟨0, selfTransfer, .tcp, .returned transferred⟩]
  lifetime := lifetime

theorem run_ending :
    ∃ trace, Run WaitedStep { backend := tcpBackend } trace (ending .destroyed) := by
  have hregistered : WaitedStep { backend := tcpBackend } _
      { backend := tcpBackend, registering := [(4096, 8, false)] } :=
    ⟨.register 4096 8 false 0 rfl, fun hlifetime => by cases hlifetime⟩
  have hrecorded : WaitedStep { backend := tcpBackend, registering := [(4096, 8, false)] } _
      { backend := (tcpBackend.registerBuffer 0 4096 8 false).2 } :=
    ⟨@SessionStep.record _ _ _ _ [] [] rfl, fun hlifetime => by cases hlifetime⟩
  have hbegun : WaitedStep { backend := (tcpBackend.registerBuffer 0 4096 8 false).2 } _
      (transferring .allocating) :=
    ⟨.begin 0 selfTransfer rfl List.not_mem_nil, fun hlifetime => by cases hlifetime⟩
  have hallocated : WaitedStep (transferring .allocating) _ (transferring (.submitting 7)) :=
    transferring_task (.allocate 7 rfl)
  have hsubmitted : WaitedStep (transferring (.submitting 7)) _ (transferring (.polling 7)) :=
    transferring_task (.submit 0 rfl)
  have hpolled : WaitedStep (transferring (.polling 7)) _
      (transferring (.freeing 7 transferred)) :=
    transferring_task (.poll 0 ⟨statusCompleted, 8⟩ rfl)
  have hfreed : WaitedStep (transferring (.freeing 7 transferred)) _
      (transferring (.returned transferred)) :=
    transferring_task (.free rfl)
  have hdestructing : WaitedStep (transferring (.returned transferred)) _
      (ending (.clearing [4096])) :=
    ⟨.destruct rfl rfl rfl, fun hlifetime => by cases hlifetime⟩
  have hcleared : WaitedStep (ending (.clearing [4096])) _ (ending (.clearing [])) :=
    ⟨.clear 0 rfl, fun hlifetime => by cases hlifetime⟩
  have hclosed : WaitedStep (ending (.clearing [])) _ (ending .closed) :=
    ⟨.close rfl, fun _ => List.forall_mem_singleton.mpr rfl⟩
  have hdestroyed : WaitedStep (ending .closed) _ (ending .destroyed) :=
    ⟨.destroy rfl, fun hlifetime => by cases hlifetime⟩
  exact ⟨_, .snoc (.snoc (.snoc (.snoc (.snoc (.snoc (.snoc (.snoc (.snoc (.snoc (.snoc .nil
    hregistered) hrecorded) hbegun) hallocated) hsubmitted) hpolled) hfreed) hdestructing)
    hcleared) hclosed) hdestroyed⟩

theorem session_sound_oneTransfer : ∃ trace,
    SessionSound (create tcpConfig tcpAnswers).1 { backend := tcpBackend } trace
      (ending .destroyed) := by
  obtain ⟨trace, hrun⟩ := run_ending
  exact ⟨trace, session_sound tcpConfig tcpAnswers trace _ hrun⟩

end TieredKVCache.Adapter
