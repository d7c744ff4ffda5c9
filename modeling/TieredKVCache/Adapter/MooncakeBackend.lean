import Mathlib.Data.List.AList
import TieredKVCache.Adapter.TransferEngine

/-!
# The backend over the upstream engine

`MooncakeTransferBackend` of `adapter/mooncake_transfer_backend.cpp`, over the C interface
`transfer_engine_c.h`. What the engine answers to a call is arbitrary: it is an argument of the
functions. The loop that polls the status of a transfer goes on until the deadline, so its answers
are a list, with one entry for each round that starts before it.
-/

namespace TieredKVCache.Adapter

/-! ## `transfer_engine_c.h` -/

/-- `INVALID_BATCH`. -/
def invalidBatch : UInt64 := 0xFFFFFFFFFFFFFFFF

/-- `OPCODE_WRITE`. -/
def opcodeWrite : Int := 1

/-- `STATUS_CANCELED`. -/
def statusCanceled : Int := 3

/-- `STATUS_COMPLETED`. -/
def statusCompleted : Int := 4

/-- `STATUS_TIMEOUT`. -/
def statusTimeout : Int := 5

/-- `STATUS_FAILED`. -/
def statusFailed : Int := 6

/-- `transfer_request_t`. -/
structure EngineRequest where
  opcode : Int
  source : Nat
  targetId : Int32
  targetOffset : Nat
  length : Nat
deriving DecidableEq, Repr

/-- `transfer_status_t`. -/
structure EngineStatus where
  status : Int
  transferredBytes : Nat
deriving DecidableEq, Repr

/-- The calls of a transfer. -/
inductive EngineCall where
  | allocateBatchID (batchSize : Nat)
  | submitTransfer (batch : UInt64) (entries : List EngineRequest)
  | getTransferStatus (batch : UInt64) (taskId : Nat)
  | freeBatchID (batch : UInt64)
deriving DecidableEq, Repr

/-- What the engine answers to the calls of a transfer. -/
structure EngineAnswers where
  batch : UInt64
  submit : Int
  polls : List (Int × EngineStatus)

/-- The entries that a list of calls submits. -/
def submittedEntries (calls : List EngineCall) : List EngineRequest :=
  calls.flatMap fun
    | .submitTransfer _ entries => entries
    | _ => []

/-! ## The backend -/

structure MooncakeTransferBackend where
  gpuLocation : String := "cuda:0"
  rdmaInstalled : Bool := true
  segment : Int32 := 0
  nextRegId : UInt64 := 1
  liveRegistrations : AList fun _ : UInt64 => Nat := ∅

namespace MooncakeTransferBackend

/-- `PathToLocation`. -/
def pathToLocation (onGpu : Bool) (s : MooncakeTransferBackend) : String :=
  if onGpu then s.gpuLocation else "cpu:0"

/-- `answer` is that of `registerLocalMemory`. -/
def registerBuffer (answer : Int) (addr len : Nat) (onGpu : Bool) (s : MooncakeTransferBackend) :
    Result BufferHandle × MooncakeTransferBackend :=
  if answer ≠ 0 then
    (.ofStatus (.make .addressNotRegistered
      ("registerLocalMemory 失败：location=" ++ s.pathToLocation onGpu)), s)
  else
    let handle : BufferHandle := ⟨addr, len, s.nextRegId, onGpu⟩
    -- `emplace` keeps an entry that is there
    (.ok handle, { s with
      nextRegId := s.nextRegId + 1
      liveRegistrations :=
        if handle.regId ∈ s.liveRegistrations then s.liveRegistrations
        else s.liveRegistrations.insert handle.regId addr })

/-- `answer` is that of `unregisterLocalMemory`, which is not called for an unknown handle. -/
def deregisterBuffer (answer : Int) (handle : BufferHandle) (s : MooncakeTransferBackend) :
    Status × MooncakeTransferBackend :=
  if handle.regId ∉ s.liveRegistrations then
    (.make .addressNotRegistered "DeregisterBuffer：未知或已注销的 reg_id", s)
  else
    let s := { s with liveRegistrations := s.liveRegistrations.erase handle.regId }
    if answer ≠ 0 then (.make .transferFailed "unregisterLocalMemory 失败", s)
    else (.success, s)

def selectPath (request : TransferRequest) (s : MooncakeTransferBackend) : TransportPath :=
  if !s.rdmaInstalled then .tcp
  else if request.src.onGpu || request.dst.onGpu then .gpuDirect
  else .rdma

/-- The entry of a request. -/
def entry (request : TransferRequest) (s : MooncakeTransferBackend) : EngineRequest where
  opcode := opcodeWrite
  source := request.src.addr
  targetId := s.segment
  targetOffset := request.dst.addr
  length := request.src.length

/-- The loop over `getTransferStatus`: the calls, and what the future holds. -/
def pollTransfer (request : TransferRequest) (path : TransportPath) (batch : UInt64) :
    List (Int × EngineStatus) → List EngineCall × Result TransferReceipt
  | [] => ([.freeBatchID batch],
      .ofStatus (.make .transferFailed ("传输超时：key.hash_id=" ++ toString request.key.hashId)))
  | (code, status) :: polls =>
    if code ≠ 0 then
      ([.getTransferStatus batch 0, .freeBatchID batch],
        .ofStatus (.make .transferFailed "getTransferStatus 失败"))
    else if status.status = statusCompleted then
      ([.getTransferStatus batch 0, .freeBatchID batch],
        .ok ⟨request.key, path, status.transferredBytes⟩)
    else if status.status = statusFailed ∨ status.status = statusTimeout ∨
        status.status = statusCanceled then
      ([.getTransferStatus batch 0, .freeBatchID batch],
        .ofStatus (.make .transferFailed
          ("传输失败：key.hash_id=" ++ toString request.key.hashId ++ " path=" ++ path.name ++
            " upstream_status=" ++ toString status.status)))
    else
      let rest := pollTransfer request path batch polls
      (.getTransferStatus batch 0 :: rest.1, rest.2)

/-- The task that `SubmitAsync` starts. -/
def transfer (request : TransferRequest) (path : TransportPath) (answers : EngineAnswers)
    (s : MooncakeTransferBackend) : List EngineCall × Result TransferReceipt :=
  if answers.batch = invalidBatch then
    ([.allocateBatchID 1], .ofStatus (.make .transferFailed "allocateBatchID 失败"))
  else if answers.submit ≠ 0 then
    ([.allocateBatchID 1, .submitTransfer answers.batch [s.entry request],
        .freeBatchID answers.batch],
      .ofStatus (.make .transferFailed
        ("submitTransfer 失败：key.hash_id=" ++ toString request.key.hashId)))
  else
    let rest := pollTransfer request path answers.batch answers.polls
    (.allocateBatchID 1 :: .submitTransfer answers.batch [s.entry request] :: rest.1, rest.2)

/-- The calls of the engine, and what the future holds. The state stays as it is. -/
def submitAsync (request : TransferRequest) (answers : EngineAnswers)
    (s : MooncakeTransferBackend) : List EngineCall × Result TransferReceipt :=
  if request.src.regId ∉ s.liveRegistrations ∨ request.dst.regId ∉ s.liveRegistrations then
    ([], .ofStatus (.make .addressNotRegistered "SubmitAsync：源或目标缓冲未注册"))
  else s.transfer request (s.selectPath request) answers

/-- The buffers are registered, and the engine has a batch. -/
def Accepts (request : TransferRequest) (answers : EngineAnswers) (s : MooncakeTransferBackend) :
    Prop :=
  request.src.regId ∈ s.liveRegistrations ∧ request.dst.regId ∈ s.liveRegistrations ∧
    answers.batch ≠ invalidBatch

instance (request : TransferRequest) (answers : EngineAnswers) (s : MooncakeTransferBackend) :
    Decidable (s.Accepts request answers) :=
  inferInstanceAs (Decidable (_ ∧ _ ∧ _))

theorem submittedEntries_pollTransfer (request : TransferRequest) (path : TransportPath)
    (batch : UInt64) (polls : List (Int × EngineStatus)) :
    submittedEntries (pollTransfer request path batch polls).1 = [] := by
  induction polls with
  | nil => rfl
  | cons poll polls ih =>
    unfold pollTransfer
    split
    next => rfl
    next =>
      split
      next => rfl
      next =>
        split
        next => rfl
        next => exact ih

/-- An accepted request is submitted in one entry, as long as the source. -/
theorem submittedEntries_submitAsync (request : TransferRequest) (answers : EngineAnswers)
    (s : MooncakeTransferBackend) :
    submittedEntries (s.submitAsync request answers).1 =
      if s.Accepts request answers then [s.entry request] else [] := by
  unfold submitAsync
  split
  next hdead =>
    rw [if_neg]
    · rfl
    · rintro ⟨hsrc, hdst, -⟩
      exact hdead.elim (absurd hsrc) (absurd hdst)
  next hlive =>
    obtain ⟨hsrc, hdst⟩ := not_or.mp hlive
    unfold transfer
    split
    next hinvalid =>
      have hrefused : ¬ s.Accepts request answers := fun h => h.2.2 hinvalid
      rw [if_neg hrefused]
      rfl
    next hbatch =>
      have haccepts : s.Accepts request answers := ⟨not_not.mp hsrc, not_not.mp hdst, hbatch⟩
      rw [if_pos haccepts]
      split
      next => rfl
      next =>
        have hpolls := submittedEntries_pollTransfer request (s.selectPath request) answers.batch
          answers.polls
        exact congrArg (s.entry request :: ·) hpolls

end MooncakeTransferBackend

end TieredKVCache.Adapter
