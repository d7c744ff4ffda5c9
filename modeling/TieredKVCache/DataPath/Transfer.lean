import TieredKVCache.Adapter.TransferEngine
import TieredKVCache.Lib.Transition

/-!
# The asynchronous pipeline

`DataPath::TransferAsync`, `WorkerLoop` and `~DataPath` of `datapath/data_path.cpp` as a step
relation. A step is a critical section under the mutex, or what a thread does on its own between
two of them: waking a waiting thread, submitting to the backend, taking its result, fulfilling a
promise. Any number of clients may be inside `TransferAsync`; of a client that has queued its
request it only matters that its call of `notify_one` is still to come (`notifies`).

Calls are numbered in the order in which they enter the critical section, and a promise is known
by the number of its call. What the backend returns from `SelectPath` and `SubmitAsync` is
arbitrary.
-/

namespace TieredKVCache.DataPath

open Adapter Lib

/-- `PendingItem`; the promise is that of the call. -/
structure PendingItem where
  call : Nat
  request : TransferRequest
deriving DecidableEq, Repr

/-- Where the worker is in its loop. -/
inductive Worker where
  /-- About to take the mutex and to test the condition of `cv_.wait`. -/
  | locking
  | asleep
  /-- Holds an item that is not submitted yet. -/
  | popped (item : PendingItem)
  /-- Waits for the future of the backend. -/
  | submitted (item : PendingItem)
  | answered (item : PendingItem) (result : Result TransferReceipt)
  | exited
deriving DecidableEq

/-- Where the destructor is. -/
inductive Destructor where
  | notStarted
  /-- `shutting_down_` is set, `notify_all` is still to come. -/
  | flagged
  /-- About to join the worker. -/
  | notified
  /-- In the loop over the leftover queue. -/
  | joined
  | finished
deriving DecidableEq, Repr

structure State where
  queue : List PendingItem := []
  shuttingDown : Bool := false
  worker : Worker := .locking
  destructor : Destructor := .notStarted
  notifies : Nat := 0
  calls : Nat := 0

/-- The state after the constructor. -/
def State.init : State := {}

/-- `queue_capacity_`. -/
def queueCapacity (requested : Nat) : Nat := if requested = 0 then 1 else requested

/-- The result of a rejected request. -/
def backpressure (request : TransferRequest) : Result TransferReceipt :=
  .ofStatus (.make .backpressure
    ("提交队列已满，施加背压；failing_key.hash_id=" ++ toString request.key.hashId))

/-- The result of a request that the destructor finds in the queue. -/
def discarded : Result TransferReceipt := .ofStatus (.make .internal "数据面关停，请求未执行")

inductive Label where
  | accept (item : PendingItem)
  | reject (call : Nat) (request : TransferRequest)
  | notifyOne
  /-- The end of `cv_.wait` without a notification. -/
  | spurious
  | sleep
  | pop (item : PendingItem)
  | exit
  | submit (item : PendingItem)
  | answer (item : PendingItem) (result : Result TransferReceipt)
  | fulfil (item : PendingItem) (result : Result TransferReceipt)
  | shutdown
  | notifyAll
  | join
  | discard (item : PendingItem)
  | finish
deriving DecidableEq

/-- A waiting worker is woken and takes the mutex again. -/
def Worker.wake : Worker → Worker
  | asleep => locking
  | worker => worker

inductive Step (capacity : Nat) (s : State) : Label → State → Prop
  | accept (request : TransferRequest) (path : TransportPath)
      (hlive : s.destructor ≠ .finished)
      (hroom : ¬ (s.queue.length ≥ capacity ∨ s.shuttingDown = true)) :
      Step capacity s (.accept ⟨s.calls, { request with preferred := path }⟩)
        { s with
          queue := s.queue ++ [⟨s.calls, { request with preferred := path }⟩]
          notifies := s.notifies + 1
          calls := s.calls + 1 }
  | reject (request : TransferRequest) (hlive : s.destructor ≠ .finished)
      (hfull : s.queue.length ≥ capacity ∨ s.shuttingDown = true) :
      Step capacity s (.reject s.calls request) { s with calls := s.calls + 1 }
  | notifyOne (hnotify : 0 < s.notifies) :
      Step capacity s .notifyOne
        { s with notifies := s.notifies - 1, worker := s.worker.wake }
  | spurious (hworker : s.worker = .asleep) :
      Step capacity s .spurious { s with worker := .locking }
  | sleep (hworker : s.worker = .locking)
      (hwait : ¬ (s.shuttingDown = true ∨ s.queue ≠ [])) :
      Step capacity s .sleep { s with worker := .asleep }
  | pop {item : PendingItem} {rest : List PendingItem} (hworker : s.worker = .locking)
      (hqueue : s.queue = item :: rest) :
      Step capacity s (.pop item) { s with worker := .popped item, queue := rest }
  | exit (hworker : s.worker = .locking) (hshut : s.shuttingDown = true)
      (hqueue : s.queue = []) : Step capacity s .exit { s with worker := .exited }
  | submit {item : PendingItem} (hworker : s.worker = .popped item) :
      Step capacity s (.submit item) { s with worker := .submitted item }
  | answer {item : PendingItem} (result : Result TransferReceipt)
      (hworker : s.worker = .submitted item) :
      Step capacity s (.answer item result) { s with worker := .answered item result }
  | fulfil {item : PendingItem} {result : Result TransferReceipt}
      (hworker : s.worker = .answered item result) :
      Step capacity s (.fulfil item result) { s with worker := .locking }
  | shutdown (hdestructor : s.destructor = .notStarted) :
      Step capacity s .shutdown { s with shuttingDown := true, destructor := .flagged }
  | notifyAll (hdestructor : s.destructor = .flagged) :
      Step capacity s .notifyAll { s with worker := s.worker.wake, destructor := .notified }
  | join (hdestructor : s.destructor = .notified) (hworker : s.worker = .exited) :
      Step capacity s .join { s with destructor := .joined }
  | discard {item : PendingItem} {rest : List PendingItem} (hdestructor : s.destructor = .joined)
      (hqueue : s.queue = item :: rest) :
      Step capacity s (.discard item) { s with queue := rest }
  | finish (hdestructor : s.destructor = .joined) (hqueue : s.queue = []) :
      Step capacity s .finish { s with destructor := .finished }

end TieredKVCache.DataPath
