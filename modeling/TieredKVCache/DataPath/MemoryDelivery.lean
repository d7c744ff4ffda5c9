import TieredKVCache.Adapter.Destination
import TieredKVCache.DataPath.RoundTrip
import TieredKVCache.DataPath.TransferRuns
import TieredKVCache.Lib.Memory

/-!
# The pipeline over the backend of the tests

A `DataPath` with a `FakeTransferBackend` behind it, in the memory of the process. `SubmitAsync`
decides under its mutex whether to copy, and copies later; clients write to the memory and call the
backend at any time. A copy writes what its source has at that moment, and nothing but the
destination of an accepted request. So a block that is serialized into the source arrives in the
destination and is deserialized there, unless somebody writes to the one before the copy or to the
other after it (`memoryPath_delivers`).
-/

namespace TieredKVCache.DataPath

open Adapter Lib

/-- What clients call, and what tests set, of the backend. -/
inductive FakeCall where
  | registerBuffer (addr len : Nat) (onGpu : Bool)
  | deregisterBuffer (handle : BufferHandle)
  | failNextTransfer (count : Int)
  | setAvailable (rdma gpuDirect : Bool)

def FakeCall.run (backend : FakeTransferBackend) : FakeCall → FakeTransferBackend
  | registerBuffer addr len onGpu => (backend.registerBuffer addr len onGpu).2
  | deregisterBuffer handle => (backend.deregisterBuffer handle).2
  | failNextTransfer count => { backend with failNextTransfer := count }
  | setAvailable rdma gpuDirect =>
    { backend with rdmaAvailable := rdma, gpuDirectAvailable := gpuDirect }

/-- A `DataPath`, its backend, and the memory of the process. -/
structure MemoryPath where
  path : State
  backend : FakeTransferBackend
  memory : Nat → UInt8
  /-- What the worker's call of `SubmitAsync` has still to copy, and what its future holds. -/
  future : Option (Option Memcpy × Result TransferReceipt) := none

inductive MemoryLabel where
  | path (label : Label)
  | copied (call : Nat) (copy : Memcpy)
  | wrote (addr : Nat) (bytes : List UInt8)
  | called (call : FakeCall)

/-- What a step does to the memory. -/
def MemoryLabel.apply (memory : Nat → UInt8) : MemoryLabel → Nat → UInt8
  | copied _ copy => store memory copy.dest (load memory copy.src copy.count)
  | wrote addr bytes => store memory addr bytes
  | _ => memory

def memoryAfter (memory : Nat → UInt8) (trace : List MemoryLabel) : Nat → UInt8 :=
  trace.foldl MemoryLabel.apply memory

/-- The range that a step writes. -/
def MemoryLabel.written : MemoryLabel → Option ByteRange
  | copied _ copy => some copy.written
  | wrote addr bytes => some ⟨addr, bytes.length⟩
  | _ => none

def MemoryLabel.onPath : MemoryLabel → Option Label
  | path label => some label
  | _ => none

def onPath (trace : List MemoryLabel) : List Label := trace.filterMap MemoryLabel.onPath

/-- A copy between overlapping buffers is undefined, and has no step. -/
inductive MemoryPathStep (capacity : Nat) (s : MemoryPath) : MemoryLabel → MemoryPath → Prop
  | path {label : Label} {path : State} (hstep : Step capacity s.path label path)
      (hlocal : label.Local fun request => s.backend.selectPath request) :
      MemoryPathStep capacity s (.path label) { s with path }
  | submit {item : PendingItem} {path : State} {copy : Option Memcpy}
      {result : Result TransferReceipt} {backend : FakeTransferBackend}
      (hstep : Step capacity s.path (.submit item) path)
      (hsubmit : s.backend.submitAsync item.request = (copy, result, backend)) :
      MemoryPathStep capacity s (.path (.submit item))
        { s with path, backend, future := some (copy, result) }
  | copy {item : PendingItem} {copy : Memcpy} {result : Result TransferReceipt}
      (hworker : s.path.worker = .submitted item) (hfuture : s.future = some (some copy, result))
      (hapart : Apart copy.src copy.count copy.dest copy.count) :
      MemoryPathStep capacity s (.copied item.call copy)
        { s with
          memory := MemoryLabel.apply s.memory (.copied item.call copy)
          future := some (none, result) }
  | answer {item : PendingItem} {result : Result TransferReceipt} {path : State}
      (hstep : Step capacity s.path (.answer item result) path)
      (hfuture : s.future = some (none, result)) :
      MemoryPathStep capacity s (.path (.answer item result)) { s with path, future := none }
  | write (addr : Nat) (bytes : List UInt8) :
      MemoryPathStep capacity s (.wrote addr bytes)
        { s with memory := MemoryLabel.apply s.memory (.wrote addr bytes) }
  | call (call : FakeCall) :
      MemoryPathStep capacity s (.called call) { s with backend := call.run s.backend }

/-! ## What a transfer does -/

/-- The copy that a request asks for. -/
def copyOf (request : TransferRequest) : Memcpy :=
  ⟨request.dst.addr, request.src.addr, min request.src.length request.dst.length⟩

/-- `SubmitAsync` copies and gives a receipt, or does neither. -/
theorem fake_submitAsync_cases (backend : FakeTransferBackend) (request : TransferRequest) :
    (∃ path, (backend.submitAsync request).1 = some (copyOf request) ∧
        (backend.submitAsync request).2.1 =
          .ok ⟨request.key, path, min request.src.length request.dst.length⟩) ∨
      (backend.submitAsync request).1 = none ∧
        ∃ error, (backend.submitAsync request).2.1 = .error error := by
  have hbytes : (if request.src.length < request.dst.length then request.src.length
      else request.dst.length) = min request.src.length request.dst.length := by
    split <;> omega
  unfold FakeTransferBackend.submitAsync copyOf
  dsimp only
  split
  next => exact .inr ⟨rfl, _, rfl⟩
  next =>
    split
    next => exact .inr ⟨rfl, _, rfl⟩
    next =>
      rw [hbytes]
      exact .inl ⟨_, rfl, rfl⟩

/-- No step writes to the range. -/
def Untouched (range : ByteRange) (trace : List MemoryLabel) : Prop :=
  ∀ label ∈ trace, ∀ written, label.written = some written →
    Apart written.addr written.length range.addr range.length

theorem load_memoryAfter {range : ByteRange} {trace : List MemoryLabel}
    (h : Untouched range trace) (memory : Nat → UInt8) :
    load (memoryAfter memory trace) range.addr range.length =
      load memory range.addr range.length := by
  refine load_foldl_of_apart (fun label hlabel memory => ?_) memory
  cases label with
  | copied call copy =>
    apply load_store_of_apart
    rw [length_load]
    exact h _ hlabel _ rfl
  | wrote addr bytes => exact load_store_of_apart _ (h _ hlabel _ rfl)
  | path label => rfl
  | called call => rfl

theorem memoryAfter_append (memory : Nat → UInt8) (trace trace' : List MemoryLabel) :
    memoryAfter memory (trace ++ trace') = memoryAfter (memoryAfter memory trace) trace' :=
  List.foldl_append

/-- The request was accepted, and copied. -/
def Moved (trace : List MemoryLabel) (item : PendingItem) : Prop :=
  ∃ before during after, trace =
    before ++ .path (.accept item) :: during ++ .copied item.call (copyOf item.request) :: after

/-- What a copied request leaves in the destination. -/
theorem load_of_moved {trace before during after : List MemoryLabel} {item : PendingItem}
    (htrace : trace = before ++ .path (.accept item) :: during ++
      .copied item.call (copyOf item.request) :: after) {n : Nat}
    (hn : n ≤ min item.request.src.length item.request.dst.length)
    (hsrc : Untouched ⟨item.request.src.addr, n⟩ during)
    (hdst : Untouched ⟨item.request.dst.addr, n⟩ after) (memory : Nat → UInt8) :
    load (memoryAfter memory trace) item.request.dst.addr n =
      load (memoryAfter memory before) item.request.src.addr n := by
  let copied : Nat → UInt8 := memoryAfter (memoryAfter memory before) during
  calc load (memoryAfter memory trace) item.request.dst.addr n
      = load (memoryAfter (MemoryLabel.apply copied
          (.copied item.call (copyOf item.request))) after) item.request.dst.addr n := by
        rw [htrace, memoryAfter_append, memoryAfter_append]
        rfl
    _ = load (MemoryLabel.apply copied (.copied item.call (copyOf item.request)))
          item.request.dst.addr n := load_memoryAfter hdst _
    _ = load copied item.request.src.addr n := load_store_load _ _ _ hn
    _ = load (memoryAfter memory before) item.request.src.addr n := load_memoryAfter hsrc _

/-! ## Runs -/

/-- The call has copied nothing. -/
def Uncopied (trace : List MemoryLabel) (call : Nat) : Prop := ∀ copy, .copied call copy ∉ trace

/-- What a result says of the memory. -/
def Outcome (trace : List MemoryLabel) (item : PendingItem) : Result TransferReceipt → Prop
  | .ok receipt => Moved trace item ∧ receipt.key = item.request.key ∧
      receipt.transferredBytes = min item.request.src.length item.request.dst.length
  | .error _ => Uncopied trace item.call

/-- What the future of the worker has to do with the item that it has submitted. -/
structure Promised (trace : List MemoryLabel) (item : PendingItem)
    (future : Option Memcpy × Result TransferReceipt) : Prop where
  copying : ∀ copy, future.1 = some copy → copy = copyOf item.request ∧
    Uncopied trace item.call ∧ ∃ path, future.2 =
      .ok ⟨item.request.key, path, min item.request.src.length item.request.dst.length⟩
  settled : future.1 = none → Outcome trace item future.2

/-- The system after a run from the memory `start`. -/
structure Carried (requested : Nat) (start : Nat → UInt8) (trace : List MemoryLabel)
    (s : MemoryPath) : Prop where
  path : Run (Step (queueCapacity requested)) .init (onPath trace) s.path
  memory : s.memory = memoryAfter start trace
  promised : ∀ item, s.path.worker = .submitted item →
    ∃ future, s.future = some future ∧ Promised trace item future
  answered : ∀ pair ∈ shown Label.answered (onPath trace), Outcome trace pair.1 pair.2
  copied : ∀ call copy, .copied call copy ∈ trace →
    ∃ item ∈ shown Label.submitted (onPath trace), item.call = call ∧ copy = copyOf item.request

section

variable {requested : Nat} {start : Nat → UInt8} {trace : List MemoryLabel} {s s' : MemoryPath}
  {label : MemoryLabel} {item : PendingItem}

theorem carried_init (requested : Nat) (backend : FakeTransferBackend) (start : Nat → UInt8) :
    Carried requested start [] ⟨.init, backend, start, none⟩ where
  path := .nil
  memory := rfl
  promised _ hworker := by cases hworker
  answered _ hpair := by cases hpair
  copied _ _ hcopied := by cases hcopied

theorem Moved.snoc (h : Moved trace item) : Moved (trace ++ [label]) item := by
  obtain ⟨before, during, after, rfl⟩ := h
  exact ⟨before, during, after ++ [label], by simp⟩

theorem Uncopied.snoc {call : Nat} (h : Uncopied trace call)
    (hlabel : ∀ copy, label ≠ .copied call copy) : Uncopied (trace ++ [label]) call := by
  intro copy hmem
  rcases List.mem_append.mp hmem with hmem | hmem
  · exact h copy hmem
  · exact hlabel copy (List.mem_singleton.mp hmem).symm

theorem Outcome.snoc {result : Result TransferReceipt} (h : Outcome trace item result)
    (hlabel : ∀ copy, label ≠ .copied item.call copy) :
    Outcome (trace ++ [label]) item result := by
  cases result with
  | ok receipt => exact ⟨h.1.snoc, h.2⟩
  | error error => exact Uncopied.snoc h hlabel

theorem Promised.snoc {future : Option Memcpy × Result TransferReceipt}
    (h : Promised trace item future) (hlabel : ∀ copy, label ≠ .copied item.call copy) :
    Promised (trace ++ [label]) item future where
  copying copy hcopy := by
    obtain ⟨heq, huncopied, hresult⟩ := h.copying copy hcopy
    exact ⟨heq, huncopied.snoc hlabel, hresult⟩
  settled hnone := (h.settled hnone).snoc hlabel

theorem Carried.tracked (h : Carried requested start trace s) : Tracked (onPath trace) s.path :=
  (wired_and_tracked requested h.path).2

theorem shown_onPath_snoc {α : Type} (f : Label → Option α) (trace : List MemoryLabel)
    (label : MemoryLabel) : shown f (onPath (trace ++ [label])) =
      shown f (onPath trace) ++ (label.onPath.bind f).toList :=
  shown_filterMap_concat f MemoryLabel.onPath trace label

theorem Carried.path_snoc (h : Carried requested start trace s) {path : State}
    (hpath : Moves (Step (queueCapacity requested)) label.onPath s.path path) :
    Run (Step (queueCapacity requested)) .init (onPath (trace ++ [label])) path := by
  rw [onPath, filterMap_concat]
  exact h.path.moves hpath

theorem memoryAfter_snoc (memory : Nat → UInt8) (trace : List MemoryLabel)
    (label : MemoryLabel) :
    memoryAfter memory (trace ++ [label]) = label.apply (memoryAfter memory trace) := by
  rw [memoryAfter, List.foldl_append]
  rfl

/-- A step that copies nothing. -/
theorem Carried.copied_snoc (h : Carried requested start trace s)
    (hlabel : ∀ call copy, label ≠ .copied call copy) {call : Nat} {copy : Memcpy}
    (hcopied : .copied call copy ∈ trace ++ [label]) :
    ∃ item ∈ shown Label.submitted (onPath (trace ++ [label])),
      item.call = call ∧ copy = copyOf item.request := by
  rcases List.mem_append.mp hcopied with hmem | hmem
  · obtain ⟨item, hitem, hcopy⟩ := h.copied call copy hmem
    rw [shown_onPath_snoc]
    exact ⟨item, List.mem_append_left _ hitem, hcopy⟩
  · exact absurd (List.mem_singleton.mp hmem).symm (hlabel call copy)

/-- A step that copies nothing, and neither submits nor answers. -/
theorem Carried.snoc (h : Carried requested start trace s)
    (hpath : Moves (Step (queueCapacity requested)) label.onPath s.path s'.path)
    (hmemory : s'.memory = label.apply s.memory) (hfuture : s'.future = s.future)
    (hworker : ∀ item, s'.path.worker = .submitted item → s.path.worker = .submitted item)
    (hlabel : ∀ call copy, label ≠ .copied call copy)
    (hanswered : label.onPath.bind Label.answered = none) :
    Carried requested start (trace ++ [label]) s' := by
  refine ⟨h.path_snoc hpath, ?_, fun item hitem => ?_, ?_, fun call copy => h.copied_snoc hlabel⟩
  · rw [memoryAfter_snoc, ← h.memory, hmemory]
  · obtain ⟨future, hready, hpromised⟩ := h.promised item (hworker item hitem)
    exact ⟨future, hfuture.trans hready, hpromised.snoc (hlabel item.call)⟩
  · rw [shown_onPath_snoc, hanswered, Option.toList_none, List.append_nil]
    exact fun pair hpair => (h.answered pair hpair).snoc (hlabel pair.1.call)

/-- An item that is about to be submitted has not been copied. -/
theorem Carried.uncopied (h : Carried requested start trace s)
    (hworker : s.path.worker = .popped item) : Uncopied trace item.call := by
  intro copy hcopied
  obtain ⟨item', hitem', hcall, -⟩ := h.copied _ _ hcopied
  have hcalls := h.tracked.called_nodup.sublist (accepted_sublist _)
  rw [h.tracked.accepted, hworker, List.map_append, List.map_append, List.append_assoc] at hcalls
  exact List.disjoint_of_nodup_append hcalls (List.mem_map_of_mem hitem') (by simp [hcall])

theorem Carried.step_submit (h : Carried requested start trace s) {path : State}
    {copy : Option Memcpy} {result : Result TransferReceipt} {backend : FakeTransferBackend}
    (hstep : Step (queueCapacity requested) s.path (.submit item) path)
    (hsubmit : s.backend.submitAsync item.request = (copy, result, backend)) :
    Carried requested start (trace ++ [.path (.submit item)])
      { s with path, backend, future := some (copy, result) } := by
  have hlabel : ∀ call copy, MemoryLabel.path (.submit item) ≠ .copied call copy := by simp
  have hsteps := hstep
  cases hstep with
  | submit hworker =>
    refine ⟨h.path_snoc hsteps, ?_, fun item' hitem => ⟨_, rfl, ?_⟩, ?_,
      fun call copy => h.copied_snoc hlabel⟩
    · rw [memoryAfter_snoc, ← h.memory]
      rfl
    · cases hitem
      have huncopied := (h.uncopied hworker).snoc (hlabel item.call)
      have hcases := fake_submitAsync_cases s.backend item.request
      rw [hsubmit] at hcases
      rcases hcases with ⟨path, hcopy, hresult⟩ | ⟨hnone, error, hresult⟩
      · refine ⟨fun copy' hcopy' => ?_, fun hnone => ?_⟩
        · cases hcopy'.symm.trans hcopy
          exact ⟨rfl, huncopied, path, hresult⟩
        · cases hnone.symm.trans hcopy
      · refine ⟨fun copy' hcopy' => ?_, fun _ => ?_⟩
        · cases hcopy'.symm.trans hnone
        · obtain rfl : result = .error error := hresult
          exact huncopied
    · rw [shown_onPath_snoc]
      refine List.forall_mem_append.mpr ⟨fun pair hpair => ?_, List.forall_mem_nil _⟩
      exact (h.answered pair hpair).snoc (hlabel pair.1.call)

/-- What the worker has submitted was accepted, and is not answered. -/
theorem Carried.submitted_item (h : Carried requested start trace s)
    (hworker : s.path.worker = .submitted item) :
    item ∈ shown Label.submitted (onPath trace) ∧
      (∃ before during, trace = before ++ .path (.accept item) :: during) ∧
      ∀ pair ∈ shown Label.answered (onPath trace), pair.1.call ≠ item.call := by
  have hsubmitted : item ∈ shown Label.submitted (onPath trace) := by
    rw [h.tracked.submitted, hworker]
    exact List.mem_append_right _ (List.mem_singleton_self item)
  refine ⟨hsubmitted, ?_, fun pair hpair hcall => ?_⟩
  · obtain ⟨label, hlabel, haccepted⟩ := mem_shown.mp (h.tracked.submitted_prefix.subset hsubmitted)
    obtain ⟨label', hlabel', hpath⟩ := List.mem_filterMap.mp hlabel
    cases label with
    | accept item' =>
      obtain rfl : item' = item := Option.some.inj haccepted
      cases label' with
      | path label =>
        cases hpath
        obtain ⟨before, during, htrace⟩ := List.append_of_mem hlabel'
        exact ⟨before, during, htrace⟩
      | _ => cases hpath
    | _ => cases haccepted
  · have hcalls := h.tracked.called_nodup.sublist
      ((h.tracked.submitted_prefix.sublist.map _).trans (accepted_sublist _))
    rw [h.tracked.submitted, hworker, List.map_append] at hcalls
    refine List.disjoint_of_nodup_append hcalls
      (List.mem_map_of_mem (List.mem_map_of_mem hpair)) ?_
    simp [hcall]

theorem Carried.step_copy (h : Carried requested start trace s) {copy : Memcpy}
    {result : Result TransferReceipt} (hworker : s.path.worker = .submitted item)
    (hfuture : s.future = some (some copy, result)) :
    Carried requested start (trace ++ [.copied item.call copy])
      { s with
        memory := MemoryLabel.apply s.memory (.copied item.call copy)
        future := some (none, result) } := by
  obtain ⟨hsubmitted, ⟨before, during, htrace⟩, hothers⟩ := h.submitted_item hworker
  obtain ⟨future, hready, hpromised⟩ := h.promised item hworker
  cases hfuture.symm.trans hready
  obtain ⟨rfl, -, path, hresult⟩ := hpromised.copying copy rfl
  refine ⟨h.path_snoc rfl, ?_, fun item' hitem => ⟨_, rfl, ?_⟩, ?_, fun call copy hcopied => ?_⟩
  · rw [memoryAfter_snoc, ← h.memory]
  · cases hworker.symm.trans hitem
    refine ⟨fun copy hcopy => (by cases hcopy), fun _ => ?_⟩
    obtain rfl : result = .ok _ := hresult
    exact ⟨⟨before, during, [], by rw [htrace]⟩, rfl, rfl⟩
  · rw [shown_onPath_snoc]
    refine List.forall_mem_append.mpr ⟨fun pair hpair => ?_, List.forall_mem_nil _⟩
    refine (h.answered pair hpair).snoc fun copy heq => hothers pair hpair ?_
    exact (MemoryLabel.copied.inj heq).1.symm
  · rw [shown_onPath_snoc]
    rcases List.mem_append.mp hcopied with hmem | hmem
    · obtain ⟨item', hitem', hcopy⟩ := h.copied call copy hmem
      exact ⟨item', List.mem_append_left _ hitem', hcopy⟩
    · cases List.mem_singleton.mp hmem
      exact ⟨item, List.mem_append_left _ hsubmitted, rfl, rfl⟩

theorem Carried.step_answer (h : Carried requested start trace s)
    {result : Result TransferReceipt} {path : State}
    (hstep : Step (queueCapacity requested) s.path (.answer item result) path)
    (hfuture : s.future = some (none, result)) :
    Carried requested start (trace ++ [.path (.answer item result)])
      { s with path, future := none } := by
  have hlabel : ∀ call copy, MemoryLabel.path (.answer item result) ≠ .copied call copy := by simp
  have hsteps := hstep
  cases hstep with
  | answer _ hworker =>
    obtain ⟨future, hready, hpromised⟩ := h.promised item hworker
    cases hfuture.symm.trans hready
    refine ⟨h.path_snoc hsteps, ?_, fun item' hitem => (by cases hitem), ?_,
      fun call copy => h.copied_snoc hlabel⟩
    · rw [memoryAfter_snoc, ← h.memory]
      rfl
    · rw [shown_onPath_snoc]
      refine List.forall_mem_append.mpr ⟨fun pair hpair => ?_, List.forall_mem_singleton.mpr ?_⟩
      · exact (h.answered pair hpair).snoc (hlabel pair.1.call)
      · exact (hpromised.settled rfl).snoc (hlabel item.call)

theorem Carried.step (h : Carried requested start trace s)
    (hstep : MemoryPathStep (queueCapacity requested) s label s') :
    Carried requested start (trace ++ [label]) s' := by
  cases hstep with
  | path hstep hlocal =>
    obtain ⟨hsubmitted, hanswered⟩ := hlocal.shown
    exact h.snoc hstep rfl rfl (fun item hitem => hstep.waited hitem hsubmitted) (by simp)
      hanswered
  | submit hstep hsubmit => exact h.step_submit hstep hsubmit
  | copy hworker hfuture => exact h.step_copy hworker hfuture
  | answer hstep hfuture => exact h.step_answer hstep hfuture
  | write => exact h.snoc rfl rfl rfl (fun _ => id) (by simp) rfl
  | call => exact h.snoc rfl rfl rfl (fun _ => id) (by simp) rfl

end

/-! ## Delivery -/

/-- What the pipeline has done to the memory `start`. -/
structure MemoryDelivers (requested : Nat) (start : Nat → UInt8) (trace : List MemoryLabel)
    (s : MemoryPath) : Prop where
  path : Delivers (queueCapacity requested) (onPath trace) s.path
  memory : s.memory = memoryAfter start trace
  /-- A receipt means that the destination was given what the source had. -/
  received : ∀ item receipt, (item, .ok receipt) ∈ shown Label.answered (onPath trace) →
    receipt.key = item.request.key ∧
      receipt.transferredBytes = min item.request.src.length item.request.dst.length ∧
      ∃ before during after, trace = before ++ .path (.accept item) :: during ++
          .copied item.call (copyOf item.request) :: after ∧
        ∀ n ≤ receipt.transferredBytes, Untouched ⟨item.request.src.addr, n⟩ during →
          Untouched ⟨item.request.dst.addr, n⟩ after →
          load s.memory item.request.dst.addr n =
            load (memoryAfter start before) item.request.src.addr n ∧
          ∀ block, Encodable block →
            (serialize block).bytes = load (memoryAfter start before) item.request.src.addr n →
            deserialize ⟨load s.memory item.request.dst.addr n⟩ = .ok (.ok block)
  /-- A transfer that fails has written nothing. -/
  failed : ∀ item error, (item, .error error) ∈ shown Label.answered (onPath trace) →
    Uncopied trace item.call
  /-- Nothing is written outside the destinations. -/
  inside : ∀ call copy, .copied call copy ∈ trace →
    ∃ item ∈ shown Label.accepted (onPath trace), item.call = call ∧
      copy.written.Inside item.request

/-- **Delivery in memory.** In every interleaving of the clients, the worker and the destructor, a
receipt means that the destination got the bytes of the source, so that a serialized block can be
deserialized there; and nothing else is written. -/
theorem memoryPath_delivers (requested : Nat) (backend : FakeTransferBackend)
    (start : Nat → UInt8) (trace : List MemoryLabel) (s : MemoryPath)
    (h : Run (MemoryPathStep (queueCapacity requested)) ⟨.init, backend, start, none⟩ trace s) :
    MemoryDelivers requested start trace s := by
  have hcarried : Carried requested start trace s :=
    h.invariant (carried_init requested backend start) Carried.step
  obtain ⟨hwired, htracked⟩ := wired_and_tracked requested hcarried.path
  refine ⟨htracked.delivers hwired, hcarried.memory, fun item receipt hpair => ?_,
    fun item error hpair => hcarried.answered _ hpair, fun call copy hcopied => ?_⟩
  · obtain ⟨⟨before, during, after, htrace⟩, hkey, hbytes⟩ := hcarried.answered _ hpair
    refine ⟨hkey, hbytes, before, during, after, htrace, fun n hn hsrc hdst => ?_⟩
    have hload := load_of_moved htrace (hbytes ▸ hn) hsrc hdst start
    rw [hcarried.memory]
    refine ⟨hload, fun block hencodable hblock => ?_⟩
    rw [hload, ← hblock]
    exact deserialize_serialize hencodable
  · obtain ⟨item, hitem, hcall, rfl⟩ := hcarried.copied call copy hcopied
    exact ⟨item, htracked.submitted_prefix.subset hitem, hcall, rfl, Nat.le_refl _⟩

/-- From one buffer of 56 bytes to another. -/
def blockTransfer : TransferRequest :=
  ⟨{}, ⟨4096, 56, 1, false⟩, ⟨8192, 56, 2, false⟩, .rdma⟩

def blockBackend : FakeTransferBackend :=
  (FakeTransferBackend.registerBuffer 8192 56 false
    (FakeTransferBackend.registerBuffer 4096 56 false {}).2).2

theorem memoryPath_delivers_fourByteBlock : ∃ trace s,
    .wrote 4096 (serialize (fourByteBlock 2)).bytes ∈ trace ∧
      (⟨0, blockTransfer⟩, .ok ⟨{}, .rdma, 56⟩) ∈ shown Label.answered (onPath trace) ∧
      MemoryDelivers 1 (fun _ => 0) trace s := by
  have hrun : ∃ trace s, Run (MemoryPathStep (queueCapacity 1))
      ⟨.init, {}, fun _ => 0, none⟩ trace s ∧
      .wrote 4096 (serialize (fourByteBlock 2)).bytes ∈ trace ∧
      (⟨0, blockTransfer⟩, .ok ⟨{}, .rdma, 56⟩) ∈ shown Label.answered (onPath trace) := by
    refine ⟨_, _, .snoc (.snoc (.snoc (.snoc (.snoc (.snoc (.snoc (.snoc .nil
      (.call (.registerBuffer 4096 56 false)))
      (.call (.registerBuffer 8192 56 false)))
      (.write 4096 (serialize (fourByteBlock 2)).bytes))
      (.path (.accept blockTransfer .rdma (by decide) (by decide)) rfl))
      (.path (.pop rfl rfl) trivial))
      (.submit (.submit rfl) (show blockBackend.submitAsync blockTransfer = _ from rfl)))
      (.copy rfl rfl (by decide)))
      (.answer (.answer (.ok ⟨{}, .rdma, 56⟩) rfl) rfl), ?_, ?_⟩
    · simp
    · simp only [onPath, MemoryLabel.onPath, shown]
      exact List.mem_singleton_self _
  obtain ⟨trace, s, hrun, hwrote, hanswered⟩ := hrun
  exact ⟨trace, s, hwrote, hanswered, memoryPath_delivers 1 {} (fun _ => 0) trace s hrun⟩

end TieredKVCache.DataPath
