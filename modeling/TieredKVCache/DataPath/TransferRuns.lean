import Mathlib.Data.List.Nodup
import Mathlib.Data.List.Range
import Mathlib.Data.List.Perm.Basic
import TieredKVCache.DataPath.Transfer

/-!
# Runs of the asynchronous pipeline

`Wired` is the invariant of the states alone: the bound of the queue, the order of the steps of the
destructor, and that no wakeup is lost (`Wired.wakeup`). `Tracked` relates a trace to
the state it leads to: an accepted request passes through the queue, the hands of the worker and
the backend in order, and a promise is fulfilled when its call leaves the pipeline. The two
together give `transferAsync_correct`.
-/

namespace TieredKVCache.DataPath

open Adapter Lib

/-! ## What a trace shows -/

namespace Label

@[simp]
def accepted : Label → Option PendingItem
  | accept item => some item
  | _ => none

@[simp]
def submitted : Label → Option PendingItem
  | submit item => some item
  | _ => none

@[simp]
def answered : Label → Option (PendingItem × Result TransferReceipt)
  | answer item result => some (item, result)
  | _ => none

@[simp]
def delivered : Label → Option (PendingItem × Result TransferReceipt)
  | fulfil item result => some (item, result)
  | _ => none

/-- A call of `TransferAsync`. -/
@[simp]
def called : Label → Option Nat
  | accept item => some item.call
  | reject call _ => some call
  | _ => none

/-- A call of `set_value`: the promise and its result. -/
@[simp]
def resolved : Label → Option (Nat × Result TransferReceipt)
  | reject call request => some (call, backpressure request)
  | fulfil item result => some (item.call, result)
  | discard item => some (item.call, DataPath.discarded)
  | _ => none

end Label

/-- What the labels of a trace show, oldest first. -/
def shown {α : Type} (f : Label → Option α) (trace : List Label) : List α := trace.filterMap f

theorem shown_snoc {α : Type} (f : Label → Option α) (trace : List Label) (label : Label) :
    shown f (trace ++ [label]) = shown f trace ++ (f label).toList := by
  unfold shown
  rw [List.filterMap_append]
  cases h : f label <;> simp [h]

/-- What the trace of a system shows that the pipeline is a part of. -/
theorem shown_filterMap_concat {l α : Type} (f : Label → Option α) (onPath : l → Option Label)
    (trace : List l) (label : l) : shown f ((trace ++ [label]).filterMap onPath) =
      shown f (trace.filterMap onPath) ++ ((onPath label).bind f).toList := by
  rw [filterMap_concat]
  cases onPath label with
  | none => exact (congrArg _ (List.append_nil _)).trans (List.append_nil _).symm
  | some label => exact shown_snoc f _ label

/-! ## What is in the pipeline -/

@[simp]
def Worker.unsubmitted : Worker → List PendingItem
  | popped item => [item]
  | _ => []

@[simp]
def Worker.unanswered : Worker → List PendingItem
  | submitted item => [item]
  | _ => []

@[simp]
def Worker.undelivered : Worker → List (PendingItem × Result TransferReceipt)
  | answered item result => [(item, result)]
  | _ => []

/-- The item in the hands of the worker. -/
def Worker.held (worker : Worker) : List PendingItem :=
  worker.undelivered.map Prod.fst ++ worker.unanswered ++ worker.unsubmitted

/-- The calls whose promise is in the pipeline. -/
def State.pending (s : State) : List Nat := (s.worker.held ++ s.queue).map PendingItem.call

@[simp]
theorem Worker.wake_unsubmitted (worker : Worker) :
    worker.wake.unsubmitted = worker.unsubmitted := by
  cases worker <;> rfl

@[simp]
theorem Worker.wake_unanswered (worker : Worker) : worker.wake.unanswered = worker.unanswered := by
  cases worker <;> rfl

@[simp]
theorem Worker.wake_undelivered (worker : Worker) :
    worker.wake.undelivered = worker.undelivered := by
  cases worker <;> rfl

theorem Worker.wake_ne_asleep (worker : Worker) : worker.wake ≠ .asleep := by
  cases worker <;> simp [wake]

theorem Worker.wake_eq_exited (worker : Worker) : worker.wake = .exited ↔ worker = .exited := by
  cases worker <;> simp [wake]

/-! ## The invariant of the states -/

structure Wired (capacity : Nat) (s : State) : Prop where
  bounded : s.queue.length ≤ capacity
  flag : s.shuttingDown = true ↔ s.destructor ≠ .notStarted
  exited : s.worker = .exited → s.shuttingDown = true ∧ s.queue = []
  joined : s.destructor = .joined ∨ s.destructor = .finished → s.worker = .exited
  /-- A worker that sleeps while there is something to do is about to be woken. -/
  wakeup : s.worker = .asleep → s.shuttingDown = true ∨ s.queue ≠ [] →
    0 < s.notifies ∨ s.destructor = .flagged

variable {capacity : Nat} {s s' : State} {label : Label} {trace : List Label}

theorem wired_init (capacity : Nat) : Wired capacity State.init where
  bounded := Nat.zero_le _
  flag := by simp [State.init]
  exited h := by cases h
  joined h := by simp [State.init] at h
  wakeup h := by cases h

/-- The worker goes from one place in its loop to another. -/
theorem Wired.moves (hwired : Wired capacity s) {worker : Worker} (hbusy : s.worker ≠ .exited)
    (hexited : worker ≠ .exited) (hawake : worker ≠ .asleep) :
    Wired capacity { s with worker := worker } where
  bounded := hwired.bounded
  flag := hwired.flag
  exited h := absurd h hexited
  joined h := absurd (hwired.joined h) hbusy
  wakeup h := absurd h hawake

theorem Wired.length_tail (hwired : Wired capacity s) {item : PendingItem}
    {rest : List PendingItem} (hqueue : s.queue = item :: rest) : rest.length ≤ capacity := by
  have hbounded := hwired.bounded
  rw [hqueue] at hbounded
  exact (Nat.le_succ _).trans hbounded

theorem Step.wired (h : Step capacity s label s') (hwired : Wired capacity s) :
    Wired capacity s' := by
  have ⟨hbounded, hflag, hexited, hjoined, hwakeup⟩ := hwired
  cases h with
  | accept request path hlive hroom =>
    refine ⟨?_, hflag, ?_, hjoined, fun _ _ => .inl (Nat.succ_pos _)⟩
    · rw [List.length_append, List.length_singleton]
      omega
    · intro hworker
      exact absurd (.inr (hexited hworker).1) hroom
  | reject request hlive hfull => exact ⟨hbounded, hflag, hexited, hjoined, hwakeup⟩
  | notifyOne hnotify =>
    refine ⟨hbounded, hflag, ?_, ?_, ?_⟩
    · exact fun hworker => hexited ((Worker.wake_eq_exited _).mp hworker)
    · exact fun hdestructor => (Worker.wake_eq_exited _).mpr (hjoined hdestructor)
    · exact fun hworker => absurd hworker (Worker.wake_ne_asleep _)
  | spurious hworker => exact hwired.moves (by simp [hworker]) (by simp) (by simp)
  | sleep hworker hwait =>
    refine ⟨hbounded, hflag, by simp, ?_, fun _ hwork => absurd hwork hwait⟩
    exact fun hdestructor => absurd (hjoined hdestructor) (by simp [hworker])
  | pop hworker hqueue =>
    refine ⟨hwired.length_tail hqueue, hflag, by simp, ?_, by simp⟩
    exact fun hdestructor => absurd (hjoined hdestructor) (by simp [hworker])
  | exit hworker hshut hqueue =>
    exact ⟨hbounded, hflag, fun _ => ⟨hshut, hqueue⟩, fun _ => rfl, by simp⟩
  | submit hworker => exact hwired.moves (by simp [hworker]) (by simp) (by simp)
  | answer result hworker => exact hwired.moves (by simp [hworker]) (by simp) (by simp)
  | fulfil hworker => exact hwired.moves (by simp [hworker]) (by simp) (by simp)
  | shutdown hdestructor =>
    refine ⟨hbounded, by simp, fun hworker => ⟨rfl, (hexited hworker).2⟩, ?_, fun _ _ => .inr rfl⟩
    simp
  | notifyAll hdestructor =>
    refine ⟨hbounded, by simp [hflag, hdestructor], ?_, by simp, ?_⟩
    · exact fun hworker => hexited ((Worker.wake_eq_exited _).mp hworker)
    · exact fun hworker => absurd hworker (Worker.wake_ne_asleep _)
  | join hdestructor hworker =>
    exact ⟨hbounded, by simp [hflag, hdestructor], hexited, fun _ => hworker, by simp [hworker]⟩
  | discard hdestructor hqueue =>
    have hworker := hjoined (.inl hdestructor)
    refine ⟨hwired.length_tail hqueue, hflag, ?_, fun _ => hworker, by simp [hworker]⟩
    intro _
    have hempty := (hexited hworker).2
    rw [hqueue] at hempty
    cases hempty
  | finish hdestructor hqueue =>
    have hworker := hjoined (.inl hdestructor)
    exact ⟨hbounded, by simp [hflag, hdestructor], hexited, fun _ => hworker, by simp [hworker]⟩

/-! ## The invariant of the traces -/

structure Tracked (trace : List Label) (s : State) : Prop where
  calls : shown Label.called trace = List.range s.calls
  accepted : shown Label.accepted trace =
    shown Label.submitted trace ++ s.worker.unsubmitted ++ s.queue
  submitted : shown Label.submitted trace =
    (shown Label.answered trace).map Prod.fst ++ s.worker.unanswered
  answered : shown Label.answered trace = shown Label.delivered trace ++ s.worker.undelivered
  resolved : ((shown Label.resolved trace).map Prod.fst ++ s.pending).Perm
    (shown Label.called trace)
  shut : .shutdown ∈ trace → s.shuttingDown = true
  closed : trace.Pairwise fun a b => a = .shutdown → ∀ item, b ≠ .accept item
  kept : ∀ item, .discard item ∉ trace

theorem tracked_init : Tracked [] State.init where
  calls := rfl
  accepted := rfl
  submitted := rfl
  answered := rfl
  resolved := .refl _
  shut h := by cases h
  closed := .nil
  kept _ h := by cases h

/-- After the shutdown no request is accepted. -/
theorem closed_snoc (htracked : Tracked trace s)
    (hlabel : ∀ item, label = .accept item → s.shuttingDown = false) :
    (trace ++ [label]).Pairwise fun a b => a = .shutdown → ∀ item, b ≠ .accept item := by
  rw [List.pairwise_append]
  refine ⟨htracked.closed, List.pairwise_singleton _ _, ?_⟩
  intro a ha b hb hshut item haccept
  rw [List.mem_singleton.mp hb] at haccept
  have hflag := htracked.shut (hshut ▸ ha)
  rw [hlabel item haccept] at hflag
  cases hflag

/-- The label shows nothing of a request. -/
def Label.Silent (label : Label) : Prop :=
  label.called = none ∧ label.accepted = none ∧ label.submitted = none ∧
    label.answered = none ∧ label.delivered = none ∧ label.resolved = none

/-- Two states with the same requests in the pipeline. -/
structure SameRequests (s s' : State) : Prop where
  calls : s'.calls = s.calls
  queue : s'.queue = s.queue
  unsubmitted : s'.worker.unsubmitted = s.worker.unsubmitted
  unanswered : s'.worker.unanswered = s.worker.unanswered
  undelivered : s'.worker.undelivered = s.worker.undelivered

theorem SameRequests.wake {destructor : Destructor} {notifies : Nat} : SameRequests s
    { s with worker := s.worker.wake, destructor := destructor, notifies := notifies } :=
  ⟨rfl, rfl, Worker.wake_unsubmitted _, Worker.wake_unanswered _, Worker.wake_undelivered _⟩

/-- A worker without an item that takes another step of its loop. -/
theorem SameRequests.idle {worker : Worker} (hidle : s.worker.held = [] ∧ worker.held = []) :
    SameRequests s { s with worker := worker } := by
  simp only [Worker.held, List.append_eq_nil_iff, List.map_eq_nil_iff] at hidle
  obtain ⟨⟨⟨hundelivered, hunanswered⟩, hunsubmitted⟩,
    ⟨⟨hundelivered', hunanswered'⟩, hunsubmitted'⟩⟩ := hidle
  exact ⟨rfl, rfl, hunsubmitted'.trans hunsubmitted.symm, hunanswered'.trans hunanswered.symm,
    hundelivered'.trans hundelivered.symm⟩

theorem Tracked.silent (htracked : Tracked trace s) (hlabel : label.Silent)
    (hsame : SameRequests s s')
    (hshut : label = .shutdown ∨ s.shuttingDown = true → s'.shuttingDown = true) :
    Tracked (trace ++ [label]) s' := by
  obtain ⟨hcalled, haccepted, hsubmitted, hanswered, hdelivered, hresolved⟩ := hlabel
  have hshown {α : Type} {f : Label → Option α} (hf : f label = none) :
      shown f (trace ++ [label]) = shown f trace := by
    simp [shown_snoc, hf]
  refine ⟨?_, ?_, ?_, ?_, ?_, ?_, closed_snoc htracked ?_, ?_⟩
  · rw [hshown hcalled, hsame.calls]
    exact htracked.calls
  · rw [hshown haccepted, hshown hsubmitted, hsame.unsubmitted, hsame.queue]
    exact htracked.accepted
  · rw [hshown hsubmitted, hshown hanswered, hsame.unanswered]
    exact htracked.submitted
  · rw [hshown hanswered, hshown hdelivered, hsame.undelivered]
    exact htracked.answered
  · rw [hshown hresolved, hshown hcalled, State.pending, Worker.held, hsame.undelivered,
      hsame.unanswered, hsame.unsubmitted, hsame.queue]
    exact htracked.resolved
  · intro hmem
    rcases List.mem_append.mp hmem with hmem | hmem
    · exact hshut (.inr (htracked.shut hmem))
    · exact hshut (.inl (List.mem_singleton.mp hmem).symm)
  · rintro item rfl
    cases haccepted
  · intro item hmem
    rcases List.mem_append.mp hmem with hmem | hmem
    · exact htracked.kept item hmem
    · rw [← List.mem_singleton.mp hmem] at hresolved
      cases hresolved

/-- The worker passes an item on: what the label shows has left the hands it was in. -/
theorem Tracked.passes (htracked : Tracked trace s) {worker : Worker} {queue : List PendingItem}
    (hlabel : label.called = none ∧ label.accepted = none)
    (haccepted : s.worker.unsubmitted ++ s.queue =
      label.submitted.toList ++ worker.unsubmitted ++ queue)
    (hsubmitted : s.worker.unanswered ++ label.submitted.toList =
      label.answered.toList.map Prod.fst ++ worker.unanswered)
    (hanswered : s.worker.undelivered ++ label.answered.toList =
      label.delivered.toList ++ worker.undelivered)
    (hresolved : s.pending = label.resolved.toList.map Prod.fst ++
      State.pending { s with worker := worker, queue := queue })
    (hworker : label ≠ .shutdown ∧ ∀ item, label ≠ .discard item) :
    Tracked (trace ++ [label]) { s with worker := worker, queue := queue } := by
  have hcalled : shown Label.called (trace ++ [label]) = shown Label.called trace := by
    rw [shown_snoc, hlabel.1, Option.toList_none, List.append_nil]
  refine ⟨hcalled.trans htracked.calls, ?accepted, ?submitted, ?answered, ?resolved, ?shut,
    closed_snoc htracked ?closed, ?kept⟩
  case accepted =>
    rw [shown_snoc, shown_snoc, hlabel.2, htracked.accepted]
    simpa using haccepted
  case submitted =>
    rw [shown_snoc, shown_snoc, List.map_append, List.append_assoc, ← hsubmitted,
      ← List.append_assoc, ← htracked.submitted]
  case answered =>
    rw [shown_snoc, shown_snoc, List.append_assoc, ← hanswered, ← List.append_assoc,
      ← htracked.answered]
  case resolved =>
    rw [hcalled, shown_snoc, List.map_append, List.append_assoc, ← hresolved]
    exact htracked.resolved
  case shut =>
    intro hmem
    rcases List.mem_append.mp hmem with hmem | hmem
    · exact htracked.shut hmem
    · exact absurd (List.mem_singleton.mp hmem).symm hworker.1
  case closed =>
    rintro item rfl
    cases hlabel.2
  case kept =>
    intro item hmem
    rcases List.mem_append.mp hmem with hmem | hmem
    · exact htracked.kept item hmem
    · exact hworker.2 item (List.mem_singleton.mp hmem).symm

theorem Step.tracked (h : Step capacity s label s') (hwired : Wired capacity s)
    (htracked : Tracked trace s) : Tracked (trace ++ [label]) s' := by
  have hmoved := htracked
  obtain ⟨hcalls, haccepted, hsubmitted, hanswered, hresolved, hshut, hclosed, hkept⟩ := hmoved
  have hsilent : label.Silent → SameRequests s s' →
      (label = .shutdown ∨ s.shuttingDown = true → s'.shuttingDown = true) →
      Tracked (trace ++ [label]) s' := htracked.silent
  cases h with
  | accept request path hlive hroom =>
    refine ⟨?_, ?_, ?_, ?_, ?_, ?_, closed_snoc htracked ?_, ?_⟩
    · simp [shown_snoc, hcalls, List.range_succ]
    · simp [shown_snoc, haccepted]
    · simp [shown_snoc, hsubmitted]
    · simp [shown_snoc, hanswered]
    · simpa [shown_snoc, State.pending] using hresolved.append_right [s.calls]
    · simpa using hshut
    · simp at hroom
      simp [hroom]
    · simpa using hkept
  | reject request hlive hfull =>
    refine ⟨?_, ?_, ?_, ?_, ?_, ?_, closed_snoc htracked (by simp), ?_⟩
    · simp [shown_snoc, hcalls, List.range_succ]
    · simp [shown_snoc, haccepted]
    · simp [shown_snoc, hsubmitted]
    · simp [shown_snoc, hanswered]
    · rw [shown_snoc, shown_snoc, List.map_append, List.append_assoc]
      exact List.perm_middle.trans
        ((hresolved.cons _).trans (List.perm_append_singleton _ _).symm)
    · simpa using hshut
    · simpa using hkept
  | pop hworker hqueue =>
    exact htracked.passes (by simp) (by simp [hworker, hqueue]) (by simp [hworker])
      (by simp [hworker]) (by simp [State.pending, Worker.held, hworker, hqueue]) (by simp)
  | submit hworker =>
    exact htracked.passes (by simp) (by simp [hworker]) (by simp [hworker]) (by simp [hworker])
      (by simp [State.pending, Worker.held, hworker]) (by simp)
  | answer result hworker =>
    exact htracked.passes (by simp) (by simp [hworker]) (by simp [hworker]) (by simp [hworker])
      (by simp [State.pending, Worker.held, hworker]) (by simp)
  | fulfil hworker =>
    exact htracked.passes (by simp) (by simp [hworker]) (by simp [hworker]) (by simp [hworker])
      (by simp [State.pending, Worker.held, hworker]) (by simp)
  | discard hdestructor hqueue =>
    have hexited := hwired.exited (hwired.joined (.inl hdestructor))
    rw [hqueue] at hexited
    cases hexited.2
  | notifyOne hnotify => exact hsilent (by simp [Label.Silent]) .wake (by simp)
  | spurious hworker =>
    exact hsilent (by simp [Label.Silent]) (.idle (by simp [Worker.held, hworker])) (by simp)
  | sleep hworker hwait =>
    exact hsilent (by simp [Label.Silent]) (.idle (by simp [Worker.held, hworker])) (by simp)
  | exit hworker hshut hqueue =>
    exact hsilent (by simp [Label.Silent]) (.idle (by simp [Worker.held, hworker])) (by simp)
  | shutdown hdestructor =>
    exact hsilent (by simp [Label.Silent]) ⟨rfl, rfl, rfl, rfl, rfl⟩ (by simp)
  | notifyAll hdestructor => exact hsilent (by simp [Label.Silent]) .wake (by simp)
  | join hdestructor hworker =>
    exact hsilent (by simp [Label.Silent]) ⟨rfl, rfl, rfl, rfl, rfl⟩ (by simp)
  | finish hdestructor hqueue =>
    exact hsilent (by simp [Label.Silent]) ⟨rfl, rfl, rfl, rfl, rfl⟩ (by simp)

/-! ## The part of the backend -/

/-- A step without a submission or an answer; an accepted request goes the way that `SelectPath`
says. -/
def Label.Local (select : TransferRequest → TransportPath) : Label → Prop
  | accept item => item.request.preferred = select item.request
  | submit _ | answer _ _ => False
  | _ => True

theorem Label.Local.shown {select : TransferRequest → TransportPath} (h : label.Local select) :
    label.submitted = none ∧ label.answered = none := by
  cases label with
  | submit item => cases h
  | answer item result => cases h
  | _ => exact ⟨rfl, rfl⟩

/-- The worker waits until there is an answer. -/
theorem Step.waits (h : Step capacity s label s') {item : PendingItem}
    (hworker : s.worker = .submitted item) (hanswer : label.answered = none) :
    s'.worker = .submitted item := by
  cases h with
  | answer result hworker' => cases hanswer
  | spurious hworker' | sleep hworker' | pop hworker' | exit hworker' | submit hworker'
  | fulfil hworker' => cases hworker.symm.trans hworker'
  | notifyOne | notifyAll =>
    show s.worker.wake = _
    rw [hworker]
    rfl
  | _ => exact hworker

/-- The worker waits only for what it has submitted. -/
theorem Step.waited (h : Step capacity s label s') {item : PendingItem}
    (hworker : s'.worker = .submitted item) (hsubmit : label.submitted = none) :
    s.worker = .submitted item := by
  cases h with
  | submit hworker' => cases hsubmit
  | answer | sleep | pop | exit | fulfil | spurious => cases hworker
  | notifyOne | notifyAll =>
    have hwake : s.worker.wake = .submitted item := hworker
    cases hbusy : s.worker <;> rw [hbusy] at hwake <;> cases hwake
    rfl
  | _ => exact hworker

/-! ## Progress -/

/-- A step of the pipeline itself: no call of a client, no start of the destructor, and no wakeup
out of nothing. -/
def Label.Internal : Label → Prop
  | accept _ | reject _ _ | spurious | shutdown => False
  | _ => True

def Worker.cost : Worker → Nat
  | popped _ => 4
  | submitted _ => 3
  | answered _ _ => 2
  | locking => 1
  | asleep | exited => 0

def Destructor.cost : Destructor → Nat
  | flagged => 6
  | notified => 4
  | joined => 2
  | notStarted | finished => 0

/-- A bound on the number of internal steps. -/
def State.work (s : State) : Nat :=
  6 * s.queue.length + 2 * s.notifies + s.worker.cost + s.destructor.cost

theorem Worker.wake_cost_le (worker : Worker) : worker.wake.cost ≤ worker.cost + 1 := by
  cases worker <;> simp [wake, cost]

theorem Step.work_lt (h : Step capacity s label s') (hinternal : label.Internal) :
    s'.work < s.work := by
  have hwake := s.worker.wake_cost_le
  cases h with
  | accept | reject | spurious | shutdown => cases hinternal
  | notifyOne hnotify =>
    simp only [State.work]
    omega
  | notifyAll hdestructor =>
    simp only [State.work, hdestructor, Destructor.cost]
    omega
  | pop hworker hqueue | discard hworker hqueue =>
    simp only [State.work, hworker, hqueue, Worker.cost, List.length_cons]
    omega
  | sleep hworker | exit hworker | submit hworker | answer _ hworker | fulfil hworker =>
    simp only [State.work, hworker, Worker.cost]
    omega
  | join hdestructor | finish hdestructor =>
    simp only [State.work, hdestructor, Destructor.cost]
    omega

/-- As long as a promise is open or the destructor is running, some thread can take a step. -/
theorem Wired.enabled (hwired : Wired capacity s)
    (hopen : s.pending ≠ [] ∨ s.destructor ≠ .notStarted ∧ s.destructor ≠ .finished) :
    ∃ label s', Step capacity s label s' ∧ label.Internal := by
  cases hworker : s.worker with
  | locking =>
    cases hqueue : s.queue with
    | cons item rest => exact ⟨_, _, .pop hworker hqueue, trivial⟩
    | nil =>
      by_cases hshut : s.shuttingDown = true
      · exact ⟨_, _, .exit hworker hshut hqueue, trivial⟩
      · exact ⟨_, _, .sleep hworker (by simp [hshut, hqueue]), trivial⟩
  | asleep =>
    have hwork : s.shuttingDown = true ∨ s.queue ≠ [] := by
      rcases hopen with hpending | hdestructor
      · refine .inr fun hqueue => hpending ?_
        simp [State.pending, Worker.held, hworker, hqueue]
      · exact .inl (hwired.flag.mpr hdestructor.1)
    rcases hwired.wakeup hworker hwork with hnotify | hdestructor
    · exact ⟨_, _, .notifyOne hnotify, trivial⟩
    · exact ⟨_, _, .notifyAll hdestructor, trivial⟩
  | popped item => exact ⟨_, _, .submit hworker, trivial⟩
  | submitted item => exact ⟨_, _, .answer discarded hworker, trivial⟩
  | answered item result => exact ⟨_, _, .fulfil hworker, trivial⟩
  | exited =>
    obtain ⟨hshut, hqueue⟩ := hwired.exited hworker
    have hpending : s.pending = [] := by simp [State.pending, Worker.held, hworker, hqueue]
    obtain ⟨hstarted, hunfinished⟩ := hopen.resolve_left (fun h => h hpending)
    cases hdestructor : s.destructor with
    | notStarted => exact absurd hdestructor hstarted
    | flagged => exact ⟨_, _, .notifyAll hdestructor, trivial⟩
    | notified => exact ⟨_, _, .join hdestructor hworker, trivial⟩
    | joined => exact ⟨_, _, .finish hdestructor hqueue, trivial⟩
    | finished => exact absurd hdestructor hunfinished

/-! ## The pipeline as a whole -/

structure Delivers (capacity : Nat) (trace : List Label) (s : State) : Prop where
  bounded : s.queue.length ≤ capacity
  /-- The promise of a call is fulfilled, once, or in the pipeline. -/
  once : ((shown Label.resolved trace).map Prod.fst ++ s.pending).Perm (List.range s.calls)
  rejected : ∀ call request, .reject call request ∈ trace →
    (call, backpressure request) ∈ shown Label.resolved trace ∧
      ∀ item ∈ shown Label.submitted trace, item.call ≠ call
  /-- An accepted request gets the answer of the backend to it. -/
  answered : ∀ item ∈ shown Label.accepted trace, item.call ∈ s.pending ∨
    ∃ result, (item, result) ∈ shown Label.answered trace ∧
      (item.call, result) ∈ shown Label.resolved trace
  fifo : shown Label.submitted trace <+: shown Label.accepted trace
  acceptedOnce : (shown Label.accepted trace).Nodup
  answeredOnce : (shown Label.answered trace).map Prod.fst <+: shown Label.submitted trace
  enabled : s.pending ≠ [] ∨ s.destructor ≠ .notStarted ∧ s.destructor ≠ .finished →
    ∃ label s', Step capacity s label s' ∧ label.Internal
  settles : ∀ label s', label.Internal → Step capacity s label s' → s'.work < s.work
  executed : s.destructor = .finished →
    s.pending = [] ∧ shown Label.submitted trace = shown Label.accepted trace
  /-- The loop over the leftover queue finds nothing. -/
  kept : ∀ item, .discard item ∉ trace
  closed : trace.Pairwise fun a b => a = .shutdown → ∀ item, b ≠ .accept item

theorem mem_shown {α : Type} {f : Label → Option α} {a : α} :
    a ∈ shown f trace ↔ ∃ label ∈ trace, f label = some a :=
  List.mem_filterMap

/-- No two labels show the same, where what is shown has no duplicates. -/
theorem shown_inj {α : Type} {f : Label → Option α} {a b : Label} {x : α}
    (hnodup : (shown f trace).Nodup) (ha : a ∈ trace) (hb : b ∈ trace) (hfa : f a = some x)
    (hfb : f b = some x) : a = b := by
  induction trace with
  | nil => cases ha
  | cons label trace ih =>
    have hhead {c : Label} (hlabel : f label = some x) (hc : c ∈ trace) (hfc : f c = some x) :
        False := by
      rw [shown, List.filterMap_cons_some hlabel, List.nodup_cons] at hnodup
      exact hnodup.1 (mem_shown.mpr ⟨c, hc, hfc⟩)
    have htail : (shown f trace).Nodup := hnodup.sublist ((List.sublist_cons_self _ _).filterMap f)
    rcases List.mem_cons.mp ha with hlabel | ha
    · rcases List.mem_cons.mp hb with hlabel' | hb
      · exact hlabel.trans hlabel'.symm
      · exact (hhead (hlabel ▸ hfa) hb hfb).elim
    · rcases List.mem_cons.mp hb with hlabel | hb
      · exact (hhead (hlabel ▸ hfb) ha hfa).elim
      · exact ih htail ha hb

theorem Tracked.called_nodup (htracked : Tracked trace s) : (shown Label.called trace).Nodup := by
  rw [htracked.calls]
  exact List.nodup_range

theorem accepted_sublist (trace : List Label) :
    ((shown Label.accepted trace).map PendingItem.call).Sublist (shown Label.called trace) := by
  induction trace with
  | nil => exact .slnil
  | cons label trace ih =>
    cases label with
    | accept item => exact ih.cons_cons _
    | reject call request => exact ih.cons _
    | _ => exact ih

theorem Tracked.accepted_nodup (htracked : Tracked trace s) :
    (shown Label.accepted trace).Nodup :=
  List.Nodup.of_map _ (htracked.called_nodup.sublist (accepted_sublist trace))

theorem Tracked.submitted_prefix (htracked : Tracked trace s) :
    shown Label.submitted trace <+: shown Label.accepted trace := by
  rw [htracked.accepted, List.append_assoc]
  exact List.prefix_append _ _

theorem Tracked.rejected (htracked : Tracked trace s) {call : Nat} {request : TransferRequest}
    (hmem : .reject call request ∈ trace) :
    (call, backpressure request) ∈ shown Label.resolved trace ∧
      ∀ item ∈ shown Label.submitted trace, item.call ≠ call := by
  refine ⟨mem_shown.mpr ⟨_, hmem, rfl⟩, ?_⟩
  rintro item hitem rfl
  obtain ⟨label, hlabel, haccepted⟩ := mem_shown.mp (htracked.submitted_prefix.subset hitem)
  cases label with
  | accept item' =>
    obtain rfl : item' = item := Option.some.inj haccepted
    have heq : Label.accept item' = .reject item'.call request :=
      shown_inj (f := Label.called) htracked.called_nodup hlabel hmem rfl rfl
    cases heq
  | _ => cases haccepted

theorem Tracked.answered_or_pending (htracked : Tracked trace s) {item : PendingItem}
    (hitem : item ∈ shown Label.accepted trace) :
    item.call ∈ s.pending ∨ ∃ result, (item, result) ∈ shown Label.answered trace ∧
      (item.call, result) ∈ shown Label.resolved trace := by
  rw [htracked.accepted, htracked.submitted, List.mem_append, List.mem_append,
    List.mem_append] at hitem
  rcases hitem with ((hanswered | hunanswered) | hunsubmitted) | hqueue
  · obtain ⟨⟨item', result⟩, hpair, rfl⟩ := List.mem_map.mp hanswered
    have hdelivered := hpair
    rw [htracked.answered, List.mem_append] at hdelivered
    rcases hdelivered with hdelivered | hundelivered
    · obtain ⟨label, hlabel, hshown⟩ := mem_shown.mp hdelivered
      cases label with
      | fulfil item result =>
        cases hshown
        exact .inr ⟨result, hpair, mem_shown.mpr ⟨_, hlabel, rfl⟩⟩
      | _ => cases hshown
    · have hheld : item' ∈ s.worker.held :=
        List.mem_append_left _ (List.mem_append_left _ (List.mem_map_of_mem hundelivered))
      exact .inl (List.mem_map_of_mem (List.mem_append_left _ hheld))
  · have hheld : item ∈ s.worker.held :=
      List.mem_append_left _ (List.mem_append_right _ hunanswered)
    exact .inl (List.mem_map_of_mem (List.mem_append_left _ hheld))
  · have hheld : item ∈ s.worker.held := List.mem_append_right _ hunsubmitted
    exact .inl (List.mem_map_of_mem (List.mem_append_left _ hheld))
  · exact .inl (List.mem_map_of_mem (List.mem_append_right _ hqueue))

theorem Tracked.delivers (htracked : Tracked trace s) (hwired : Wired capacity s) :
    Delivers capacity trace s where
  bounded := hwired.bounded
  once := htracked.calls ▸ htracked.resolved
  rejected _ _ hmem := htracked.rejected hmem
  answered _ hitem := htracked.answered_or_pending hitem
  fifo := htracked.submitted_prefix
  acceptedOnce := htracked.accepted_nodup
  answeredOnce := by
    rw [htracked.submitted]
    exact List.prefix_append _ _
  enabled := hwired.enabled
  settles _ _ hinternal hstep := hstep.work_lt hinternal
  executed hfinished := by
    have hworker := hwired.joined (.inr hfinished)
    have hqueue := (hwired.exited hworker).2
    refine ⟨by simp [State.pending, Worker.held, hworker, hqueue], ?_⟩
    rw [htracked.accepted, hworker, hqueue]
    simp
  kept := htracked.kept
  closed := htracked.closed

/-- The invariants of a run. -/
theorem wired_and_tracked (requested : Nat)
    (h : Run (Step (queueCapacity requested)) State.init trace s) :
    Wired (queueCapacity requested) s ∧ Tracked trace s := by
  refine h.invariant (P := fun trace s => Wired (queueCapacity requested) s ∧ Tracked trace s)
    ⟨wired_init _, tracked_init⟩ ?_
  intro trace a label b ⟨hwired, htracked⟩ hstep
  exact ⟨hstep.wired hwired, hstep.tracked hwired htracked⟩

theorem transferAsync_delivers (requested : Nat) (trace : List Label) (s : State)
    (h : Run (Step (queueCapacity requested)) State.init trace s) :
    1 ≤ queueCapacity requested ∧ Delivers (queueCapacity requested) trace s := by
  obtain ⟨hwired, htracked⟩ := wired_and_tracked requested h
  refine ⟨?_, htracked.delivers hwired⟩
  unfold queueCapacity
  split <;> omega

/-- Two requests are transferred and one that finds the queue full is refused, and then the pipeline
is shut down. -/
theorem transferAsync_delivers_threeRequests :
    ∃ trace s, s.calls = 3 ∧ s.destructor = .finished ∧ Delivers (queueCapacity 1) trace s := by
  let request : TransferRequest := { key := {}, src := {}, dst := {} }
  let run : Run (Step (queueCapacity 1)) State.init _ _ :=
    Run.nil |>.snoc (.accept request .tcp (by decide) (by decide))
      |>.snoc (.reject request (by decide) (by decide)) |>.snoc (.notifyOne (by decide))
      |>.snoc (.pop rfl rfl) |>.snoc (.submit rfl)
      |>.snoc (.accept request .rdma (by decide) (by decide))
      |>.snoc (.answer (.ok { key := {} }) rfl) |>.snoc (.fulfil rfl) |>.snoc (.pop rfl rfl)
      |>.snoc (.shutdown rfl) |>.snoc (.submit rfl) |>.snoc (.answer (.ok { key := {} }) rfl)
      |>.snoc (.fulfil rfl) |>.snoc (.notifyAll rfl) |>.snoc (.exit rfl rfl rfl)
      |>.snoc (.join rfl rfl) |>.snoc (.finish rfl rfl)
  exact ⟨_, _, rfl, rfl, (transferAsync_delivers 1 _ _ run).2⟩

end TieredKVCache.DataPath
