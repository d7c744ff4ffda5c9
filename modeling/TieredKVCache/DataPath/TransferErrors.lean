import TieredKVCache.Adapter.MooncakeBackend
import TieredKVCache.DataPath.TransferRuns
import TieredKVCache.Lib.DecimalText

/-!
# The errors of transfers

What a failed transfer over `MooncakeTransferBackend` tells of its block. Each place where a
transfer can fail has its own text; some of them name the `hash_id` of the key, none the layer or
the version. Two errors differ exactly if the transfers failed at different places, or at a place
that names the `hash_id` and with different ones (`errors_differ_iff`).
-/

namespace TieredKVCache.DataPath

open Adapter Lib

/-! ## Where a transfer fails -/

inductive FailureSite where
  /-- The queue of `TransferAsync` is full or shut. -/
  | backpressure
  | unregistered
  | allocateBatchID
  | submitTransfer
  | getTransferStatus
  /-- The engine reports the failure of the transfer. -/
  | upstream (path : TransportPath) (status : Int)
  | timeout
deriving DecidableEq, Repr

namespace FailureSite

/-- The error names the `hash_id`. -/
def namesHash : FailureSite → Bool
  | unregistered | allocateBatchID | getTransferStatus => false
  | backpressure | submitTransfer | upstream _ _ | timeout => true

def code : FailureSite → StatusCode
  | backpressure => .backpressure
  | unregistered => .addressNotRegistered
  | _ => .transferFailed

/-- The text before the `hash_id`. -/
def lead : FailureSite → String
  | backpressure => "提交队列已满，施加背压；failing_key.hash_id="
  | unregistered => "SubmitAsync：源或目标缓冲未注册"
  | allocateBatchID => "allocateBatchID 失败"
  | submitTransfer => "submitTransfer 失败：key.hash_id="
  | getTransferStatus => "getTransferStatus 失败"
  | upstream _ _ => "传输失败：key.hash_id="
  | timeout => "传输超时：key.hash_id="

/-- The text after the `hash_id`. -/
def tail : FailureSite → String
  | upstream path status => " path=" ++ (path.name ++ (" upstream_status=" ++ toString status))
  | _ => ""

/-- The error of a request with this `hash_id`. -/
def status (hashId : UInt64) (site : FailureSite) : Status :=
  ⟨site.code, site.lead ++ (if site.namesHash then toString hashId ++ site.tail else "")⟩

theorem status_of_tail {site : FailureSite} {hashId : UInt64} (hnamed : site.namesHash = true)
    (htail : site.tail = "") : site.status hashId = ⟨site.code, site.lead ++ toString hashId⟩ := by
  rw [status, if_pos hnamed, htail, String.append_empty]

theorem status_backpressure (hashId : UInt64) : backpressure.status hashId =
    .make .backpressure ("提交队列已满，施加背压；failing_key.hash_id=" ++ toString hashId) :=
  status_of_tail rfl rfl

theorem status_submitTransfer (hashId : UInt64) : submitTransfer.status hashId =
    .make .transferFailed ("submitTransfer 失败：key.hash_id=" ++ toString hashId) :=
  status_of_tail rfl rfl

theorem status_timeout (hashId : UInt64) : timeout.status hashId =
    .make .transferFailed ("传输超时：key.hash_id=" ++ toString hashId) :=
  status_of_tail rfl rfl

theorem status_upstream (path : TransportPath) (upstreamStatus : Int) (hashId : UInt64) :
    (upstream path upstreamStatus).status hashId = ⟨.transferFailed,
      "传输失败：key.hash_id=" ++ toString hashId ++ " path=" ++ path.name ++ " upstream_status=" ++
        toString upstreamStatus⟩ := by
  simp only [status, code, lead, namesHash, tail, if_true, String.append_assoc]

theorem noDigitFirst_tail (site : FailureSite) : NoDigitFirst site.tail := by
  cases site with
  | upstream path status =>
    intro c hc
    have hblank : c = ' ' := by
      simpa [tail, String.toList_append, eq_comm] using hc
    rw [hblank]
    rfl
  | _ => exact noDigitFirst_empty

/-- The first characters of a text, which are different at different places. -/
def opening : FailureSite → List Char
  | backpressure => ['提', '交', '队']
  | unregistered => ['S', 'u', 'b']
  | allocateBatchID => ['a', 'l', 'l']
  | submitTransfer => ['s', 'u', 'b']
  | getTransferStatus => ['g', 'e', 't']
  | upstream _ _ => ['传', '输', '失']
  | timeout => ['传', '输', '超']

theorem take_message (hashId : UInt64) (site : FailureSite) :
    (site.status hashId).message.toList.take 3 = site.opening := by
  have hlead : ∃ rest, site.lead.toList = site.opening ++ rest ∧ site.opening.length = 3 := by
    cases site <;>
      simp only [lead, opening] <;>
      exact ⟨_, rfl, rfl⟩
  obtain ⟨rest, hrest, hlength⟩ := hlead
  show (site.lead ++ _).toList.take 3 = site.opening
  rw [String.toList_append, hrest, List.append_assoc, List.take_append_of_le_length hlength.ge,
    List.take_of_length_le hlength.le]

theorem eq_or_upstream {site site' : FailureSite} (h : site.opening = site'.opening) :
    site = site' ∨ ∃ path status path' status',
      site = .upstream path status ∧ site' = .upstream path' status' := by
  cases site <;> cases site' <;>
    first
    | exact .inl rfl
    | exact .inr ⟨_, _, _, _, rfl, rfl⟩
    | simp [opening] at h

theorem name_append_inj {path path' : TransportPath} {rest rest' : String}
    (h : path.name ++ rest = path'.name ++ rest') : path = path' ∧ rest = rest' := by
  have hhead := congrArg (fun text => text.toList.head?) h
  obtain rfl : path = path' := by
    cases path <;> cases path' <;>
      first
      | rfl
      | simp [TransportPath.name] at hhead
  exact ⟨rfl, (String.append_right_inj _).mp h⟩

theorem tail_upstream_inj {path path' : TransportPath} {status status' : Int}
    (h : (upstream path status).tail = (upstream path' status').tail) :
    path = path' ∧ status = status' := by
  obtain ⟨hpath, hrest⟩ := name_append_inj ((String.append_right_inj _).mp h)
  exact ⟨hpath, intRepr_injective ((String.append_right_inj _).mp hrest)⟩

/-- What the text of a place that names the `hash_id` determines. -/
theorem named_inj {site site' : FailureSite} {hashId hashId' : UInt64}
    (hlead : site.lead = site'.lead) (hnamed : site.namesHash = true ∧ site'.namesHash = true)
    (h : site.status hashId = site'.status hashId') :
    hashId = hashId' ∧ site.tail = site'.tail := by
  have hmessage := congrArg Status.message h
  simp only [status, hnamed, if_true, hlead, String.append_right_inj] at hmessage
  obtain ⟨hnumber, htail⟩ := (repr_append_inj site.noDigitFirst_tail site'.noDigitFirst_tail).mp
    hmessage
  exact ⟨UInt64.toNat_inj.mp hnumber, htail⟩

/-- The texts are the same only at the same place, and with the same `hash_id` where it is named. -/
theorem status_eq_iff {site site' : FailureSite} {hashId hashId' : UInt64} :
    site.status hashId = site'.status hashId' ↔
      site = site' ∧ (site.namesHash = true → hashId = hashId') := by
  constructor
  · intro h
    have hopening : site.opening = site'.opening := by
      rw [← take_message hashId, h, take_message]
    rcases eq_or_upstream hopening with rfl | ⟨path, status, path', status', rfl, rfl⟩
    · exact ⟨rfl, fun hnamed => (named_inj rfl ⟨hnamed, hnamed⟩ h).1⟩
    · have hlead : (upstream path status).lead = (upstream path' status').lead := by
        simp only [lead]
      obtain ⟨hhash, htail⟩ := named_inj hlead ⟨rfl, rfl⟩ h
      obtain ⟨rfl, rfl⟩ := tail_upstream_inj htail
      exact ⟨rfl, fun _ => hhash⟩
  · rintro ⟨rfl, hhash⟩
    by_cases hnamed : site.namesHash = true
    · rw [hhash hnamed]
    · simp [status, hnamed]

end FailureSite

/-! ## The backend -/

/-- Where the loop over `getTransferStatus` fails, if it does. -/
def pollSite (path : TransportPath) : List (Int × EngineStatus) → Option FailureSite
  | [] => some .timeout
  | (code, status) :: polls =>
    if code ≠ 0 then some .getTransferStatus
    else if status.status = statusCompleted then none
    else if status.status = statusFailed ∨ status.status = statusTimeout ∨
        status.status = statusCanceled then some (.upstream path status.status)
    else pollSite path polls

/-- Where `SubmitAsync` fails, if it does. -/
def submitSite (request : TransferRequest) (answers : EngineAnswers)
    (s : MooncakeTransferBackend) : Option FailureSite :=
  if request.src.regId ∉ s.liveRegistrations ∨ request.dst.regId ∉ s.liveRegistrations then
    some .unregistered
  else if answers.batch = invalidBatch then some .allocateBatchID
  else if answers.submit ≠ 0 then some .submitTransfer
  else pollSite (s.selectPath request) answers.polls

/-- The error that a place makes of a request. -/
def Fails (request : TransferRequest) (site : Option FailureSite) (error : Status) : Prop :=
  ∃ place, site = some place ∧ error = place.status request.key.hashId

section

variable {request : TransferRequest} {path : TransportPath} {batch : UInt64}
  {answers : EngineAnswers} {backend : MooncakeTransferBackend} {error : Status}

theorem fails_of_pollTransfer {polls : List (Int × EngineStatus)}
    (h : (MooncakeTransferBackend.pollTransfer request path batch polls).2 = .error error) :
    Fails request (pollSite path polls) error := by
  induction polls with
  | nil =>
    exact ⟨_, rfl, (Except.error.inj h).symm.trans (FailureSite.status_timeout _).symm⟩
  | cons poll polls ih =>
    unfold MooncakeTransferBackend.pollTransfer at h
    unfold pollSite
    split at h
    next hcode =>
      rw [if_pos hcode]
      exact ⟨_, rfl, (Except.error.inj h).symm⟩
    next hcode =>
      rw [if_neg hcode]
      split at h
      next => cases h
      next hrunning =>
        rw [if_neg hrunning]
        split at h
        next hfailed =>
          rw [if_pos hfailed]
          exact ⟨_, rfl, (Except.error.inj h).symm.trans (FailureSite.status_upstream _ _ _).symm⟩
        next hgoing =>
          rw [if_neg hgoing]
          exact ih h

theorem fails_of_submitAsync (h : (backend.submitAsync request answers).2 = .error error) :
    Fails request (submitSite request answers backend) error := by
  unfold MooncakeTransferBackend.submitAsync at h
  unfold submitSite
  split at h
  next hdead =>
    rw [if_pos hdead]
    exact ⟨_, rfl, (Except.error.inj h).symm⟩
  next hlive =>
    rw [if_neg hlive]
    unfold MooncakeTransferBackend.transfer at h
    split at h
    next hbatch =>
      rw [if_pos hbatch]
      exact ⟨_, rfl, (Except.error.inj h).symm⟩
    next hbatch =>
      rw [if_neg hbatch]
      split at h
      next hsubmit =>
        rw [if_pos hsubmit]
        exact ⟨_, rfl, (Except.error.inj h).symm.trans (FailureSite.status_submitTransfer _).symm⟩
      next hsubmit =>
        rw [if_neg hsubmit]
        exact fails_of_pollTransfer h

end

/-! ## The futures -/

/-- The worker gets what `SubmitAsync` returns, from the state of the backend and with the answers
of the engine that `outcome` has for the call. -/
def AnsweredBy (outcome : Nat → MooncakeTransferBackend × EngineAnswers) (trace : List Label) :
    Prop :=
  ∀ item result, .answer item result ∈ trace →
    result = ((outcome item.call).1.submitAsync item.request (outcome item.call).2).2

/-- The request of a call of `TransferAsync`. -/
def Label.request : Label → Option (Nat × TransferRequest)
  | accept item => some (item.call, item.request)
  | reject call request => some (call, request)
  | _ => none

/-- Where the request of a call fails, if it does. -/
def Label.site (outcome : Nat → MooncakeTransferBackend × EngineAnswers) :
    Label → Option FailureSite
  | accept item => submitSite item.request (outcome item.call).2 (outcome item.call).1
  | reject _ _ => some .backpressure
  | _ => none

variable {outcome : Nat → MooncakeTransferBackend × EngineAnswers} {trace : List Label} {s : State}
  {arrival : Label} {call : Nat} {request : TransferRequest} {error : Status}

theorem Label.called_of_request (h : arrival.request = some (call, request)) :
    arrival.called = some call := by
  cases arrival with
  | accept item =>
    cases h
    rfl
  | reject call request =>
    cases h
    rfl
  | _ => cases h

/-- A result that is delivered is the answer to a request that was accepted. -/
theorem Tracked.accepted_of_fulfil (htracked : Tracked trace s) {item : PendingItem}
    {result : Result TransferReceipt} (h : .fulfil item result ∈ trace) :
    .answer item result ∈ trace ∧ .accept item ∈ trace := by
  have hanswered : (item, result) ∈ shown Label.answered trace := by
    rw [htracked.answered]
    exact List.mem_append_left _ (mem_shown.mpr ⟨_, h, rfl⟩)
  have hsubmitted : item ∈ shown Label.submitted trace := by
    rw [htracked.submitted]
    exact List.mem_append_left _ (List.mem_map.mpr ⟨_, hanswered, rfl⟩)
  constructor
  · obtain ⟨label, hlabel, hshown⟩ := mem_shown.mp hanswered
    cases label with
    | answer item' result' =>
      cases hshown
      exact hlabel
    | _ => cases hshown
  · obtain ⟨label, hlabel, hshown⟩ := mem_shown.mp (htracked.submitted_prefix.subset hsubmitted)
    cases label with
    | accept item' =>
      cases hshown
      exact hlabel
    | _ => cases hshown

/-- The error of a future is that of the place where its request fails. -/
theorem Tracked.fails_of_resolved (htracked : Tracked trace s)
    (hanswered : AnsweredBy outcome trace) (harrival : arrival ∈ trace)
    (hrequest : arrival.request = some (call, request))
    (herror : (call, .error error) ∈ shown Label.resolved trace) :
    Fails request (arrival.site outcome) error := by
  have hcalled : arrival.called = some call := Label.called_of_request hrequest
  obtain ⟨label, hlabel, hresolved⟩ := mem_shown.mp herror
  cases label with
  | reject call' request' =>
    obtain ⟨rfl, hresult⟩ := Prod.mk.inj (Option.some.inj hresolved)
    obtain rfl : arrival = .reject call' request' :=
      shown_inj htracked.called_nodup harrival hlabel hcalled rfl
    cases hrequest
    exact ⟨_, rfl, (Except.error.inj hresult).symm.trans
      (FailureSite.status_backpressure _).symm⟩
  | fulfil item result =>
    obtain ⟨rfl, rfl⟩ := Prod.mk.inj (Option.some.inj hresolved)
    obtain ⟨hanswer, haccept⟩ := htracked.accepted_of_fulfil hlabel
    obtain rfl : arrival = .accept item :=
      shown_inj htracked.called_nodup harrival haccept hcalled rfl
    cases hrequest
    exact fails_of_submitAsync (hanswered item _ hanswer).symm
  | discard item => exact absurd hlabel (htracked.kept item)
  | _ => cases hresolved

/-- Two requests that fail at different places, or at a place that names the `hash_id` and with
different ones. -/
def ToldApart (site₁ site₂ : Option FailureSite) (key₁ key₂ : BlockKey) : Prop :=
  site₁ ≠ site₂ ∨ (∃ site, site₁ = some site ∧ site.namesHash = true) ∧ key₁.hashId ≠ key₂.hashId

theorem Fails.ne_iff {request₁ request₂ : TransferRequest} {site₁ site₂ : Option FailureSite}
    {error₁ error₂ : Status} (h₁ : Fails request₁ site₁ error₁) (h₂ : Fails request₂ site₂ error₂) :
    error₁ ≠ error₂ ↔ ToldApart site₁ site₂ request₁.key request₂.key := by
  obtain ⟨site₁, rfl, rfl⟩ := h₁
  obtain ⟨site₂, rfl, rfl⟩ := h₂
  rw [ne_eq, FailureSite.status_eq_iff, ToldApart]
  simp only [ne_eq, Option.some.injEq, exists_eq_left', not_and_or, Classical.not_imp]

/-- **Errors.** The errors of two futures differ exactly if the requests are told apart by where
they fail and by the `hash_id`, which leaves out the layer and the version of the keys. -/
theorem errors_differ_iff (requested : Nat)
    (outcome : Nat → MooncakeTransferBackend × EngineAnswers) (trace : List Label) (s : State)
    (hrun : Run (Step (queueCapacity requested)) State.init trace s)
    (hanswered : AnsweredBy outcome trace) (arrival₁ arrival₂ : Label)
    (h₁ : arrival₁ ∈ trace) (h₂ : arrival₂ ∈ trace) (call₁ call₂ : Nat)
    (request₁ request₂ : TransferRequest) (hrequest₁ : arrival₁.request = some (call₁, request₁))
    (hrequest₂ : arrival₂.request = some (call₂, request₂)) (error₁ error₂ : Status)
    (herror₁ : (call₁, .error error₁) ∈ shown Label.resolved trace)
    (herror₂ : (call₂, .error error₂) ∈ shown Label.resolved trace) :
    error₁ ≠ error₂ ↔
      ToldApart (arrival₁.site outcome) (arrival₂.site outcome) request₁.key request₂.key := by
  have htracked := (wired_and_tracked requested hrun).2
  exact (htracked.fails_of_resolved hanswered h₁ hrequest₁ herror₁).ne_iff
    (htracked.fails_of_resolved hanswered h₂ hrequest₂ herror₂)

/-- A registered buffer, and an engine that has no batch. -/
def noBatch : MooncakeTransferBackend × EngineAnswers :=
  ((MooncakeTransferBackend.registerBuffer 0 4096 64 false {}).2, ⟨invalidBatch, 0, []⟩)

/-- A transfer within the registered buffer. -/
def transferOf (hashId : UInt64) : TransferRequest where
  key := { hashId }
  src := ⟨4096, 32, 1, false⟩
  dst := ⟨4128, 32, 1, false⟩

/-- The steps of a transfer without a batch. -/
def refused (item : PendingItem) : List Label :=
  let result := (noBatch.1.submitAsync item.request noBatch.2).2
  [.accept item, .notifyOne, .pop item, .submit item, .answer item result, .fulfil item result]

/-- Two transfers, one after the other. -/
def refusedTwice : List Label := refused ⟨0, transferOf 1⟩ ++ refused ⟨1, transferOf 2⟩

theorem run_refusedTwice : ∃ s, Run (Step (queueCapacity 1)) State.init refusedTwice s :=
  ⟨_, Run.nil |>.snoc (.accept (transferOf 1) .rdma (by decide) (by decide))
    |>.snoc (.notifyOne (by decide)) |>.snoc (.pop rfl rfl) |>.snoc (.submit rfl)
    |>.snoc (.answer _ rfl) |>.snoc (.fulfil rfl)
    |>.snoc (.accept (transferOf 2) .rdma (by decide) (by decide))
    |>.snoc (.notifyOne (by decide)) |>.snoc (.pop rfl rfl) |>.snoc (.submit rfl)
    |>.snoc (.answer _ rfl) |>.snoc (.fulfil rfl)⟩

theorem answeredBy_refusedTwice : AnsweredBy (fun _ => noBatch) refusedTwice := by
  intro item result h
  simp only [refusedTwice, refused, List.cons_append, List.nil_append, List.mem_cons,
    List.not_mem_nil, or_false, reduceCtorEq, false_or, Label.answer.injEq] at h
  rcases h with ⟨rfl, rfl⟩ | ⟨rfl, rfl⟩ <;> rfl

def noBatchError : Status := .make .transferFailed "allocateBatchID 失败"

theorem resolved_refused (call : Nat) (hashId : UInt64) :
    (call, .error noBatchError) ∈ shown Label.resolved (refused ⟨call, transferOf hashId⟩) := by
  refine mem_shown.mpr ⟨.fulfil ⟨call, transferOf hashId⟩ (.error noBatchError), ?_, rfl⟩
  exact List.mem_of_getLast? rfl

theorem refusedTwice_errors : (0, .error noBatchError) ∈ shown Label.resolved refusedTwice ∧
    (1, .error noBatchError) ∈ shown Label.resolved refusedTwice := by
  have hsplit : shown Label.resolved refusedTwice =
      shown Label.resolved (refused ⟨0, transferOf 1⟩) ++
        shown Label.resolved (refused ⟨1, transferOf 2⟩) := List.filterMap_append
  rw [hsplit]
  exact ⟨List.mem_append_left _ (resolved_refused 0 1),
    List.mem_append_right _ (resolved_refused 1 2)⟩

theorem errors_differ_iff_refusedTwice : noBatchError ≠ noBatchError ↔
    ToldApart (Label.site (fun _ => noBatch) (.accept ⟨0, transferOf 1⟩))
      (Label.site (fun _ => noBatch) (.accept ⟨1, transferOf 2⟩)) (transferOf 1).key
      (transferOf 2).key := by
  obtain ⟨s, hrun⟩ := run_refusedTwice
  exact errors_differ_iff 1 (fun _ => noBatch) refusedTwice s hrun answeredBy_refusedTwice _ _
    (by decide) (by decide) 0 1 (transferOf 1) (transferOf 2) rfl rfl _ _ refusedTwice_errors.1
    refusedTwice_errors.2

/-- Without a batch the error is the same for every key. -/
theorem noBatch_sameError : ∃ s, Run (Step (queueCapacity 1)) State.init refusedTwice s ∧
    AnsweredBy (fun _ => noBatch) refusedTwice ∧
      Label.accept ⟨0, transferOf 1⟩ ∈ refusedTwice ∧
        Label.accept ⟨1, transferOf 2⟩ ∈ refusedTwice ∧
          (transferOf 1).key ≠ (transferOf 2).key ∧
            (0, .error noBatchError) ∈ shown Label.resolved refusedTwice ∧
              (1, .error noBatchError) ∈ shown Label.resolved refusedTwice := by
  obtain ⟨s, hrun⟩ := run_refusedTwice
  exact ⟨s, hrun, answeredBy_refusedTwice, by decide, by decide, by decide, refusedTwice_errors⟩

end TieredKVCache.DataPath
