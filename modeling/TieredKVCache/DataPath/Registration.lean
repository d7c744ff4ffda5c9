import TieredKVCache.Adapter.TransferEngine
import TieredKVCache.Lib.AssocSum
import TieredKVCache.Lib.Ledger

/-!
# Registration guards

`ScopedRegistration` of `datapath/data_path.cpp`: guards over one backend, constructed, moved and
destroyed in any order. The guards are known by the numbers of their objects. What the backend
answers may depend on all earlier calls; it is assumed that it deregisters a live handle. The
calls make a ledger of the live registrations, and a handle has at every moment as many valid
guards as live registrations (`guards_conserve`).
-/

namespace TieredKVCache.DataPath

open Adapter Lib

/-! ## The backend -/

inductive BackendCall where
  | registerBuffer (addr len : Nat) (onGpu : Bool) (answer : Result BufferHandle)
  | deregisterBuffer (handle : BufferHandle) (answer : Status)

/-- The answers of a backend after the calls of a history, newest call first. -/
structure Backend where
  registerBuffer : List BackendCall → Nat → Nat → Bool → Result BufferHandle
  deregisterBuffer : List BackendCall → BufferHandle → Status

/-- A call as an entry of the ledger: a call that fails makes none. -/
def BackendCall.entry : BackendCall → Option (LedgerEntry BufferHandle)
  | registerBuffer _ _ _ (.ok handle) => some (.acquired handle)
  | registerBuffer _ _ _ (.error _) => none
  | deregisterBuffer handle answer => if answer.isOk then some (.released handle) else none

def ledger (history : List BackendCall) : List (LedgerEntry BufferHandle) :=
  history.filterMap BackendCall.entry

/-- The live registrations. -/
def live (history : List BackendCall) : Multiset BufferHandle := held (ledger history)

/-- The handles of the successful registrations. -/
def registered (history : List BackendCall) : Multiset BufferHandle := acquired (ledger history)

/-- The handles of all calls of `DeregisterBuffer`. -/
def deregistered : List BackendCall → Multiset BufferHandle
  | [] => 0
  | .registerBuffer _ _ _ _ :: history => deregistered history
  | .deregisterBuffer handle _ :: history => handle ::ₘ deregistered history

/-- `DeregisterBuffer` succeeds on live handles. -/
def Backend.Deregisters (backend : Backend) : Prop :=
  ∀ history, ∀ handle ∈ live history, (backend.deregisterBuffer history handle).isOk = true

/-! ## The guards -/

/-- There is one backend, so `backend_` is a null pointer or not. -/
structure ScopedRegistration where
  backend : Bool := false
  handle : BufferHandle := {}
  status : Status := .success
  valid : Bool := false

namespace ScopedRegistration

/-- The constructor that registers a buffer; `answer` is that of the backend. -/
def construct (answer : Result BufferHandle) : ScopedRegistration :=
  match answer with
  | .ok handle => { backend := true, handle, valid := true }
  | .error status => { backend := true, status }

/-- What is left where a guard was moved from. The standard leaves the text of the moved status
open, and nothing reads it. -/
def movedFrom (other : ScopedRegistration) : ScopedRegistration :=
  { other with valid := false, backend := false, status := ⟨other.status.code, ""⟩ }

/-- `Release`. -/
def release (backend : Backend) (history : List BackendCall) (g : ScopedRegistration) :
    ScopedRegistration × List BackendCall :=
  if g.valid && g.backend then
    ({ g with valid := false },
      .deregisterBuffer g.handle (backend.deregisterBuffer history g.handle) :: history)
  else (g, history)

/-- The assignment to another guard: `Release`, and every field is that of `other`. -/
def moveAssign (backend : Backend) (history : List BackendCall) (g other : ScopedRegistration) :
    ScopedRegistration × List BackendCall :=
  let r := g.release backend history
  ({ r.1 with
      backend := other.backend
      handle := other.handle
      status := other.status
      valid := other.valid }, r.2)

end ScopedRegistration

/-! ## Programs over guards -/

structure World where
  guards : AList fun _ : Nat => ScopedRegistration
  history : List BackendCall

/-- No guard, and no call yet. -/
def World.init : World := ⟨∅, []⟩

inductive GuardOp where
  | construct (id addr len : Nat) (onGpu : Bool)
  | moveConstruct (id other : Nat)
  | moveAssign (id other : Nat)
  | destroy (id : Nat)
deriving DecidableEq, Repr

/-- A program constructs no guard twice, and uses none that is not there. -/
def runGuard (backend : Backend) : GuardOp → World → Option World
  | .construct id addr len onGpu, w =>
    if id ∈ w.guards then none
    else
      let answer := backend.registerBuffer w.history addr len onGpu
      some ⟨w.guards.insert id (.construct answer),
        .registerBuffer addr len onGpu answer :: w.history⟩
  | .moveConstruct id other, w =>
    match w.guards.lookup other with
    | none => none
    | some o =>
      if id ∈ w.guards then none
      else some { w with guards := (w.guards.insert other o.movedFrom).insert id o }
  | .moveAssign id other, w =>
    match w.guards.lookup id, w.guards.lookup other with
    | some g, some o =>
      if id = other then some w
      else
        let r := g.moveAssign backend w.history o
        some ⟨(w.guards.insert other o.movedFrom).insert id r.1, r.2⟩
    | _, _ => none
  | .destroy id, w =>
    match w.guards.lookup id with
    | none => none
    | some g => some ⟨w.guards.erase id, (g.release backend w.history).2⟩

def runGuards (backend : Backend) : List GuardOp → World → Option World
  | [], w => some w
  | op :: ops, w => (runGuard backend op w).bind (runGuards backend ops)

/-! ## Ownership -/

/-- The guard is valid and holds the handle. -/
def ScopedRegistration.Owns (h : BufferHandle) (g : ScopedRegistration) : Prop :=
  g.valid = true ∧ g.handle = h

instance (h : BufferHandle) (g : ScopedRegistration) : Decidable (g.Owns h) :=
  inferInstanceAs (Decidable (_ ∧ _))

/-- The number of valid guards that hold the handle. -/
def owners (h : BufferHandle) (guards : AList fun _ : Nat => ScopedRegistration) : Nat :=
  sumOver (fun _ g => if g.Owns h then 1 else 0) guards

/-- The calls so far and the guards as they are. -/
structure GuardInv (w : World) : Prop where
  lawful : Lawful (ledger w.history)
  succeeded : ∀ handle answer, .deregisterBuffer handle answer ∈ w.history → answer.isOk = true
  owned : ∀ h, (live w.history).count h = owners h w.guards
  attached : ∀ id g, w.guards.lookup id = some g → g.valid = true → g.backend = true

section

variable {backend : Backend} {w w' : World} {history : List BackendCall} {h : BufferHandle}
  {g o : ScopedRegistration} {id other : Nat} {guards : AList fun _ : Nat => ScopedRegistration}

theorem ledger_deregisterBuffer (handle : BufferHandle) {answer : Status}
    (hok : answer.isOk = true) (history : List BackendCall) :
    ledger (.deregisterBuffer handle answer :: history) = .released handle :: ledger history :=
  List.filterMap_cons_some (if_pos hok)

theorem not_owns_movedFrom (o : ScopedRegistration) : ¬ o.movedFrom.Owns h := by
  rintro ⟨hvalid, -⟩
  cases hvalid

theorem owners_movedFrom (hother : guards.lookup other = some o) :
    owners h guards = (if o.Owns h then 1 else 0) +
      owners h (guards.insert other o.movedFrom) := by
  rw [owners, owners, sumOver_erase hother, sumOver_insert, if_neg (not_owns_movedFrom o),
    Nat.zero_add]

theorem guardInv_init : GuardInv World.init where
  lawful := trivial
  succeeded _ _ h := by cases h
  owned _ := rfl
  attached _ _ h := by cases h

/-! ## Release -/

/-- What the release of a guard does to the calls. -/
structure Released (history history' : List BackendCall) (g : ScopedRegistration) : Prop where
  lawful : Lawful (ledger history')
  succeeded : ∀ handle answer, .deregisterBuffer handle answer ∈ history' → answer.isOk = true
  count : ∀ h, (live history).count h = (if g.Owns h then 1 else 0) + (live history').count h

/-- The handle of a valid guard is live, so its deregistration succeeds. -/
theorem GuardInv.release (hinv : GuardInv w) (hbackend : backend.Deregisters)
    (hg : w.guards.lookup id = some g) :
    Released w.history (g.release backend w.history).2 g := by
  unfold ScopedRegistration.release
  by_cases hvalid : g.valid = true
  · have hattached := hinv.attached id g hg hvalid
    rw [if_pos (by rw [hvalid, hattached]; rfl)]
    have hown : g.Owns g.handle := ⟨hvalid, rfl⟩
    have hlive : g.handle ∈ live w.history := by
      rw [← Multiset.one_le_count_iff_mem, hinv.owned, owners, sumOver_erase hg, if_pos hown]
      exact Nat.le_add_right _ _
    have hok := hbackend w.history g.handle hlive
    have hledger := ledger_deregisterBuffer g.handle hok w.history
    refine ⟨?_, ?_, ?_⟩
    · rw [hledger]
      exact ⟨hlive, hinv.lawful⟩
    · intro handle answer hmem
      rcases List.mem_cons.mp hmem with heq | hmem
      · cases heq
        exact hok
      · exact hinv.succeeded handle answer hmem
    · intro h
      rw [live, live, hledger, held]
      by_cases hh : g.handle = h
      · subst hh
        have hpos : 1 ≤ (held (ledger w.history)).count g.handle :=
          Multiset.one_le_count_iff_mem.mpr hlive
        rw [if_pos hown, Multiset.count_erase_self]
        omega
      · rw [if_neg fun howns => hh howns.2, Multiset.count_erase_of_ne (Ne.symm hh), Nat.zero_add]
  · rw [if_neg (by simp [hvalid])]
    refine ⟨hinv.lawful, hinv.succeeded, fun h => ?_⟩
    rw [if_neg fun howns => hvalid howns.1, Nat.zero_add]

/-! ## A step -/

theorem GuardInv.construct (hinv : GuardInv w) (hnew : id ∉ w.guards) (addr len : Nat)
    (onGpu : Bool) (answer : Result BufferHandle) :
    GuardInv ⟨w.guards.insert id (.construct answer),
      .registerBuffer addr len onGpu answer :: w.history⟩ := by
  have hnone : w.guards.lookup id = none := AList.lookup_eq_none.mpr hnew
  have hsucceeded : ∀ handle status,
      .deregisterBuffer handle status ∈ .registerBuffer addr len onGpu answer :: w.history →
        status.isOk = true := by
    intro handle status hmem
    rcases List.mem_cons.mp hmem with heq | hmem
    · cases heq
    · exact hinv.succeeded handle status hmem
  have hattached : ∀ id' g, (w.guards.insert id (.construct answer)).lookup id' = some g →
      g.valid = true → g.backend = true := by
    intro id' g hg hvalid
    rcases lookup_insert_eq_some.mp hg with ⟨-, rfl⟩ | ⟨-, hg⟩
    · cases answer <;> rfl
    · exact hinv.attached id' g hg hvalid
  cases answer with
  | ok handle =>
    refine ⟨hinv.lawful, hsucceeded, fun h => ?_, hattached⟩
    have hlive : live (.registerBuffer addr len onGpu (.ok handle) :: w.history) =
        handle ::ₘ live w.history := rfl
    rw [hlive, Multiset.count_cons, hinv.owned, owners, owners, sumOver_insert_of_none _ _ hnone,
      Nat.add_comm]
    congr 1
    by_cases hh : h = handle
    · rw [if_pos hh, if_pos ⟨rfl, hh.symm⟩]
    · rw [if_neg hh, if_neg fun howns => hh howns.2.symm]
  | error status =>
    refine ⟨hinv.lawful, hsucceeded, fun h => ?_, hattached⟩
    have hlive : live (.registerBuffer addr len onGpu (.error status) :: w.history) =
        live w.history := rfl
    rw [hlive, hinv.owned, owners, owners, sumOver_insert_of_none _ _ hnone, if_neg, Nat.zero_add]
    rintro ⟨hvalid, -⟩
    cases hvalid

/-- The registration of a guard goes to another one that holds none. -/
theorem GuardInv.moved (hinv : GuardInv w) (hother : w.guards.lookup other = some o)
    (hlawful : Lawful (ledger history))
    (hsucceeded : ∀ handle answer, .deregisterBuffer handle answer ∈ history → answer.isOk = true)
    (hcount : ∀ h, (live history).count h =
      owners h ((w.guards.insert other o.movedFrom).insert id o)) :
    GuardInv ⟨(w.guards.insert other o.movedFrom).insert id o, history⟩ := by
  refine ⟨hlawful, hsucceeded, hcount, fun id' g hg hvalid => ?_⟩
  rcases lookup_insert_eq_some.mp hg with ⟨-, rfl⟩ | ⟨-, hg⟩
  · exact hinv.attached other _ hother hvalid
  · rcases lookup_insert_eq_some.mp hg with ⟨-, rfl⟩ | ⟨-, hg⟩
    · cases hvalid
    · exact hinv.attached id' g hg hvalid

theorem GuardInv.moveConstruct (hinv : GuardInv w) (hother : w.guards.lookup other = some o)
    (hnew : id ∉ w.guards) :
    GuardInv { w with guards := (w.guards.insert other o.movedFrom).insert id o } := by
  refine hinv.moved hother hinv.lawful hinv.succeeded fun h => ?_
  have hne : id ≠ other := by
    rintro rfl
    exact hnew (mem_of_lookup hother)
  have hnone : (w.guards.insert other o.movedFrom).lookup id = none := by
    rw [AList.lookup_insert_ne hne]
    exact AList.lookup_eq_none.mpr hnew
  have hinsert : owners h ((w.guards.insert other o.movedFrom).insert id o) =
      (if o.Owns h then 1 else 0) + owners h (w.guards.insert other o.movedFrom) :=
    sumOver_insert_of_none _ o hnone
  rw [hinv.owned, owners_movedFrom hother, hinsert]

theorem GuardInv.moveAssign (hinv : GuardInv w) (hbackend : backend.Deregisters)
    (hg : w.guards.lookup id = some g) (hother : w.guards.lookup other = some o)
    (hne : id ≠ other) :
    GuardInv ⟨(w.guards.insert other o.movedFrom).insert id o,
      (g.moveAssign backend w.history o).2⟩ := by
  have hreleased : Released w.history (g.moveAssign backend w.history o).2 g :=
    hinv.release hbackend hg
  refine hinv.moved hother hreleased.lawful hreleased.succeeded fun h => ?_
  have hrest : (w.guards.erase id).lookup other = some o := by
    rw [AList.lookup_erase_ne (Ne.symm hne)]
    exact hother
  have hbefore : owners h w.guards = (if g.Owns h then 1 else 0) + owners h (w.guards.erase id) :=
    sumOver_erase hg
  have hafter : owners h ((w.guards.insert other o.movedFrom).insert id o) =
      (if o.Owns h then 1 else 0) + owners h ((w.guards.erase id).insert other o.movedFrom) := by
    rw [owners, sumOver_insert, erase_insert_of_ne _ (Ne.symm hne)]
    rfl
  have hcount := hreleased.count h
  rw [hinv.owned, hbefore, owners_movedFrom hrest, ← hafter] at hcount
  omega

theorem GuardInv.destroy (hinv : GuardInv w) (hbackend : backend.Deregisters)
    (hg : w.guards.lookup id = some g) :
    GuardInv ⟨w.guards.erase id, (g.release backend w.history).2⟩ := by
  have hreleased := hinv.release hbackend hg
  refine ⟨hreleased.lawful, hreleased.succeeded, fun h => ?_, fun id' g' hg' => ?_⟩
  · have hcount := hreleased.count h
    have hbefore : owners h w.guards =
        (if g.Owns h then 1 else 0) + owners h (w.guards.erase id) := sumOver_erase hg
    rw [hinv.owned, hbefore] at hcount
    exact (Nat.add_left_cancel hcount).symm
  · exact hinv.attached id' g' (lookup_erase_eq_some.mp hg').2

/-- **Guards.** Every step of a program keeps the ledger and the guards in agreement. -/
theorem runGuard_inv (hbackend : backend.Deregisters) (op : GuardOp) (hinv : GuardInv w)
    (hstep : runGuard backend op w = some w') : GuardInv w' := by
  cases op with
  | construct id addr len onGpu =>
    rw [runGuard] at hstep
    split at hstep
    next => cases hstep
    next hnew =>
      cases hstep
      exact hinv.construct hnew addr len onGpu _
  | moveConstruct id other =>
    rw [runGuard] at hstep
    split at hstep
    next => cases hstep
    next o hother =>
      split at hstep
      next => cases hstep
      next hnew =>
        cases hstep
        exact hinv.moveConstruct hother hnew
  | moveAssign id other =>
    rw [runGuard] at hstep
    split at hstep
    next g o hg hother =>
      split at hstep
      next =>
        cases hstep
        exact hinv
      next hne =>
        cases hstep
        exact hinv.moveAssign hbackend hg hother hne
    next => cases hstep
  | destroy id =>
    rw [runGuard] at hstep
    split at hstep
    next => cases hstep
    next g hg =>
      cases hstep
      exact hinv.destroy hbackend hg

theorem runGuards_inv (hbackend : backend.Deregisters) (ops : List GuardOp) (hinv : GuardInv w)
    (hrun : runGuards backend ops w = some w') : GuardInv w' := by
  induction ops generalizing w with
  | nil =>
    cases hrun
    exact hinv
  | cons op ops ih =>
    obtain ⟨w₁, hstep, hrest⟩ := Option.bind_eq_some_iff.mp hrun
    exact ih (runGuard_inv hbackend op hinv hstep) hrest

/-! ## What a program can rely on -/

/-- A handle with one live registration has one valid guard. -/
theorem existsUnique_owner (hone : owners h guards = 1) :
    ∃! id, ∃ g, guards.lookup id = some g ∧ g.Owns h := by
  obtain ⟨id, g, hg, hpos⟩ := exists_pos_of_sumOver_pos (by rw [← owners, hone]; exact Nat.one_pos)
  have howns : g.Owns h := by
    by_contra hnot
    rw [if_neg hnot] at hpos
    exact Nat.lt_irrefl 0 hpos
  refine ⟨id, ⟨g, hg, howns⟩, ?_⟩
  rintro id' ⟨g', hg', howns'⟩
  by_contra hne
  -- a second guard would make it two
  have hrest : (guards.erase id).lookup id' = some g' := by
    rw [AList.lookup_erase_ne hne]
    exact hg'
  rw [owners, sumOver_erase hg, if_pos howns, sumOver_erase hrest, if_pos howns'] at hone
  omega

/-- `DeregisterBuffer` is called for the released entries of the ledger, if it always succeeds. -/
theorem deregistered_eq (history : List BackendCall)
    (hsucceeded : ∀ handle answer, .deregisterBuffer handle answer ∈ history →
      answer.isOk = true) : deregistered history = released (ledger history) := by
  induction history with
  | nil => rfl
  | cons call history ih =>
    have hrest := ih fun handle answer hmem =>
      hsucceeded handle answer (List.mem_cons_of_mem _ hmem)
    cases call with
    | registerBuffer addr len onGpu answer =>
      cases answer with
      | ok handle => exact hrest
      | error status => exact hrest
    | deregisterBuffer handle answer =>
      have hok := hsucceeded handle answer List.mem_cons_self
      rw [deregistered, hrest, ledger_deregisterBuffer handle hok, released]

/-- What holds at every moment of a program. -/
structure Conserved (w : World) : Prop where
  /-- A handle has as many valid guards as live registrations. -/
  owned : ∀ h, (live w.history).count h = owners h w.guards
  owner : ∀ h, (live w.history).count h = 1 →
    ∃! id, ∃ g, w.guards.lookup id = some g ∧ g.Owns h
  /-- Every registration that is not live is deregistered, and once. -/
  balance : registered w.history = deregistered w.history + live w.history
  /-- What is deregistered is live, and the call succeeds. -/
  released : ∀ newer handle answer older,
    w.history = newer ++ .deregisterBuffer handle answer :: older →
      handle ∈ live older ∧ answer.isOk = true
  /-- Without guards there are as many registrations as deregistrations. -/
  empty : w.guards = ∅ → (registered w.history).card = (deregistered w.history).card

theorem GuardInv.conserved (hinv : GuardInv w) : Conserved w := by
  have hbalance : registered w.history = deregistered w.history + live w.history := by
    rw [deregistered_eq w.history hinv.succeeded]
    exact hinv.lawful.balance
  refine ⟨hinv.owned, fun h hone => ?_, hbalance, ?released, ?empty⟩
  · apply existsUnique_owner
    rw [← hinv.owned, hone]
  case released =>
    intro newer handle answer older heq
    have hok : answer.isOk = true := by
      apply hinv.succeeded handle answer
      rw [heq]
      exact List.mem_append_right _ List.mem_cons_self
    have hledger : ledger w.history = ledger newer ++ .released handle :: ledger older := by
      rw [heq, ← ledger_deregisterBuffer handle hok]
      exact List.filterMap_append
    have hlawful := hinv.lawful
    rw [hledger] at hlawful
    exact ⟨hlawful.mem_held, hok⟩
  case empty =>
    intro hguards
    have hnone : live w.history = 0 := by
      ext h
      rw [hinv.owned, hguards, Multiset.count_zero]
      rfl
    rw [hbalance, hnone, add_zero]

/-- **Conservation.** In every program over guards, at every moment: the live registrations are the
handles of the valid guards, each registration that is not live has been deregistered once, and
once all guards are destroyed there are as many deregistrations as registrations. -/
theorem guards_conserve (backend : Backend) (hbackend : backend.Deregisters)
    (ops : List GuardOp) (w : World) (hrun : runGuards backend ops World.init = some w) :
    Conserved w :=
  (runGuards_inv hbackend ops guardInv_init hrun).conserved

end

/-- A backend that numbers its registrations and refuses empty buffers. -/
def numbering : Backend where
  registerBuffer history addr len onGpu :=
    if addr = 0 ∨ len = 0 then .ofStatus (.make .invalidArgument "空缓冲不可注册")
    else .ok ⟨addr, len, .ofNat ((registered history).card + 1), onGpu⟩
  deregisterBuffer history handle :=
    if handle ∈ live history then .success
    else .make .addressNotRegistered "句柄未注册或已注销"

/-- A registration moves through three guards, the second of which failed to register its own, and
the fourth guard releases one when it is assigned to. -/
def movingOps : List GuardOp :=
  [.construct 0 4096 8 false, .construct 1 0 8 false, .moveConstruct 2 0, .moveAssign 1 2,
    .construct 3 8192 4 false, .moveAssign 1 1, .moveAssign 3 1, .destroy 0, .destroy 1,
    .destroy 2, .destroy 3]

theorem numbering_deregisters : numbering.Deregisters := by
  intro history handle hlive
  have hanswer : numbering.deregisterBuffer history handle = .success := if_pos hlive
  rw [hanswer, Status.isOk_success]

theorem guards_conserve_movingOps :
    ∃ w, runGuards numbering movingOps World.init = some w ∧ Conserved w := by
  have hreturns : (runGuards numbering movingOps World.init).isSome := by decide +kernel
  obtain ⟨w, hrun⟩ := Option.isSome_iff_exists.mp hreturns
  exact ⟨w, hrun, guards_conserve numbering numbering_deregisters movingOps w hrun⟩

end TieredKVCache.DataPath
