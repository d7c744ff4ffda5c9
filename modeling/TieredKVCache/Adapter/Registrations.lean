import TieredKVCache.Adapter.MooncakeBackend
import TieredKVCache.Lib.AssocSum
import TieredKVCache.Lib.Ledger
import TieredKVCache.Lib.Transition

/-!
# The registrations with the engine

Sequences of calls of `RegisterBuffer` and `DeregisterBuffer` with arbitrary answers of
`registerLocalMemory` and `unregisterLocalMemory`. Those that succeed make a ledger of the regions
that the engine has registered. `DeregisterBuffer` forgets a registration before the engine is
asked, and asks for the address of the handle, not for the one it has forgotten; so a region is
lost where the engine fails or the handle has another address (`registrations_kept_iff`).
-/

namespace TieredKVCache.Adapter

open Lib

namespace MooncakeTransferBackend

/-- What `Create` makes of the transports it could install and of the segment. -/
def created (gpuLocation : String) (rdmaInstalled : Bool) (segment : Int32) :
    MooncakeTransferBackend :=
  { gpuLocation, rdmaInstalled, segment }

/-- The addresses of `live_registrations_`. -/
def liveAddrs (s : MooncakeTransferBackend) : List Nat := s.liveRegistrations.entries.map Sigma.snd

/-- The registrations part of the destructor: the addresses for which it calls
`unregisterLocalMemory`. -/
def destroy (s : MooncakeTransferBackend) : List Nat × MooncakeTransferBackend :=
  (s.liveAddrs, { s with liveRegistrations := ∅ })

end MooncakeTransferBackend

/-- A call of a client, with what the engine answers. -/
inductive RegistrationCall where
  | registerBuffer (answer : Int) (addr len : Nat) (onGpu : Bool)
  | deregisterBuffer (answer : Int) (handle : BufferHandle)
deriving DecidableEq, Repr

/-- A backend, and the calls of the engine that succeeded, newest first. -/
structure Registrar where
  backend : MooncakeTransferBackend
  ledger : List (LedgerEntry Nat) := []

def RegistrationCall.run (r : Registrar) : RegistrationCall → Registrar
  | registerBuffer answer addr len onGpu =>
    ⟨(r.backend.registerBuffer answer addr len onGpu).2,
      if answer = 0 then .acquired addr :: r.ledger else r.ledger⟩
  | deregisterBuffer answer handle =>
    ⟨(r.backend.deregisterBuffer answer handle).2,
      -- the engine is not called for an unknown handle
      if handle.regId ∈ r.backend.liveRegistrations ∧ answer = 0 then
        .released handle.addr :: r.ledger
      else r.ledger⟩

/-- Each region that the engine has registered is tracked or has been unregistered, as often as it
was registered. -/
structure Registrar.Kept (r : Registrar) : Prop where
  tracked : acquired r.ledger ≤ released r.ledger + r.backend.liveAddrs
  /-- What is still registered the destructor attempts to unregister. -/
  attempted : acquired r.ledger ≤ released r.ledger + r.backend.destroy.1

/-- The call does not lose a region: `RegisterBuffer` finds a new identifier, and
`DeregisterBuffer` has the tracked address of its handle and is answered with success. -/
def RegistrationCall.Keeps (r : Registrar) : RegistrationCall → Prop
  | registerBuffer answer _ _ _ =>
    answer = 0 → r.backend.nextRegId ∉ r.backend.liveRegistrations
  | deregisterBuffer answer handle =>
    ∀ addr, r.backend.liveRegistrations.lookup handle.regId = some addr →
      answer = 0 ∧ handle.addr = addr

/-! ## One call -/

/-- What is registered has been unregistered or is tracked, and nothing else. -/
def Registrar.Balanced (r : Registrar) : Prop :=
  acquired r.ledger = released r.ledger + r.backend.liveAddrs

variable {r : Registrar} {answer : Int} {addr len : Nat} {onGpu : Bool} {handle : BufferHandle}

theorem Registrar.Balanced.kept (h : r.Balanced) : r.Kept := ⟨h.le, h.le⟩

/-- The tracked address of a handle, and the others. -/
theorem liveAddrs_erase {s : MooncakeTransferBackend} (answer : Int)
    (h : s.liveRegistrations.lookup handle.regId = some addr) :
    (s.liveAddrs : Multiset Nat) = addr ::ₘ (s.deregisterBuffer answer handle).2.liveAddrs := by
  have hmem : handle.regId ∈ s.liveRegistrations := mem_of_lookup h
  have hperm := (perm_erase h).map Sigma.snd
  unfold MooncakeTransferBackend.deregisterBuffer
  rw [if_neg (not_not.mpr hmem)]
  by_cases hanswer : answer = 0
  · rw [if_neg (not_not.mpr hanswer)]
    exact Multiset.coe_eq_coe.mpr hperm
  · rw [if_pos hanswer]
    exact Multiset.coe_eq_coe.mpr hperm

theorem liveAddrs_insert {s : MooncakeTransferBackend}
    (h : s.nextRegId ∉ s.liveRegistrations) :
    (s.registerBuffer 0 addr len onGpu).2.liveAddrs = addr :: s.liveAddrs := by
  simp [MooncakeTransferBackend.registerBuffer, MooncakeTransferBackend.liveAddrs, h,
    List.kerase_of_notMem_keys h]

/-- `emplace` keeps what was there under the identifier. -/
theorem liveAddrs_emplace {s : MooncakeTransferBackend}
    (h : s.nextRegId ∈ s.liveRegistrations) :
    (s.registerBuffer 0 addr len onGpu).2.liveAddrs = s.liveAddrs := by
  simp [MooncakeTransferBackend.registerBuffer, MooncakeTransferBackend.liveAddrs, h]

/-- A refused registration changes nothing. -/
theorem run_registerBuffer_refused (h : answer ≠ 0) :
    RegistrationCall.run r (.registerBuffer answer addr len onGpu) = r := by
  simp [RegistrationCall.run, MooncakeTransferBackend.registerBuffer, h]

/-- An unknown handle changes nothing. -/
theorem run_deregisterBuffer_unknown (h : handle.regId ∉ r.backend.liveRegistrations) :
    RegistrationCall.run r (.deregisterBuffer answer handle) = r := by
  simp [RegistrationCall.run, MooncakeTransferBackend.deregisterBuffer, h]

theorem balanced_run {call : RegistrationCall} (h : r.Balanced) (hkeeps : call.Keeps r) :
    (call.run r).Balanced := by
  cases call with
  | registerBuffer answer addr len onGpu =>
    by_cases hanswer : answer = 0
    · subst hanswer
      show acquired (.acquired addr :: r.ledger) = released (.acquired addr :: r.ledger) +
        (r.backend.registerBuffer 0 addr len onGpu).2.liveAddrs
      rw [liveAddrs_insert (hkeeps rfl), acquired, released, h, ← Multiset.cons_coe,
        Multiset.add_cons]
    · rw [run_registerBuffer_refused hanswer]
      exact h
  | deregisterBuffer answer handle =>
    cases htracked : r.backend.liveRegistrations.lookup handle.regId with
    | none =>
      rw [run_deregisterBuffer_unknown (AList.lookup_eq_none.mp htracked)]
      exact h
    | some addr =>
      obtain ⟨rfl, rfl⟩ := hkeeps addr htracked
      have hmem : handle.regId ∈ r.backend.liveRegistrations := mem_of_lookup htracked
      have hbalance : acquired r.ledger = released r.ledger + r.backend.liveAddrs := h
      rw [liveAddrs_erase 0 htracked] at hbalance
      simp only [Registrar.Balanced, RegistrationCall.run, if_pos (And.intro hmem trivial)]
      rw [acquired, released, hbalance, Multiset.cons_add, Multiset.add_cons]

theorem not_kept_run {call : RegistrationCall} (h : r.Balanced) (hloses : ¬ call.Keeps r) :
    ¬ (call.run r).Kept := by
  intro hkept
  have hle := hkept.tracked
  have hbalance : acquired r.ledger = released r.ledger + r.backend.liveAddrs := h
  cases call with
  | registerBuffer answer addr len onGpu =>
    obtain ⟨rfl, hold⟩ : answer = 0 ∧ r.backend.nextRegId ∈ r.backend.liveRegistrations := by
      simpa [RegistrationCall.Keeps] using hloses
    replace hle : addr ::ₘ acquired r.ledger ≤
      released r.ledger + (r.backend.registerBuffer 0 addr len onGpu).2.liveAddrs := hle
    rw [liveAddrs_emplace hold, ← hbalance] at hle
    exact (Multiset.lt_cons_self _ _).not_ge hle
  | deregisterBuffer answer handle =>
    simp only [RegistrationCall.Keeps, not_forall] at hloses
    obtain ⟨addr, htracked, hloses⟩ := hloses
    have hmem : handle.regId ∈ r.backend.liveRegistrations := mem_of_lookup htracked
    rw [liveAddrs_erase answer htracked, Multiset.add_cons] at hbalance
    by_cases hanswer : answer = 0
    · have hother : addr ≠ handle.addr := fun heq => hloses ⟨hanswer, heq.symm⟩
      simp only [RegistrationCall.run, if_pos (And.intro hmem hanswer), acquired, released,
        hbalance, Multiset.cons_add] at hle
      have hcount := Multiset.count_le_of_le addr hle
      rw [Multiset.count_cons_self, Multiset.count_cons_of_ne hother] at hcount
      omega
    · simp only [RegistrationCall.run, if_neg (fun hand => hanswer (And.right hand)),
        hbalance] at hle
      exact (Multiset.lt_cons_self _ _).not_ge hle

/-! ## Every sequence of calls -/

/-- **What stays registered.** Throughout a sequence of calls each registered region is tracked or
unregistered exactly if no call of the sequence loses one. -/
theorem registrations_kept_iff (gpuLocation : String) (rdmaInstalled : Bool) (segment : Int32)
    (calls : List RegistrationCall) :
    let start : Registrar := { backend := .created gpuLocation rdmaInstalled segment }
    (∀ before, before <+: calls → (before.foldl RegistrationCall.run start).Kept) ↔
      AtEvery (fun before call => call.Keeps (before.foldl RegistrationCall.run start)) calls := by
  intro start
  have hstart : start.Balanced := rfl
  exact throughout_iff hstart Registrar.Balanced.kept balanced_run not_kept_run calls

/-- A region that the engine failed to unregister is not tracked any more. -/
theorem failedUnregister_untracked :
    ¬ ([RegistrationCall.registerBuffer 0 4096 64 false,
        .deregisterBuffer 1 ⟨4096, 64, 1, false⟩].foldl RegistrationCall.run
      { backend := .created "cuda:0" true 0 }).Kept :=
  fun h => absurd h.tracked (by decide)

end TieredKVCache.Adapter
