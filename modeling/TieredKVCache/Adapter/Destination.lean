import TieredKVCache.Adapter.FakeBackend
import TieredKVCache.Adapter.MooncakeBackend

/-!
# What a transfer writes

Both backends write from the start of the destination buffer. The one of the tests copies as many
bytes as the shorter buffer has, the one over the upstream engine submits as many as the source
has. They agree, and stay inside the destination, where the source is not the longer buffer
(`transfersAgree_iff`).
-/

namespace TieredKVCache.Adapter

structure ByteRange where
  addr : Nat
  length : Nat
deriving DecidableEq, Repr

/-- The bytes that a copy writes. -/
def Memcpy.written (copy : Memcpy) : ByteRange := ⟨copy.dest, copy.count⟩

/-- The range starts at the destination, and is no longer than either buffer. -/
def ByteRange.Inside (request : TransferRequest) (range : ByteRange) : Prop :=
  range.addr = request.dst.addr ∧ range.length ≤ min request.src.length request.dst.length

/-- An engine that writes what a submitted entry says, and nothing else. -/
def WritesExactly (written : EngineRequest → List ByteRange) : Prop :=
  ∀ entry, entry.opcode = opcodeWrite → written entry = [⟨entry.targetOffset, entry.length⟩]

/-- What the backends do for a request: a copy of the one, the calls of the other, and what the
engine writes for an entry. -/
structure TransfersAgree (written : EngineRequest → List ByteRange) (request : TransferRequest)
    (copy : Option Memcpy) (calls : List EngineCall) : Prop where
  fake : ∀ c, copy = some c → c.written.Inside request
  mooncake : ∀ entry ∈ submittedEntries calls, ∀ range ∈ written entry, range.Inside request
  /-- Where both request bytes, they request the same number. -/
  same : ∀ c, copy = some c → ∀ entry ∈ submittedEntries calls, c.count = entry.length

section

variable {written : EngineRequest → List ByteRange} {request : TransferRequest}
  {answers : EngineAnswers} {fake : FakeTransferBackend} {mooncake : MooncakeTransferBackend}

theorem memcpy_of_submitAsync {c : Memcpy} (h : (fake.submitAsync request).1 = some c) :
    c = ⟨request.dst.addr, request.src.addr, min request.src.length request.dst.length⟩ := by
  rw [fake.memcpy_submitAsync] at h
  split at h
  next => exact (Option.some.inj h).symm
  next => cases h

theorem entry_of_submitAsync {entry : EngineRequest}
    (h : entry ∈ submittedEntries (mooncake.submitAsync request answers).1) :
    entry = mooncake.entry request ∧ mooncake.Accepts request answers := by
  rw [mooncake.submittedEntries_submitAsync] at h
  split at h
  next haccepts => exact ⟨List.mem_singleton.mp h, haccepts⟩
  next => cases h

/-- The copy of the test backend stays inside the destination. -/
theorem memcpy_inside {c : Memcpy} (h : (fake.submitAsync request).1 = some c) :
    c.written.Inside request := by
  obtain rfl := memcpy_of_submitAsync h
  exact ⟨rfl, Nat.le_refl _⟩

end

/-- **What a transfer writes.** The backends stay inside the destination and request the same
number of bytes exactly if the source is not longer than the destination, or the engine has no
batch for the request. -/
theorem transfersAgree_iff (written : EngineRequest → List ByteRange)
    (hwritten : WritesExactly written) (fake : FakeTransferBackend)
    (mooncake : MooncakeTransferBackend) (request : TransferRequest) (answers : EngineAnswers)
    (hsrc : request.src.regId ∈ mooncake.liveRegistrations)
    (hdst : request.dst.regId ∈ mooncake.liveRegistrations) :
    TransfersAgree written request (fake.submitAsync request).1
        (mooncake.submitAsync request answers).1 ↔
      request.src.length ≤ request.dst.length ∨ answers.batch = invalidBatch := by
  have hentry : written (mooncake.entry request) = [⟨request.dst.addr, request.src.length⟩] :=
    hwritten _ rfl
  constructor
  · intro hagree
    rw [or_iff_not_imp_right]
    intro hbatch
    have haccepts : mooncake.Accepts request answers := ⟨hsrc, hdst, hbatch⟩
    have hmem : mooncake.entry request ∈
        submittedEntries (mooncake.submitAsync request answers).1 := by
      rw [mooncake.submittedEntries_submitAsync, if_pos haccepts]
      exact List.mem_singleton_self _
    have hinside : ByteRange.Inside request ⟨request.dst.addr, request.src.length⟩ :=
      hagree.mooncake _ hmem _ (hentry ▸ List.mem_singleton_self _)
    exact hinside.2.trans (Nat.min_le_right _ _)
  · intro hcase
    have hlength {entry : EngineRequest}
        (h : entry ∈ submittedEntries (mooncake.submitAsync request answers).1) :
        entry = mooncake.entry request ∧ request.src.length ≤ request.dst.length := by
      obtain ⟨rfl, haccepts⟩ := entry_of_submitAsync h
      exact ⟨rfl, hcase.resolve_right haccepts.2.2⟩
    refine ⟨fun c => memcpy_inside, ?mooncake, ?same⟩
    case mooncake =>
      intro entry h range hrange
      obtain ⟨rfl, hle⟩ := hlength h
      rw [hentry, List.mem_singleton] at hrange
      subst hrange
      exact ⟨rfl, Nat.le_min.mpr ⟨Nat.le_refl _, hle⟩⟩
    case same =>
      intro c hc entry h
      obtain ⟨rfl, hle⟩ := hlength h
      rw [memcpy_of_submitAsync hc]
      exact Nat.min_eq_left hle

/-- The engine of the assumption. -/
def entryRange (entry : EngineRequest) : List ByteRange := [⟨entry.targetOffset, entry.length⟩]

/-- A buffer of 8 bytes and one of 4 bytes, registered first and second. -/
def longToShort : TransferRequest where
  key := {}
  src := ⟨4096, 8, 1, false⟩
  dst := ⟨8192, 4, 2, false⟩

def fakeOfTwo : FakeTransferBackend :=
  (FakeTransferBackend.registerBuffer 8192 4 false
    (FakeTransferBackend.registerBuffer 4096 8 false {}).2).2

def mooncakeOfTwo : MooncakeTransferBackend :=
  (MooncakeTransferBackend.registerBuffer 0 8192 4 false
    (MooncakeTransferBackend.registerBuffer 0 4096 8 false {}).2).2

/-- Batch 7, and the transfer is complete at the first poll. -/
def completedAtOnce : EngineAnswers := ⟨7, 0, [(0, ⟨statusCompleted, 8⟩)]⟩

theorem transfersAgree_iff_longToShort :
    TransfersAgree entryRange longToShort (fakeOfTwo.submitAsync longToShort).1
        (mooncakeOfTwo.submitAsync longToShort completedAtOnce).1 ↔
      8 ≤ 4 ∨ completedAtOnce.batch = invalidBatch :=
  transfersAgree_iff entryRange (fun _ _ => rfl) fakeOfTwo mooncakeOfTwo longToShort
    completedAtOnce (by decide) (by decide)

/-- Both buffers are registered with both backends, and the upstream engine is told to write 8
bytes where the destination has 4. -/
theorem longToShort_overruns :
    (fakeOfTwo.Accepts longToShort ∧ mooncakeOfTwo.Accepts longToShort completedAtOnce) ∧
      ¬ TransfersAgree entryRange longToShort (fakeOfTwo.submitAsync longToShort).1
        (mooncakeOfTwo.submitAsync longToShort completedAtOnce).1 := by
  refine ⟨by decide, fun hagree => ?_⟩
  have hmem : mooncakeOfTwo.entry longToShort ∈
      submittedEntries (mooncakeOfTwo.submitAsync longToShort completedAtOnce).1 := by
    decide
  have hinside : ByteRange.Inside longToShort ⟨8192, 8⟩ :=
    hagree.mooncake _ hmem _ (List.mem_singleton_self _)
  have hlength : 8 ≤ min 8 4 := hinside.2
  omega

end TieredKVCache.Adapter
