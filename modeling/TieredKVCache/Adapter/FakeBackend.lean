import Mathlib.Data.Finset.Basic
import TieredKVCache.Adapter.TransferEngine

/-!
# The backend of the tests

`FakeTransferBackend` of `adapter/fake_backend.h`, which copies between two registered buffers of
the process. `hold_transfers` only delays a submission and is left out.
-/

namespace TieredKVCache.Adapter

/-- The call of `memcpy`. -/
structure Memcpy where
  dest : Nat
  src : Nat
  count : Nat
deriving DecidableEq, Repr

structure FakeTransferBackend where
  rdmaAvailable : Bool := true
  gpuDirectAvailable : Bool := true
  failNextTransfer : Int := 0
  nextRegId : UInt64 := 1
  liveRegistrations : Finset UInt64 := ∅
  registerCount : UInt64 := 0
  deregisterCount : UInt64 := 0
  submitCount : UInt64 := 0
  lastError : TransferError := {}

namespace FakeTransferBackend

def registerBuffer (addr len : Nat) (onGpu : Bool) (s : FakeTransferBackend) :
    Result BufferHandle × FakeTransferBackend :=
  if addr = 0 ∨ len = 0 then (.ofStatus (.make .invalidArgument "空缓冲不可注册"), s)
  else
    let handle : BufferHandle := ⟨addr, len, s.nextRegId, onGpu⟩
    (.ok handle, { s with
      nextRegId := s.nextRegId + 1
      liveRegistrations := insert handle.regId s.liveRegistrations
      registerCount := s.registerCount + 1 })

def deregisterBuffer (handle : BufferHandle) (s : FakeTransferBackend) :
    Status × FakeTransferBackend :=
  if handle.regId ∉ s.liveRegistrations then
    (.make .addressNotRegistered "句柄未注册或已注销", s)
  else
    (.success, { s with
      liveRegistrations := s.liveRegistrations.erase handle.regId
      deregisterCount := s.deregisterCount + 1 })

def selectPath (request : TransferRequest) (s : FakeTransferBackend) : TransportPath :=
  if (request.src.onGpu || request.dst.onGpu) && s.gpuDirectAvailable && s.rdmaAvailable then
    .gpuDirect
  else if s.rdmaAvailable then .rdma
  else .tcp

/-- What is copied, what the future holds, and the state after the call. -/
def submitAsync (request : TransferRequest) (s : FakeTransferBackend) :
    Option Memcpy × Result TransferReceipt × FakeTransferBackend :=
  let path := s.selectPath request
  let s := { s with submitCount := s.submitCount + 1 }
  if request.src.regId ∉ s.liveRegistrations ∨ request.dst.regId ∉ s.liveRegistrations then
    (none, .ofStatus (.make .addressNotRegistered
      ("源/目标缓冲未注册，零拷贝前提不满足；failing_key.hash_id=" ++
        toString request.key.hashId)), s)
  else if s.failNextTransfer > 0 then
    let lastError : TransferError := ⟨request.key, path,
      "注入的传输失败（测试）；failing_key.hash_id=" ++ toString request.key.hashId⟩
    (none, .ofStatus (.make .transferFailed lastError.reason),
      { s with failNextTransfer := s.failNextTransfer - 1, lastError })
  else
    let bytes := if request.src.length < request.dst.length then request.src.length
      else request.dst.length
    (some ⟨request.dst.addr, request.src.addr, bytes⟩, .ok ⟨request.key, path, bytes⟩, s)

/-- The buffers are registered, and no failure is due. -/
def Accepts (request : TransferRequest) (s : FakeTransferBackend) : Prop :=
  request.src.regId ∈ s.liveRegistrations ∧ request.dst.regId ∈ s.liveRegistrations ∧
    s.failNextTransfer ≤ 0

instance (request : TransferRequest) (s : FakeTransferBackend) : Decidable (s.Accepts request) :=
  inferInstanceAs (Decidable (_ ∧ _ ∧ _))

/-- What is copied is as long as the shorter buffer. -/
theorem memcpy_submitAsync (request : TransferRequest) (s : FakeTransferBackend) :
    (s.submitAsync request).1 =
      if s.Accepts request then
        some ⟨request.dst.addr, request.src.addr, min request.src.length request.dst.length⟩
      else none := by
  unfold submitAsync
  dsimp only
  split
  next hdead =>
    rw [if_neg]
    rintro ⟨hsrc, hdst, -⟩
    exact hdead.elim (absurd hsrc) (absurd hdst)
  next hlive =>
    obtain ⟨hsrc, hdst⟩ := not_or.mp hlive
    split
    next hfail =>
      rw [if_neg]
      rintro ⟨-, -, hnone⟩
      omega
    next hnone =>
      have haccepts : s.Accepts request :=
        ⟨not_not.mp hsrc, not_not.mp hdst, Int.not_lt.mp hnone⟩
      have hbytes : (if request.src.length < request.dst.length then request.src.length
          else request.dst.length) = min request.src.length request.dst.length := by
        split <;> omega
      rw [if_pos haccepts, hbytes]

end FakeTransferBackend

end TieredKVCache.Adapter
