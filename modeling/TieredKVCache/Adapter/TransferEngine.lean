import TieredKVCache.Core.Types

/-!
# The interface to the transfer engine

The data of `transfer_engine_adapter.h`: buffer handles, transfer requests, receipts and errors.
The pipeline and the registration guards take the backend as they find it: what it returns is
arbitrary there. The two backends of the repository are modelled in `Adapter.FakeBackend` and
`Adapter.MooncakeBackend`.
-/

namespace TieredKVCache.Adapter

inductive TransportPath where
  | rdma | gpuDirect | tcp
deriving DecidableEq, Repr

/-- `TransportPathName`. -/
def TransportPath.name : TransportPath → String
  | rdma => "rdma"
  | gpuDirect => "gpudirect"
  | tcp => "tcp"

structure BufferHandle where
  addr : Nat := 0
  length : Nat := 0
  regId : UInt64 := 0
  onGpu : Bool := false
deriving DecidableEq, Repr

structure TransferRequest where
  key : BlockKey
  src : BufferHandle
  dst : BufferHandle
  preferred : TransportPath := .rdma
deriving DecidableEq, Repr

structure TransferReceipt where
  key : BlockKey
  path : TransportPath := .rdma
  transferredBytes : Nat := 0
deriving DecidableEq, Repr

structure TransferError where
  failingKey : BlockKey := {}
  path : TransportPath := .rdma
  reason : String := ""
deriving DecidableEq, Repr

end TieredKVCache.Adapter
