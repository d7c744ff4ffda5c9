import TieredKVCache.Storage.Replies

/-!
# The sharded store

`ShardedTieredStore` of `sharded_tiered_store.h`: the keys are spread over independent managers by
their hash, and every manager has its part of the global capacities. A call is a `Program`: a
sequence of calls on single shards, of which each depends on the replies before it. `Program.run`
runs one without interruption.

A write is accepted by size alone, in a single manager as in a shard of the store, so that it is
decided call by call which accepted writes of a single manager the store accepts too
(`runs_dropIn_iff`).
-/

namespace TieredKVCache.Storage

open Lib

/-! ## Definitions from the source -/

/-- `shard_count_` and the hash function. -/
structure Sharding where
  count : Nat
  count_pos : 0 < count
  hash : BlockKey → UInt64

namespace Sharding

/-- The constructor reads a count of zero as one. -/
def new (shardCount : Nat) (hash : BlockKey → UInt64) : Sharding where
  count := if shardCount = 0 then 1 else shardCount
  count_pos := by split <;> omega
  hash := hash

def shardOf (sharding : Sharding) (key : BlockKey) : Fin sharding.count :=
  ⟨(sharding.hash key).toNat % sharding.count, Nat.mod_lt _ sharding.count_pos⟩

end Sharding

/-- The configuration of a shard. -/
def perShard {D : Type} (sharding : Sharding) (config : TierConfig D) : TierConfig D :=
  let divide : Option Nat → Option Nat := Option.map (· / sharding.count)
  { config with
    hbmCapacityBytes := divide config.hbmCapacityBytes
    dramCapacityBytes := divide config.dramCapacityBytes
    nvmeCapacityBytes := divide config.nvmeCapacityBytes }

/-- A public call of the store; a write is for the tenant of number zero. -/
inductive ShardedOp where
  | write (block : KVCacheBlock) (target : Tier)
  | read (key : BlockKey)
  | prefetch (keys : List BlockKey)
  | enforceCapacity (tier : Tier)
  | occupancy (tier : Tier)

inductive ShardedReply where
  | reply (reply : Reply)
  | occupancy (total : TierOccupancy)
deriving DecidableEq

/-- The rest of a call: it returns, or calls one shard and goes on with what that replies. -/
inductive Program (n : Nat) where
  | done (reply : ShardedReply)
  | call (shard : Fin n) (op : Op) (next : Reply → Program n)
  | occupancy (shard : Fin n) (tier : Tier) (next : TierOccupancy → Program n)

namespace Program

variable {n : Nat}

/-- The statement `if (const auto status = ...; !status.ok()) return status;`. -/
def unlessOk (next : Program n) : Reply → Program n
  | .status status => if !status.isOk then .done (.reply (.status status)) else next
  | .block result => .done (.reply (.block result))

def prefetch (shardOf : BlockKey → Fin n) : List BlockKey → Program n
  | [] => .done (.reply (.status .success))
  | key :: rest => .call (shardOf key) (.prefetch [key]) (unlessOk (prefetch shardOf rest))

def enforceCapacity (tier : Tier) : List (Fin n) → Program n
  | [] => .done (.reply (.status .success))
  | shard :: rest => .call shard (.enforceCapacity tier) (unlessOk (enforceCapacity tier rest))

def occupancyFrom (tier : Tier) : List (Fin n) → TierOccupancy → Program n
  | [], total => .done (.occupancy total)
  | shard :: rest, total =>
    .occupancy shard tier fun occupancy =>
      occupancyFrom tier rest
        ⟨total.usedBytes + occupancy.usedBytes, total.capacityBytes + occupancy.capacityBytes⟩

end Program

def ShardedOp.program (sharding : Sharding) : ShardedOp → Program sharding.count
  | .write block target =>
    .call (sharding.shardOf block.key) (.write block target 0) fun reply => .done (.reply reply)
  | .read key => .call (sharding.shardOf key) (.read key) fun reply => .done (.reply reply)
  | .prefetch keys => .prefetch sharding.shardOf keys
  | .enforceCapacity tier => .enforceCapacity tier (List.finRange sharding.count)
  | .occupancy tier => .occupancyFrom tier (List.finRange sharding.count) ⟨0, 0⟩

section

variable {D : Type} [DoubleArith D] (sharding : Sharding) (config : TierConfig D)

/-- A call that nothing interrupts. -/
def Program.run {n : Nat} (config : TierConfig D) : Program n → (Fin n → State) →
    Except Fault (ShardedReply × (Fin n → State))
  | .done reply, shards => .ok (reply, shards)
  | .call shard op next, shards => do
    let (reply, s) ← runOp .lazy config op (shards shard)
    (next reply).run config (Function.update shards shard s)
  | .occupancy shard tier next, shards =>
    (next (Storage.occupancy config tier (shards shard))).run config shards

/-- The calls one after the other on the sharded store, and their replies. -/
def runSharded : List ShardedOp → (Fin sharding.count → State) →
    Except Fault (List ShardedReply × (Fin sharding.count → State))
  | [], shards => .ok ([], shards)
  | op :: ops, shards => do
    let (reply, shards) ← (op.program sharding).run (perShard sharding config) shards
    let (replies, shards) ← runSharded ops shards
    return (reply :: replies, shards)

/-- The same call on a single manager. -/
def ShardedOp.runSingle : ShardedOp → State → Except Fault (ShardedReply × State)
  | .write block target, s => do
    let (reply, s) ← runOp .lazy config (.write block target 0) s
    return (.reply reply, s)
  | .read key, s => do
    let (reply, s) ← runOp .lazy config (.read key) s
    return (.reply reply, s)
  | .prefetch keys, s => do
    let (reply, s) ← runOp .lazy config (.prefetch keys) s
    return (.reply reply, s)
  | .enforceCapacity tier, s => do
    let (reply, s) ← runOp .lazy config (.enforceCapacity tier) s
    return (.reply reply, s)
  | .occupancy tier, s => .ok (.occupancy (Storage.occupancy config tier s), s)

def runSingle : List ShardedOp → State → Except Fault (List ShardedReply × State)
  | [], s => .ok ([], s)
  | op :: ops, s => do
    let (reply, s) ← op.runSingle config s
    let (replies, s) ← runSingle ops s
    return (reply :: replies, s)

end

/-- A freshly constructed store. -/
def freshShards (n : Nat) : Fin n → State := fun _ => State.fresh

/-- A call that returned the status `Ok`. -/
def ShardedReply.isOk : ShardedReply → Bool
  | .reply (.status status) => status.isOk
  | _ => false

section

variable {D : Type} [DoubleArith D] {sharding : Sharding} {config : TierConfig D}

/-! ## What the calls keep -/

theorem Program.run_good {n : Nat} (p : Program n) {shards : Fin n → State}
    (h : ∀ i, Good config (shards i)) :
    Returns (p.run config shards) fun r => ∀ i, Good config (r.2 i) := by
  induction p generalizing shards with
  | done reply => exact returns_ok h
  | call shard op next ih =>
    apply (runOp_returns (h shard) op).bind
    rintro ⟨reply, s⟩ ⟨-, hgood⟩
    refine ih reply fun i => ?_
    by_cases hi : i = shard
    · subst hi
      rwa [Function.update_self]
    · rw [Function.update_of_ne hi]
      exact h i
  | occupancy shard tier next ih => exact ih _ h

/-- The reply to a write says whether it is accepted. -/
def Answers (config : TierConfig D) (op : ShardedOp) (reply : ShardedReply) : Prop :=
  ∀ block target, op = .write block target → (reply.isOk = true ↔ Accepts config block target)

theorem runOp_write_answers {s : State} (hgood : Good config s) (block : KVCacheBlock)
    (target : Tier) (tenantId : UInt32) :
    Returns (runOp .lazy config (.write block target tenantId) s) fun r =>
      Answers config (.write block target) (.reply r.1) ∧ Good config r.2 := by
  apply (write_replies .lazy hgood block target tenantId).bind
  rintro ⟨status, s'⟩ ⟨hok, -, hgood'⟩
  refine returns_ok ⟨fun block' target' heq => ?_, hgood'⟩
  cases heq
  exact hok

theorem runSingle_answers {s : State} (ops : List ShardedOp) (hgood : Good config s) :
    Returns (runSingle config ops s) fun r => List.Forall₂ (Answers config) ops r.1 := by
  induction ops generalizing s with
  | nil => exact returns_ok .nil
  | cons op ops ih =>
    have hop : Returns (op.runSingle config s) fun r =>
        Answers config op r.1 ∧ Good config r.2 := by
      have hother (op' : Op) (hno : ∀ block target, op ≠ .write block target) :
          Returns (runOp .lazy config op' s >>= fun r =>
            (return (.reply r.1, r.2) : Except Fault (ShardedReply × State))) fun r =>
              Answers config op r.1 ∧ Good config r.2 :=
        (runOp_returns hgood op').bind fun r h =>
          returns_ok ⟨fun block target heq => absurd heq (hno block target), h.2⟩
      cases op with
      | write block target =>
        exact (runOp_write_answers hgood block target 0).bind fun r h => returns_ok h
      | read key => exact hother _ (by simp)
      | prefetch keys => exact hother _ (by simp)
      | enforceCapacity tier => exact hother _ (by simp)
      | occupancy tier => exact returns_ok ⟨by simp [Answers], hgood⟩
    apply hop.bind
    rintro ⟨reply, s'⟩ ⟨hreply, hgood'⟩
    exact (ih hgood').bind fun r hr => returns_ok (.cons hreply hr)

theorem runSharded_answers {shards : Fin sharding.count → State} (ops : List ShardedOp)
    (hgood : ∀ i, Good (perShard sharding config) (shards i)) :
    Returns (runSharded sharding config ops shards) fun r =>
      List.Forall₂ (Answers (perShard sharding config)) ops r.1 := by
  induction ops generalizing shards with
  | nil => exact returns_ok .nil
  | cons op ops ih =>
    have hop : Returns ((op.program sharding).run (perShard sharding config) shards) fun r =>
        Answers (perShard sharding config) op r.1 ∧
          ∀ i, Good (perShard sharding config) (r.2 i) := by
      have hgood' := (op.program sharding).run_good hgood
      cases op with
      | write block target =>
        obtain ⟨r, hr, hshards⟩ := hgood'
        have hwrite := runOp_write_answers (hgood (sharding.shardOf block.key)) block target 0
        have hanswers : Returns ((ShardedOp.write block target).program sharding |>.run
            (perShard sharding config) shards) fun r =>
              Answers (perShard sharding config) (.write block target) r.1 :=
          hwrite.bind fun r h => returns_ok h.1
        exact ⟨r, hr, hanswers.of_eq hr, hshards⟩
      | _ => exact hgood'.mono fun r h => ⟨by simp [Answers], h⟩
    apply hop.bind
    rintro ⟨reply, shards'⟩ ⟨hreply, hgood'⟩
    exact (ih hgood').bind fun r hr => returns_ok (.cons hreply hr)

/-! ## The store in place of a single manager -/

/-- In the run of the calls on fresh stores, every write that returns `Ok` on a single manager
returns `Ok` on the sharded store. -/
def DropIn (sharding : Sharding) (config : TierConfig D) (ops : List ShardedOp) : Prop :=
  Returns (runSingle config ops State.fresh) fun single =>
    Returns (runSharded sharding config ops (freshShards sharding.count)) fun sharded =>
      ∀ e ∈ ops.zip (single.1.zip sharded.1), ∀ block target, e.1 = .write block target →
        e.2.1.isOk = true → e.2.2.isOk = true

theorem forall_mem_zip_iff {single sharded : List ShardedReply}
    {ops : List ShardedOp} (hsingle : List.Forall₂ (Answers config) ops single)
    (hsharded : List.Forall₂ (Answers (perShard sharding config)) ops sharded) :
    (∀ e ∈ ops.zip (single.zip sharded), ∀ block target, e.1 = .write block target →
        e.2.1.isOk = true → e.2.2.isOk = true) ↔
      ∀ block target, .write block target ∈ ops → Accepts config block target →
        Accepts (perShard sharding config) block target := by
  induction hsingle generalizing sharded with
  | nil => simp
  | @cons op reply ops single hreply hsingle ih =>
    cases hsharded with
    | @cons _ reply' _ sharded hreply' hsharded =>
      rw [List.zip_cons_cons, List.zip_cons_cons, List.forall_mem_cons, ih hsharded]
      simp only [List.mem_cons]
      constructor
      · rintro ⟨hhead, htail⟩ block target (rfl | hmem)
        · rw [← hreply block target rfl, ← hreply' block target rfl]
          exact hhead block target rfl
        · exact htail block target hmem
      · intro hall
        refine ⟨fun block target heq => ?_, fun block target hmem => hall block target (.inr hmem)⟩
        rw [hreply block target heq, hreply' block target heq]
        exact hall block target (.inl heq.symm)

theorem DropIn.accepts {ops : List ShardedOp} (h : DropIn sharding config ops) :
    ∀ block target, .write block target ∈ ops → Accepts config block target →
      Accepts (perShard sharding config) block target := by
  obtain ⟨single, hrun, sharded, hrun', hall⟩ := h
  have hsingle := (runSingle_answers ops (good_fresh config)).of_eq hrun
  have hsharded :=
    (runSharded_answers ops fun _ => good_fresh (perShard sharding config)).of_eq hrun'
  exact (forall_mem_zip_iff hsingle hsharded).mp hall

end

/-- **Acceptance by the shards.** On a sequence of calls, every write that a single manager accepts
is accepted by the sharded store if and only if every block that is written within the threshold of
the tier it goes to is within the threshold of that tier in a shard too. -/
theorem runs_dropIn_iff {D : Type} [DoubleArith D] (config : TierConfig D) (shardCount : Nat)
    (hash : BlockKey → UInt64) (ops : List ShardedOp) :
    DropIn (Sharding.new shardCount hash) config ops ↔
      ∀ block target, .write block target ∈ ops → Accepts config block target →
        Accepts (perShard (Sharding.new shardCount hash) config) block target := by
  refine ⟨fun h => h.accepts, fun haccepts => ?_⟩
  refine (runSingle_answers ops (good_fresh config)).mono fun single hsingle => ?_
  refine (runSharded_answers ops fun _ => good_fresh _).mono fun sharded hsharded => ?_
  exact (forall_mem_zip_iff hsingle hsharded).mpr haccepts

/-- One block of six bytes for a tier of ten, in two shards. -/
def sixOfTen : List ShardedOp := [.write (plainBlock 1 6) .hbm]

theorem sixOfTen_refused : ¬ DropIn (Sharding.new 2 fun _ => 0) oneTier sixOfTen := by
  intro h
  have hsingle : Accepts oneTier (plainBlock 1 6) .hbm := ⟨.hbm, rfl, by decide +kernel⟩
  obtain ⟨t, ht, hsize⟩ := h.accepts _ _ List.mem_cons_self hsingle
  cases ht
  exact absurd hsize (by decide +kernel)

end TieredKVCache.Storage
