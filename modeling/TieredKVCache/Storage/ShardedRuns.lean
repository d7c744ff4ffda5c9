import Mathlib.Algebra.Order.BigOperators.Group.Finset
import TieredKVCache.Lib.Transition
import TieredKVCache.Storage.Ledger
import TieredKVCache.Storage.Residents
import TieredKVCache.Storage.Sharded

/-!
# Concurrent calls of the sharded store

Any number of clients call the store. A step of a client is its call of one shard, under the mutex
of that shard, or the beginning or the end of a call of the store; the steps of the clients
interleave in any order.

A shard holds only keys of its own, and what it holds was written by the last accepted write of the
key (`Shards`); the rest of a call writes a key only to its shard, and adds up occupancies that are
within the capacities of the shards (`Serves`). Both are kept by every step.
-/

namespace TieredKVCache.Storage

open Lib

/-! ## Definitions -/

/-- A call of the store that has begun, and what is left of it. -/
structure Client (n : Nat) where
  op : ShardedOp
  rest : Program n

structure System (n : Nat) (Tid : Type) where
  shards : Fin n → State
  clients : Tid → Option (Client n)

/-- A fresh store, and no call of it. -/
def System.init (n : Nat) (Tid : Type) : System n Tid := ⟨freshShards n, fun _ => none⟩

inductive Event (n : Nat) (Tid : Type) where
  | invoked (tid : Tid) (op : ShardedOp)
  | called (tid : Tid) (shard : Fin n) (op : Op) (reply : Reply)
  | occupied (tid : Tid) (shard : Fin n) (tier : Tier) (occupancy : TierOccupancy)
  | returned (tid : Tid) (op : ShardedOp) (reply : ShardedReply)

/-- The client of an event. -/
def Event.tid {n : Nat} {Tid : Type} : Event n Tid → Tid
  | .invoked tid _ => tid
  | .called tid _ _ _ => tid
  | .occupied tid _ _ _ => tid
  | .returned tid _ _ => tid

section

variable {D Tid : Type} [DoubleArith D] [DecidableEq Tid] (sharding : Sharding)
  (config : TierConfig D)

inductive ShardedStep (s : System sharding.count Tid) :
    Event sharding.count Tid → System sharding.count Tid → Prop
  | invoke {tid : Tid} (op : ShardedOp) (hidle : s.clients tid = none) :
      ShardedStep s (.invoked tid op)
        { s with clients := Function.update s.clients tid (some ⟨op, op.program sharding⟩) }
  | call {tid : Tid} {op : ShardedOp} {shard : Fin sharding.count} {call : Op}
      {next : Reply → Program sharding.count} {reply : Reply} {s' : State}
      (hclient : s.clients tid = some ⟨op, .call shard call next⟩)
      (hcall : runOp .lazy (perShard sharding config) call (s.shards shard) = .ok (reply, s')) :
      ShardedStep s (.called tid shard call reply)
        { shards := Function.update s.shards shard s'
          clients := Function.update s.clients tid (some ⟨op, next reply⟩) }
  | occupy {tid : Tid} {op : ShardedOp} {shard : Fin sharding.count} {tier : Tier}
      {next : TierOccupancy → Program sharding.count}
      (hclient : s.clients tid = some ⟨op, .occupancy shard tier next⟩) :
      ShardedStep s
        (.occupied tid shard tier (occupancy (perShard sharding config) tier (s.shards shard)))
        { s with
          clients := Function.update s.clients tid (some
            ⟨op, next (occupancy (perShard sharding config) tier (s.shards shard))⟩) }
  | finish {tid : Tid} {op : ShardedOp} {reply : ShardedReply}
      (hclient : s.clients tid = some ⟨op, .done reply⟩) :
      ShardedStep s (.returned tid op reply)
        { s with clients := Function.update s.clients tid none }

end

/-- The calls of shards and their replies, in order. -/
def history {n : Nat} {Tid : Type} (trace : List (Event n Tid)) : List (Op × Reply) :=
  trace.filterMap fun
    | .called _ _ op reply => some (op, reply)
    | _ => none

@[simp]
theorem history_append {n : Nat} {Tid : Type} (trace trace' : List (Event n Tid)) :
    history (trace ++ trace') = history trace ++ history trace' := List.filterMap_append

/-! ## The shards -/

section

variable {D : Type} [DoubleArith D] {sharding : Sharding} {config : TierConfig D}
  {shards : Fin sharding.count → State} {ledger : List (Op × Reply)}

/-- Every shard is a good manager that holds keys of its own, as they were written last. -/
structure Shards (sharding : Sharding) (config : TierConfig D)
    (shards : Fin sharding.count → State) (ledger : List (Op × Reply)) : Prop where
  good : ∀ shard, Good (perShard sharding config) (shards shard)
  placed : ∀ shard key, (contents (shards shard) key).isSome = true →
    shard = sharding.shardOf key
  written : ∀ shard, (contents (shards shard)).Sub (lastOkWrite ledger)

/-- A write goes to the shard of its key. -/
def Routed (sharding : Sharding) (shard : Fin sharding.count) (op : Op) : Prop :=
  ∀ block target tenantId, op = .write block target tenantId → shard = sharding.shardOf block.key

theorem shards_fresh (sharding : Sharding) (config : TierConfig D) :
    Shards sharding config (freshShards sharding.count) [] where
  good _ := good_fresh _
  placed _ _ h := by simp [contents, freshShards, State.fresh] at h
  written _ _ _ h := by simp [contents, freshShards, State.fresh] at h

theorem Shards.step {shard : Fin sharding.count} {op : Op} {reply : Reply} {s' : State}
    (h : Shards sharding config shards ledger) (hrouted : Routed sharding shard op)
    (hcall : runOp .lazy (perShard sharding config) op (shards shard) = .ok (reply, s')) :
    Shards sharding config (Function.update shards shard s') (ledger ++ [(op, reply)]) := by
  have hgood := h.good shard
  obtain ⟨hmoved, hgood'⟩ := (runOp_returns hgood op).of_eq hcall
  have hwrites {k : BlockKey} {v : KVCacheBlock × UInt32} (hk : okWrite k (op, reply) = some v) :
      shard = sharding.shardOf k := by
    unfold okWrite at hk
    split at hk
    next block target tenantId status heq =>
      cases heq
      split at hk
      next hwrite => exact hwrite.1 ▸ hrouted block target tenantId rfl
      next => cases hk
    next => cases hk
  refine ⟨fun i => ?good, fun i k hk => ?placed, fun i => ?written⟩ <;>
    rcases eq_or_ne i shard with rfl | hi
  case good.inl => rwa [Function.update_self]
  case good.inr =>
    rw [Function.update_of_ne hi]
    exact h.good i
  case placed.inl =>
    rw [Function.update_self] at hk
    obtain ⟨v, hv⟩ := Option.isSome_iff_exists.mp hk
    have hor := hmoved.contents_sub_or hgood hv
    dsimp only at hor
    cases hwrite : okWrite k (op, reply) with
    | some w => exact hwrites hwrite
    | none =>
      rw [hwrite, Option.none_or] at hor
      exact h.placed i k (Option.isSome_iff_exists.mpr ⟨v, hor⟩)
  case placed.inr =>
    rw [Function.update_of_ne hi] at hk
    exact h.placed i k hk
  case written.inl =>
    rw [Function.update_self]
    exact hmoved.contents_sub hgood (h.written i)
  case written.inr =>
    rw [Function.update_of_ne hi]
    intro k v hk
    have hnone : okWrite k (op, reply) = none := by
      rw [Option.eq_none_iff_forall_ne_some]
      intro w hw
      exact hi ((h.placed i k (Option.isSome_iff_exists.mpr ⟨v, hk⟩)).trans (hwrites hw).symm)
    rw [lastOkWrite_append, hnone, Option.none_or]
    exact h.written i hk

end

/-! ## What is left of a call -/

/-- The call of a shard was replied to after the call of the store had begun. -/
def Answered {n : Nat} {Tid : Type} (trace : List (Event n Tid)) (tid : Tid) (shard : Fin n)
    (op : Op) (reply : Reply) : Prop :=
  ∃ before after, trace = before ++ .called tid shard op reply :: after ∧
    ∀ op', .invoked tid op' ∉ after

/-- A call of the store that is one call of a shard. -/
def IsCallOf (sharding : Sharding) (op : ShardedOp) (shard : Fin sharding.count) (call : Op) :
    Prop :=
  op.program sharding = .call shard call fun reply => .done (.reply reply)

section

variable {D : Type} (sharding : Sharding) (config : TierConfig D)

/-- The total of an occupancy is within the global capacity. -/
def Bounded (op : ShardedOp) (reply : ShardedReply) : Prop :=
  ∀ tier total, op = .occupancy tier → reply = .occupancy total →
    total.usedBytes ≤ total.capacityBytes ∧ total.capacityBytes ≤ config.capacityOf tier

/-- The program writes keys to their shards only, and returns a reply that satisfies `Q` where the
shards reply with occupancies within their capacities. -/
def Serves (Q : ShardedReply → Prop) : Program sharding.count → Prop
  | .done reply => Q reply
  | .call shard op next => Routed sharding shard op ∧ ∀ reply, Serves Q (next reply)
  | .occupancy _ tier next => ∀ occupancy : TierOccupancy,
      occupancy.usedBytes ≤ occupancy.capacityBytes →
      occupancy.capacityBytes = (perShard sharding config).capacityOf tier →
      Serves Q (next occupancy)

variable {sharding config}

theorem capacityOf_perShard (tier : Tier) :
    (perShard sharding config).capacityOf tier = config.capacityOf tier / sharding.count := by
  cases tier <;>
    simp only [TierConfig.capacityOf, TierConfig.capacityField, perShard] <;>
    exact Option.getD_map (· / sharding.count) 0 _ ▸ by simp

theorem bounded_reply (op : ShardedOp) (reply : Reply) : Bounded config op (.reply reply) := by
  intro tier total _ heq
  cases heq

section

variable {Q : ShardedReply → Prop} (hreply : ∀ reply, Q (.reply reply))
include hreply

theorem serves_unlessOk {next : Program sharding.count} (hnext : Serves sharding config Q next)
    (reply : Reply) : Serves sharding config Q (Program.unlessOk next reply) := by
  cases reply with
  | status status =>
    show Serves sharding config Q (if _ then _ else _)
    split
    · exact hreply _
    · exact hnext
  | block result => exact hreply _

theorem serves_prefetch (keys : List BlockKey) :
    Serves sharding config Q (Program.prefetch sharding.shardOf keys) := by
  induction keys with
  | nil => exact hreply _
  | cons key rest ih =>
    refine ⟨?_, serves_unlessOk hreply ih⟩
    rintro _ _ _ ⟨⟩

theorem serves_enforceCapacity (tier : Tier) (shards : List (Fin sharding.count)) :
    Serves sharding config Q (Program.enforceCapacity tier shards) := by
  induction shards with
  | nil => exact hreply _
  | cons shard rest ih =>
    refine ⟨?_, serves_unlessOk hreply ih⟩
    rintro _ _ _ ⟨⟩

end

theorem serves_occupancyFrom (tier : Tier) (shards : List (Fin sharding.count))
    (total : TierOccupancy) (hused : total.usedBytes ≤ total.capacityBytes)
    (hcapacity : total.capacityBytes + shards.length * (perShard sharding config).capacityOf tier ≤
      config.capacityOf tier) :
    Serves sharding config (Bounded config (.occupancy tier))
      (Program.occupancyFrom tier shards total) := by
  induction shards generalizing total with
  | nil =>
    rintro _ _ ⟨⟩ ⟨⟩
    exact ⟨hused, by simpa using hcapacity⟩
  | cons shard rest ih =>
    intro occupancy hle heq
    rw [List.length_cons, Nat.succ_mul] at hcapacity
    exact ih _ (Nat.add_le_add hused hle) (by dsimp only; omega)

theorem serves_program (op : ShardedOp) :
    Serves sharding config (Bounded config op) (op.program sharding) := by
  have hreply : ∀ reply, Bounded config op (.reply reply) := bounded_reply op
  cases op with
  | write block target =>
    refine ⟨?_, hreply⟩
    rintro _ _ _ ⟨⟩
    rfl
  | read key =>
    refine ⟨?_, hreply⟩
    rintro _ _ _ ⟨⟩
  | prefetch keys => exact serves_prefetch hreply keys
  | enforceCapacity tier => exact serves_enforceCapacity hreply tier _
  | occupancy tier =>
    refine serves_occupancyFrom tier _ _ le_rfl ?_
    rw [Nat.zero_add, List.length_finRange, capacityOf_perShard]
    exact Nat.mul_div_le _ _

end

/-! ## Runs -/

section

variable {Tid : Type} {sharding : Sharding} {config : TierConfig ℚ}
  {trace : List (Event sharding.count Tid)} {s s' : System sharding.count Tid}
  {event : Event sharding.count Tid} {tid : Tid}

/-- What is left of a call serves it; a call of one shard has been made, or is still to be made. -/
structure ClientInv (sharding : Sharding) (config : TierConfig ℚ)
    (trace : List (Event sharding.count Tid)) (tid : Tid) (client : Client sharding.count) :
    Prop where
  serves : Serves sharding config (Bounded config client.op) client.rest
  answered : ∀ shard call, IsCallOf sharding client.op shard call →
    client.rest = client.op.program sharding ∨
      ∃ reply, client.rest = .done (.reply reply) ∧ Answered trace tid shard call reply

structure SystemInv (sharding : Sharding) (config : TierConfig ℚ)
    (trace : List (Event sharding.count Tid)) (s : System sharding.count Tid) : Prop where
  shards : Shards sharding config s.shards (history trace)
  clients : ∀ tid client, s.clients tid = some client → ClientInv sharding config trace tid client

/-- What an event says, given the events before it. -/
inductive EventOk (sharding : Sharding) (config : TierConfig ℚ)
    (before : List (Event sharding.count Tid)) : Event sharding.count Tid → Prop
  | invoked (tid : Tid) (op : ShardedOp) : EventOk sharding config before (.invoked tid op)
  | called (tid : Tid) (shard : Fin sharding.count) (op : Op) (reply : Reply)
      (hread : ∀ key block, op = .read key → reply = .block (.ok block) →
        ∃ tenantId, lastOkWrite (history before) key = some (block, tenantId)) :
      EventOk sharding config before (.called tid shard op reply)
  | occupied (tid : Tid) (shard : Fin sharding.count) (tier : Tier) (occupancy : TierOccupancy) :
      EventOk sharding config before (.occupied tid shard tier occupancy)
  | returned (tid : Tid) (op : ShardedOp) (reply : ShardedReply)
      (hbounded : Bounded config op reply)
      (hanswered : ∀ shard call, IsCallOf sharding op shard call →
        ∃ r, reply = .reply r ∧ Answered before tid shard call r) :
      EventOk sharding config before (.returned tid op reply)

theorem Answered.snoc {shard : Fin sharding.count} {op : Op} {reply : Reply}
    (h : Answered trace tid shard op reply) (hevent : ∀ op', event ≠ .invoked tid op') :
    Answered (trace ++ [event]) tid shard op reply := by
  obtain ⟨before, after, rfl, hafter⟩ := h
  refine ⟨before, after ++ [event], by simp, fun op' hmem => ?_⟩
  rcases List.mem_append.mp hmem with hmem | hmem
  · exact hafter op' hmem
  · exact hevent op' (List.mem_singleton.mp hmem).symm

theorem ClientInv.snoc {client : Client sharding.count}
    (h : ClientInv sharding config trace tid client) (hevent : ∀ op, event ≠ .invoked tid op) :
    ClientInv sharding config (trace ++ [event]) tid client := by
  refine ⟨h.serves, fun shard call hcall => ?_⟩
  rcases h.answered shard call hcall with hrest | ⟨reply, hrest, hanswered⟩
  · exact .inl hrest
  · exact .inr ⟨reply, hrest, hanswered.snoc hevent⟩

theorem systemInv_init : SystemInv sharding config [] (System.init sharding.count Tid) where
  shards := shards_fresh sharding config
  clients _ _ h := by cases h

variable [DecidableEq Tid]

/-- A step of one client leaves the others where they are. -/
theorem SystemInv.update (h : SystemInv sharding config trace s)
    (hevent : ∀ tid' op, tid' ≠ tid → event ≠ .invoked tid' op)
    {new : Option (Client sharding.count)}
    (hnew : ∀ client, new = some client → ClientInv sharding config (trace ++ [event]) tid client) :
    ∀ tid' client, Function.update s.clients tid new tid' = some client →
      ClientInv sharding config (trace ++ [event]) tid' client := by
  intro tid' client hclient
  rcases eq_or_ne tid' tid with rfl | htid
  · rw [Function.update_self] at hclient
    exact hnew client hclient
  · rw [Function.update_of_ne htid] at hclient
    exact (h.clients tid' client hclient).snoc fun op => hevent tid' op htid

/-- Of a shard that is within its thresholds the occupancy is within the capacity. -/
theorem Shards.occupancy_le {shards : Fin sharding.count → State} {ledger : List (Op × Reply)}
    (h : Shards sharding config shards ledger) (shard : Fin sharding.count) (tier : Tier) :
    (occupancy (perShard sharding config) tier (shards shard)).usedBytes ≤
      (occupancy (perShard sharding config) tier (shards shard)).capacityBytes := by
  refine ((h.good shard).within tier).trans ?_
  rw [TierConfig.evictionThresholdOf_rat]
  exact Nat.min_le_left _ _

theorem ShardedStep.inv (h : SystemInv sharding config trace s)
    (hstep : ShardedStep sharding config s event s') :
    SystemInv sharding config (trace ++ [event]) s' ∧ EventOk sharding config trace event := by
  cases hstep with
  | @invoke tid op hidle =>
    refine ⟨⟨?_, ?_⟩, .invoked tid op⟩
    · rw [history_append]
      simpa [history] using h.shards
    · refine h.update (fun tid' op' htid heq => htid (by cases heq; rfl)) ?_
      rintro client ⟨⟩
      exact ⟨serves_program op, fun _ _ _ => .inl rfl⟩
  | @call tid op shard call next reply state hclient hcall =>
    have hinv := h.clients tid _ hclient
    obtain ⟨hrouted, hserves⟩ := hinv.serves
    refine ⟨⟨?_, ?_⟩, .called tid shard call reply ?_⟩
    · rw [history_append]
      exact h.shards.step hrouted hcall
    · refine h.update (by simp) ?_
      rintro client ⟨⟩
      refine ⟨hserves reply, fun shard' call' hcallOf => ?_⟩
      rcases hinv.answered shard' call' hcallOf with hrest | ⟨reply', hrest, -⟩
      · rw [hcallOf] at hrest
        cases hrest
        exact .inr ⟨reply, rfl, trace, [], rfl, by simp⟩
      · cases hrest
    · rintro key block rfl rfl
      have hgood := h.shards.good shard
      have hmoved := ((runOp_returns hgood (.read key)).of_eq hcall).1
      obtain ⟨tenantId, hblock⟩ := hmoved.read_contents hgood.inv rfl
      exact ⟨tenantId, h.shards.written shard hblock⟩
  | @occupy tid op shard tier next hclient =>
    have hinv := h.clients tid _ hclient
    refine ⟨⟨?_, ?_⟩, .occupied tid shard tier _⟩
    · rw [history_append]
      simpa [history] using h.shards
    · refine h.update (by simp) ?_
      rintro client ⟨⟩
      refine ⟨hinv.serves _ (h.shards.occupancy_le shard tier) rfl, fun shard' call' hcallOf => ?_⟩
      rcases hinv.answered shard' call' hcallOf with hrest | ⟨reply', hrest, -⟩
      · rw [hcallOf] at hrest
        cases hrest
      · cases hrest
  | @finish tid op reply hclient =>
    have hinv := h.clients tid _ hclient
    refine ⟨⟨?_, ?_⟩, .returned tid op reply hinv.serves fun shard call hcallOf => ?_⟩
    · rw [history_append]
      simpa [history] using h.shards
    · refine h.update (by simp) ?_
      rintro client ⟨⟩
    · rcases hinv.answered shard call hcallOf with hrest | ⟨reply', hrest, hanswered⟩
      · rw [hcallOf] at hrest
        cases hrest
      · cases hrest
        exact ⟨reply', rfl, hanswered⟩

theorem SystemInv.enabled (h : SystemInv sharding config trace s) {client : Client sharding.count}
    (hclient : s.clients tid = some client) :
    ∃ event s', ShardedStep sharding config s event s' ∧ event.tid = tid := by
  obtain ⟨op, rest⟩ := client
  cases rest with
  | done reply => exact ⟨_, _, .finish hclient, rfl⟩
  | call shard call next =>
    obtain ⟨_, hcall, -⟩ := runOp_returns (h.shards.good shard) call
    exact ⟨_, _, .call hclient hcall, rfl⟩
  | occupancy shard tier next => exact ⟨_, _, .occupy hclient, rfl⟩

/-- What holds after a run: where the keys are, what the shards occupy, what the calls have
returned, and that every call can go on. -/
structure ShardedSafe (sharding : Sharding) (config : TierConfig ℚ)
    (trace : List (Event sharding.count Tid)) (s : System sharding.count Tid) : Prop where
  placed : ∀ shard key, key ∈ residents (s.shards shard) → shard = sharding.shardOf key
  within : ∀ tier,
    ∑ shard, (occupancy (perShard sharding config) tier (s.shards shard)).usedBytes ≤
      ∑ shard, (occupancy (perShard sharding config) tier (s.shards shard)).capacityBytes
  global : ∀ tier,
    ∑ shard, (occupancy (perShard sharding config) tier (s.shards shard)).capacityBytes ≤
      config.capacityOf tier
  events : AtEvery (EventOk sharding config) trace
  enabled : ∀ tid client, s.clients tid = some client →
    ∃ event s', ShardedStep sharding config s event s' ∧ event.tid = tid

theorem SystemInv.safe (h : SystemInv sharding config trace s)
    (hevents : AtEvery (EventOk sharding config) trace) :
    ShardedSafe sharding config trace s where
  placed shard key hkey := by
    obtain ⟨it, hit⟩ := mem_residents.mp hkey
    exact h.shards.placed shard key (by rw [contents, hit]; rfl)
  within tier := Finset.sum_le_sum fun shard _ => h.shards.occupancy_le shard tier
  global tier := by
    show ∑ _ : Fin sharding.count, (perShard sharding config).capacityOf tier ≤ _
    rw [Finset.sum_const, Finset.card_univ, Fintype.card_fin, capacityOf_perShard]
    exact Nat.mul_div_le _ _
  events := hevents
  enabled _ _ hclient := h.enabled hclient

end

/-- **The sharded store under concurrency.** In every interleaving of calls, a key is only in the
shard of its hash, the occupancy of every tier is within the capacities of the shards and these are
within the global one, a block that is read was written by the last accepted write of its key, and
no call is stuck. -/
theorem shardedRun_safe (config : TierConfig ℚ) (shardCount : Nat) (hash : BlockKey → UInt64)
    (Tid : Type) [DecidableEq Tid] (trace : List (Event (Sharding.new shardCount hash).count Tid))
    (s : System (Sharding.new shardCount hash).count Tid)
    (h : Run (ShardedStep (Sharding.new shardCount hash) config) (System.init _ Tid) trace s) :
    ShardedSafe (Sharding.new shardCount hash) config trace s := by
  obtain ⟨hinv, hevents⟩ := h.atEvery (I := SystemInv (Sharding.new shardCount hash) config)
    systemInv_init fun hinv hstep => hstep.inv hinv
  exact hinv.safe hevents

def twoShards : Sharding := Sharding.new 2 fun key => key.hashId

/-- A block that fits half of a tier is written by one client and read by another. -/
theorem shardedRun_safe_twoClients :
    ∃ (trace : List (Event twoShards.count Bool)) (s : System twoShards.count Bool),
      .called true (twoShards.shardOf (plainKey 1)) (.read (plainKey 1))
        (.block (.ok (plainBlock 1 5))) ∈ trace ∧ ShardedSafe twoShards oneTier trace s := by
  have hcalls : Returns (runOp .lazy (perShard twoShards oneTier)
      (.write (plainBlock 1 5) .hbm 0) State.fresh) fun r =>
        ((runOp .lazy (perShard twoShards oneTier) (.read (plainKey 1)) r.2).toOption.map
          Prod.fst) = some (.block (.ok (plainBlock 1 5))) :=
    returns_of_toOption (f := fun r =>
      (runOp .lazy (perShard twoShards oneTier) (.read (plainKey 1)) r.2).toOption.map Prod.fst)
      (by decide +kernel) fun _ h => h
  obtain ⟨⟨reply, s₁⟩, hwrite, hreads⟩ := hcalls
  obtain ⟨⟨_, s₂⟩, hread, rfl⟩ := Option.map_eq_some_iff.mp hreads
  let shard := twoShards.shardOf (plainKey 1)
  let run : Run (ShardedStep twoShards oneTier) (System.init twoShards.count Bool)
      [.invoked false (.write (plainBlock 1 5) .hbm), .invoked true (.read (plainKey 1)),
        .called false shard (.write (plainBlock 1 5) .hbm 0) reply,
        .called true shard (.read (plainKey 1)) (.block (.ok (plainBlock 1 5)))] _ :=
    Run.nil.snoc (.invoke _ rfl) |>.snoc (.invoke _ rfl) |>.snoc (.call rfl hwrite)
      |>.snoc (.call rfl (by
        dsimp only
        rw [Function.update_self]
        exact eq_ok_of_toOption hread))
  exact ⟨_, _, .tail _ (.tail _ (.tail _ (.head _))), shardedRun_safe oneTier 2 _ Bool _ _ run⟩

end TieredKVCache.Storage
