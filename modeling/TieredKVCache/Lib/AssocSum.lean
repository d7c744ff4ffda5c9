import Mathlib.Algebra.Order.BigOperators.Group.Finset
import Mathlib.Data.List.AList
import Mathlib.Data.List.Sort
import Mathlib.Algebra.BigOperators.Group.Finset.Piecewise
import Mathlib.Algebra.Order.BigOperators.Group.List
import Mathlib.Algebra.Order.Group.Nat
import Mathlib.Algebra.GroupWithZero.Nat
import TieredKVCache.Lib.LastChange

/-!
# Sums over the entries of an association list

`sumOver f m` adds `f key value` over a finite map. Inserting and erasing change the
sum by the entry concerned, and a sum only depends on the entries it gives weight to
(`sumOver_congr`). A list of entries can be inserted one after the other. `inOrder` lists
the entries by ascending key.
-/

namespace TieredKVCache.Lib

variable {α β : Type}

/-- The sum of `f key value` over the entries of the map. -/
def sumOver (f : α → β → Nat) (m : AList fun _ : α => β) : Nat :=
  (m.entries.map fun e => f e.1 e.2).sum

private theorem sum_map_filter (f : α → β → Nat) (p : α → β → Prop) [∀ k v, Decidable (p k v)]
    (hp : ∀ k v, ¬ p k v → f k v = 0) (l : List (Sigma fun _ : α => β)) :
    (l.map fun e => f e.1 e.2).sum =
      ((l.filter fun e => p e.1 e.2).map fun e => f e.1 e.2).sum := by
  induction l with
  | nil => rfl
  | cons e l ih =>
    by_cases h : p e.1 e.2
    · simp [h, ih]
    · simp [h, hp _ _ h, ih]

variable [DecidableEq α]

theorem mem_entries_iff {m : AList fun _ : α => β} {k : α} {v : β} :
    (⟨k, v⟩ : Sigma fun _ : α => β) ∈ m.entries ↔ m.lookup k = some v :=
  (List.mem_dlookup_iff m.nodupKeys).symm

theorem mem_iff_lookup {m : AList fun _ : α => β} {k : α} : k ∈ m ↔ ∃ v, m.lookup k = some v :=
  AList.lookup_isSome.symm.trans Option.isSome_iff_exists

theorem mem_of_lookup {m : AList fun _ : α => β} {k : α} {v : β} (h : m.lookup k = some v) :
    k ∈ m :=
  mem_iff_lookup.mpr ⟨v, h⟩

theorem lookup_erase_eq_some {m : AList fun _ : α => β} {k k' : α} {v : β} :
    (m.erase k).lookup k' = some v ↔ k' ≠ k ∧ m.lookup k' = some v := by
  by_cases h : k' = k
  · subst h
    simp [AList.lookup_erase]
  · rw [AList.lookup_erase_ne h]
    exact ⟨fun hv => ⟨h, hv⟩, And.right⟩

theorem lookup_insert_eq_some {m : AList fun _ : α => β} {k k' : α} {v v' : β} :
    (m.insert k v).lookup k' = some v' ↔
      (k' = k ∧ v' = v) ∨ (k' ≠ k ∧ m.lookup k' = some v') := by
  by_cases h : k' = k
  · subst h
    simp [AList.lookup_insert, eq_comm]
  · simp [AList.lookup_insert_ne h, h]

/-- What holds of an inserted value and of the values before holds of all values. -/
@[elab_as_elim]
theorem of_lookup_insert {m : AList fun _ : α => β} {k k' : α} {v v' : β}
    {motive : α → β → Prop} (h : (m.insert k v).lookup k' = some v') (new : motive k v)
    (old : ∀ {k' v'}, m.lookup k' = some v' → motive k' v') : motive k' v' := by
  rcases lookup_insert_eq_some.mp h with ⟨rfl, rfl⟩ | ⟨-, h⟩
  · exact new
  · exact old h

private theorem perm_kerase {l : List (Sigma fun _ : α => β)} {k : α} {v : β}
    (h : v ∈ List.dlookup k l) : l.Perm (⟨k, v⟩ :: l.kerase k) := by
  induction l with
  | nil => simp at h
  | cons e l ih =>
    by_cases hk : k = e.1
    · obtain ⟨a, b⟩ := e
      cases hk
      rw [List.dlookup_cons_eq, Option.mem_some_iff] at h
      cases h
      rw [List.kerase_cons_eq rfl]
    · rw [List.dlookup_cons_ne _ e (fun he => hk he)] at h
      rw [List.kerase_cons_ne hk]
      exact ((ih h).cons e).trans (.swap _ _ _)

/-- The entry that is erased, and the others. -/
theorem perm_erase {m : AList fun _ : α => β} {k : α} {v : β} (h : m.lookup k = some v) :
    m.entries.Perm (⟨k, v⟩ :: (m.erase k).entries) :=
  perm_kerase h

theorem sumOver_erase {f : α → β → Nat} {m : AList fun _ : α => β} {k : α} {v : β}
    (h : m.lookup k = some v) : sumOver f m = f k v + sumOver f (m.erase k) :=
  ((perm_erase h).map _).sum_eq

theorem sumOver_insert (f : α → β → Nat) (m : AList fun _ : α => β) (k : α) (v : β) :
    sumOver f (m.insert k v) = f k v + sumOver f (m.erase k) := by
  rw [sumOver, AList.entries_insert, List.map_cons, List.sum_cons]
  rfl

theorem erase_of_lookup_none {m : AList fun _ : α => β} {k : α} (h : m.lookup k = none) :
    m.erase k = m := by
  apply AList.ext
  exact List.kerase_of_notMem_keys (AList.lookup_eq_none.mp h)

theorem sumOver_insert_of_none {m : AList fun _ : α => β} {k : α} (f : α → β → Nat) (v : β)
    (h : m.lookup k = none) : sumOver f (m.insert k v) = f k v + sumOver f m := by
  rw [sumOver_insert, erase_of_lookup_none h]

theorem erase_insert (m : AList fun _ : α => β) (k : α) (v : β) :
    (m.insert k v).erase k = m.erase k := by
  apply AList.ext
  show ((m.insert k v).entries).kerase k = m.entries.kerase k
  rw [AList.entries_insert]
  exact List.kerase_cons_eq (s := (⟨k, v⟩ : Sigma fun _ : α => β)) rfl

theorem insert_erase (m : AList fun _ : α => β) (k : α) (v : β) :
    (m.erase k).insert k v = m.insert k v := by
  apply AList.ext
  rw [AList.entries_insert, AList.entries_insert]
  congr 1
  exact List.kerase_of_notMem_keys (AList.mem_erase.not.mpr (by simp))

theorem erase_insert_of_ne {k k' : α} (m : AList fun _ : α => β) (h : k ≠ k') (v : β) :
    (m.insert k v).erase k' = (m.erase k').insert k v := by
  apply AList.ext
  show ((m.insert k v).entries).kerase k' = _
  rw [AList.entries_insert, AList.entries_insert, List.kerase_cons_ne (Ne.symm h)]
  congr 1
  exact List.kerase_comm k k' m.entries

/-- Replacing a value by one of the same weight keeps the sum. -/
theorem sumOver_insert_of_eq {f : α → β → Nat} {m : AList fun _ : α => β} {k : α} {v v' : β}
    (h : m.lookup k = some v) (hf : f k v' = f k v) :
    sumOver f (m.insert k v') = sumOver f m := by
  rw [sumOver_insert, hf, ← sumOver_erase h]

theorem exists_pos_of_sumOver_pos {f : α → β → Nat} {m : AList fun _ : α => β}
    (h : 0 < sumOver f m) : ∃ k v, m.lookup k = some v ∧ 0 < f k v := by
  by_contra hne
  push Not at hne
  have hzero : sumOver f m = 0 := by
    refine List.sum_eq_zero fun x hx => ?_
    obtain ⟨⟨k, v⟩, he, rfl⟩ := List.mem_map.mp hx
    exact Nat.le_zero.mp (hne k v (mem_entries_iff.mp he))
  omega

theorem sumOver_eq_zero {f : α → β → Nat} {m : AList fun _ : α => β}
    (h : ∀ k v, m.lookup k = some v → f k v = 0) : sumOver f m = 0 := by
  by_contra hne
  obtain ⟨k, v, hk, hpos⟩ := exists_pos_of_sumOver_pos (Nat.pos_of_ne_zero hne)
  exact absurd (h k v hk) (by omega)

theorem sumOver_le {f g : α → β → Nat} {m : AList fun _ : α => β}
    (h : ∀ k v, m.lookup k = some v → f k v ≤ g k v) : sumOver f m ≤ sumOver g m :=
  List.sum_le_sum fun e he => h e.1 e.2 (mem_entries_iff.mp he)

/-- A sum in which the weight of each key of a set is bounded, and the other keys have none. -/
theorem sumOver_le_sum {f : α → β → Nat} {m : AList fun _ : α => β} (S : Finset α) (w : α → Nat)
    (h : ∀ k v, m.lookup k = some v → f k v ≤ if k ∈ S then w k else 0) :
    sumOver f m ≤ ∑ k ∈ S, w k := by
  have hkeys : m.keys.Nodup := m.nodupKeys
  calc sumOver f m ≤ sumOver (fun k _ => if k ∈ S then w k else 0) m := sumOver_le h
    _ = ∑ k ∈ m.keys.toFinset, if k ∈ S then w k else 0 := by
        rw [List.sum_toFinset _ hkeys, AList.keys, List.keys, List.map_map]
        rfl
    _ = ∑ k ∈ m.keys.toFinset ∩ S, w k := Finset.sum_ite_mem _ _ _
    _ ≤ ∑ k ∈ S, w k := Finset.sum_le_sum_of_subset Finset.inter_subset_right

/-- Two maps that agree on the entries of a kind have the same sum of any weight that
vanishes outside that kind. -/
theorem sumOver_congr {f g : α → β → Nat} {m m' : AList fun _ : α => β} (p : α → β → Prop)
    [∀ k v, Decidable (p k v)] (hf : ∀ k v, ¬ p k v → f k v = 0) (hg : ∀ k v, ¬ p k v → g k v = 0)
    (hfg : ∀ k v, m.lookup k = some v → p k v → f k v = g k v)
    (hm : ∀ k v, p k v → (m.lookup k = some v ↔ m'.lookup k = some v)) :
    sumOver f m = sumOver g m' := by
  have hperm : (m.entries.filter fun e => p e.1 e.2).Perm
      (m'.entries.filter fun e => p e.1 e.2) := by
    have hnd := List.NodupKeys.nodup m.nodupKeys
    have hnd' := List.NodupKeys.nodup m'.nodupKeys
    apply (List.perm_ext_iff_of_nodup (hnd.filter _) (hnd'.filter _)).mpr
    rintro ⟨k, v⟩
    simp only [List.mem_filter, mem_entries_iff, decide_eq_true_eq]
    constructor
    · rintro ⟨hk, hp⟩
      exact ⟨(hm k v hp).mp hk, hp⟩
    · rintro ⟨hk, hp⟩
      exact ⟨(hm k v hp).mpr hk, hp⟩
  calc sumOver f m = ((m.entries.filter fun e => p e.1 e.2).map fun e => f e.1 e.2).sum :=
        sum_map_filter f p hf m.entries
    _ = ((m.entries.filter fun e => p e.1 e.2).map fun e => g e.1 e.2).sum := by
        congr 1
        apply List.map_congr_left
        rintro ⟨k, v⟩ he
        simp only [List.mem_filter, mem_entries_iff, decide_eq_true_eq] at he
        exact hfg k v he.1 he.2
    _ = ((m'.entries.filter fun e => p e.1 e.2).map fun e => g e.1 e.2).sum :=
        (hperm.map _).sum_eq
    _ = sumOver g m' := (sum_map_filter g p hg m'.entries).symm

/-- A sum splits into the sums over the classes of the entries. -/
theorem sumOver_fiberwise {κ : Type} [DecidableEq κ] (f : α → β → Nat)
    (m : AList fun _ : α => β) (g : α → β → κ) (T : Finset κ)
    (hT : ∀ k v, m.lookup k = some v → g k v ∈ T) :
    sumOver f m = ∑ i ∈ T, sumOver (fun k v => if g k v = i then f k v else 0) m := by
  have hlist (l : List (Sigma fun _ : α => β)) (hl : ∀ e ∈ l, g e.1 e.2 ∈ T) :
      (l.map fun e => f e.1 e.2).sum =
        ∑ i ∈ T, (l.map fun e => if g e.1 e.2 = i then f e.1 e.2 else 0).sum := by
    induction l with
    | nil => simp
    | cons e l ih =>
      obtain ⟨he, hl⟩ := List.forall_mem_cons.mp hl
      simp only [List.map_cons, List.sum_cons, Finset.sum_add_distrib, ih hl,
        Finset.sum_ite_eq, if_pos he]
  exact hlist m.entries fun e he => hT e.1 e.2 (mem_entries_iff.mp he)

/-- A sum that counts the keys of a list, each with the same weight. -/
theorem sumOver_eq_length_mul {m : AList fun _ : α => β} (p : α → β → Prop)
    [∀ k v, Decidable (p k v)] (c : Nat) {l : List α} (hl : l.Nodup)
    (hmem : ∀ k, k ∈ l ↔ ∃ v, m.lookup k = some v ∧ p k v) :
    sumOver (fun k v => if p k v then c else 0) m = l.length * c := by
  induction l generalizing m with
  | nil =>
    rw [List.length_nil, Nat.zero_mul]
    exact sumOver_eq_zero fun k v hk => if_neg fun hp => by simpa using (hmem k).mpr ⟨v, hk, hp⟩
  | cons k l ih =>
    obtain ⟨hk, hl⟩ := List.nodup_cons.mp hl
    obtain ⟨v, hv, hp⟩ := (hmem k).mp List.mem_cons_self
    rw [sumOver_erase hv, if_pos hp, ih hl, List.length_cons, Nat.succ_mul, Nat.add_comm]
    intro k'
    simp only [lookup_erase_eq_some, and_assoc, exists_and_left, ← hmem, List.mem_cons]
    exact ⟨fun h => ⟨fun heq => hk (heq ▸ h), .inr h⟩, fun h => h.2.resolve_left h.1⟩

/-! ## Inserting a list of entries -/

section

variable {ι : Type} {key : ι → α} {value : ι → β} {l : List ι}

theorem lookup_insertAll_of_notMem {m : AList fun _ : α => β} {k : α} (hk : ∀ i ∈ l, k ≠ key i) :
    (l.foldl (fun m i => m.insert (key i) (value i)) m).lookup k = m.lookup k := by
  induction l generalizing m with
  | nil => rfl
  | cons i l ih =>
    rw [List.foldl_cons, ih fun j hj => hk j (List.mem_cons_of_mem i hj),
      AList.lookup_insert_ne (hk i List.mem_cons_self)]

theorem lookup_insertAll {m : AList fun _ : α => β} (hkeys : (l.map key).Nodup) {i : ι}
    (hi : i ∈ l) :
    (l.foldl (fun m i => m.insert (key i) (value i)) m).lookup (key i) = some (value i) := by
  induction l generalizing m with
  | nil => cases hi
  | cons j l ih =>
    obtain ⟨hj, hkeys⟩ := List.nodup_cons.mp hkeys
    rw [List.foldl_cons]
    rcases List.mem_cons.mp hi with rfl | hi
    · rw [lookup_insertAll_of_notMem, AList.lookup_insert]
      exact fun j' hj' heq => hj (heq ▸ List.mem_map_of_mem hj')
    · exact ih hkeys hi

/-- The last entry of a key stays. -/
theorem lookup_insertAll_last (l : List ι) (m : AList fun _ : α => β) (k : α) :
    (l.foldl (fun m i => m.insert (key i) (value i)) m).lookup k =
      ((l.filter fun i => decide (key i = k)).getLast?.map value).or (m.lookup k) := by
  induction l using List.reverseRecOn with
  | nil => rfl
  | append_singleton l i ih =>
    rw [List.foldl_append, List.foldl_cons, List.foldl_nil, getLast?_filter_snoc]
    by_cases h : key i = k
    · rw [if_pos h, ← h, AList.lookup_insert]
      rfl
    · rw [if_neg h, AList.lookup_insert_ne (Ne.symm h), ih]

/-- Entries each of which replaces an entry without weight add their own. -/
theorem sumOver_insertAll_of_weightless {f : α → β → Nat} {m : AList fun _ : α => β}
    (hold : ∀ before i after, l = before ++ i :: after → ∀ v,
      (before.foldl (fun m i => m.insert (key i) (value i)) m).lookup (key i) = some v →
        f (key i) v = 0) :
    sumOver f (l.foldl (fun m i => m.insert (key i) (value i)) m) =
      (l.map fun i => f (key i) (value i)).sum + sumOver f m := by
  induction l using List.reverseRecOn with
  | nil => simp
  | append_singleton l i ih =>
    have hbefore := ih fun before j after heq =>
      hold before j (after ++ [i]) (by rw [heq, List.append_assoc, List.cons_append])
    rw [List.foldl_append, List.foldl_cons, List.foldl_nil, sumOver_insert, List.map_append,
      List.sum_append, List.map_cons, List.map_nil, List.sum_singleton]
    cases h : (l.foldl (fun m i => m.insert (key i) (value i)) m).lookup (key i) with
    | none =>
      rw [erase_of_lookup_none h, hbefore]
      omega
    | some v =>
      have hzero : f (key i) v = 0 := hold l i [] rfl v h
      rw [sumOver_erase h, hzero] at hbefore
      omega

/-- Entries of distinct keys that replace entries without weight. -/
theorem sumOver_insertAll {f : α → β → Nat} {m : AList fun _ : α => β} (hkeys : (l.map key).Nodup)
    (hold : ∀ i ∈ l, ∀ v, m.lookup (key i) = some v → f (key i) v = 0) :
    sumOver f (l.foldl (fun m i => m.insert (key i) (value i)) m) =
      (l.map fun i => f (key i) (value i)).sum + sumOver f m := by
  refine sumOver_insertAll_of_weightless fun before i after heq v hv => ?_
  subst heq
  rw [List.map_append, List.map_cons] at hkeys
  have hnew : ∀ j ∈ before, key i ≠ key j := by
    intro j hj hsame
    exact (List.nodup_append.mp hkeys).2.2 _ (List.mem_map_of_mem hj) _ List.mem_cons_self
      hsame.symm
  rw [lookup_insertAll_of_notMem hnew] at hv
  exact hold i (List.mem_append_right _ List.mem_cons_self) v hv

end

/-! ## Some of the entries -/

/-- The entries of a kind. -/
def keep (p : α → β → Prop) [∀ k v, Decidable (p k v)] (m : AList fun _ : α => β) :
    AList fun _ : α => β :=
  ⟨m.entries.filter fun e => p e.1 e.2, List.NodupKeys.sublist List.filter_sublist m.nodupKeys⟩

theorem lookup_keep {p : α → β → Prop} [∀ k v, Decidable (p k v)] {m : AList fun _ : α => β} {k : α}
    {v : β} : (keep p m).lookup k = some v ↔ m.lookup k = some v ∧ p k v := by
  rw [← mem_entries_iff, ← mem_entries_iff]
  show _ ∈ m.entries.filter _ ↔ _
  rw [List.mem_filter, decide_eq_true_eq]

omit [DecidableEq α] in
theorem sumOver_keep_le (f : α → β → Nat) (p : α → β → Prop) [∀ k v, Decidable (p k v)]
    (m : AList fun _ : α => β) : sumOver f (keep p m) ≤ sumOver f m :=
  List.Sublist.sum_le_sum (List.filter_sublist.map _) fun _ _ => Nat.zero_le _

/-! ## Order -/

/-- The entries by ascending key. -/
def inOrder [LE α] [DecidableLE α] (m : AList fun _ : α => β) : List (α × β) :=
  (m.entries.map fun e => (e.1, e.2)).insertionSort fun a b => a.1 ≤ b.1

theorem mem_inOrder [LE α] [DecidableLE α] {m : AList fun _ : α => β} {k : α} {v : β} :
    (k, v) ∈ inOrder m ↔ m.lookup k = some v := by
  rw [inOrder, (List.perm_insertionSort _ _).mem_iff, ← mem_entries_iff, List.mem_map]
  constructor
  · rintro ⟨⟨a, b⟩, he, heq⟩
    cases heq
    exact he
  · exact fun h => ⟨_, h, rfl⟩

end TieredKVCache.Lib
