import Mathlib.Logic.Basic
import Mathlib.Order.Basic

/-!
# Fallible computations and bounded loops

`Returns x Q` is the total-correctness reading of an `Except` computation: it
succeeds, and its result satisfies `Q`. A `while` loop is `iterate`: its body
says of a state whether to go round again (`inl`) or to return (`inr`). The bound
of `iterate` makes it a total function; `iterate_returns` shows that a bound above
a decreasing measure is never reached, so that the bound does not show in the
result (`iterate_mono`). `collect` lists what happened in the rounds of a loop, and
`iterate_collect` is the loop rule with this list in the invariant. `along` says
that a condition holds at the start of every round; `iterate_simulation` compares
two loops, given such a condition on the first, when the second may skip rounds of
the first, `iterate_lockstep` two loops of which each lowers a measure of its own, and `iterate_map`
reads one loop as another. A loop whose measure is known beforehand is `drain`, a function without a
bound.
-/

namespace TieredKVCache.Lib

variable {ε α β σ τ ρ θ : Type}

/-! ## Total correctness of `Except` computations -/

/-- The computation succeeds, and its result satisfies `Q`. -/
def Returns (x : Except ε α) (Q : α → Prop) : Prop := ∃ a, x = .ok a ∧ Q a

theorem returns_ok {a : α} {Q : α → Prop} (h : Q a) : Returns (.ok a : Except ε α) Q :=
  ⟨a, rfl, h⟩

theorem Returns.mono {x : Except ε α} {P Q : α → Prop} (h : Returns x P)
    (hPQ : ∀ a, P a → Q a) : Returns x Q := by
  obtain ⟨a, ha, hP⟩ := h
  exact ⟨a, ha, hPQ a hP⟩

theorem Returns.bind {x : Except ε α} {f : α → Except ε β} {P : α → Prop} {Q : β → Prop}
    (hx : Returns x P) (hf : ∀ a, P a → Returns (f a) Q) : Returns (x >>= f) Q := by
  obtain ⟨a, rfl, hP⟩ := hx
  exact hf a hP

theorem Returns.map {x : Except ε α} {f : α → β} {P : α → Prop} {Q : β → Prop}
    (hx : Returns x P) (hf : ∀ a, P a → Q (f a)) : Returns (x.map f) Q := by
  obtain ⟨a, rfl, hP⟩ := hx
  exact returns_ok (hf a hP)

/-- A computation has one result: what `Returns` finds is what the code computed. -/
theorem Returns.of_eq {x : Except ε α} {Q : α → Prop} {a : α} (h : Returns x Q)
    (ha : x = .ok a) : Q a := by
  obtain ⟨b, hb, hQ⟩ := h
  cases ha.symm.trans hb
  exact hQ

/-- Two facts about one result. -/
theorem Returns.and {x : Except ε α} {P Q : α → Prop} (h : Returns x P) (h' : Returns x Q) :
    Returns x fun a => P a ∧ Q a := by
  obtain ⟨a, ha, hP⟩ := h
  exact ⟨a, ha, hP, h'.of_eq ha⟩

theorem eq_ok_of_toOption {x : Except ε α} {a : α} (h : x.toOption = some a) : x = .ok a := by
  cases x with
  | error e => cases h
  | ok b => exact congrArg Except.ok (Option.some.inj h)

/-- A computation without parameters can be run: what its result shows decides `Q`. -/
theorem returns_of_toOption {x : Except ε α} {f : α → Option β} {b : β} {Q : α → Prop}
    (h : x.toOption.bind f = some b) (hQ : ∀ a, f a = some b → Q a) : Returns x Q := by
  obtain ⟨a, ha, hb⟩ := Option.bind_eq_some_iff.mp h
  exact ⟨a, eq_ok_of_toOption ha, hQ a hb⟩

/-! ## Bounded loops -/

/-- Run the loop body until it returns, at most `n` times; `diverged` is the
outcome when the bound runs out. -/
def iterate (body : σ → Except ε (σ ⊕ ρ)) (diverged : ε) : Nat → σ → Except ε ρ
  | 0, _ => .error diverged
  | n + 1, s =>
    match body s with
    | .error e => .error e
    | .ok (.inr r) => .ok r
    | .ok (.inl s') => iterate body diverged n s'

section

variable {body : σ → Except ε (σ ⊕ ρ)} {diverged : ε}

theorem iterate_of_inl {n : Nat} {s s' : σ} (h : body s = .ok (.inl s')) :
    iterate body diverged (n + 1) s = iterate body diverged n s' := by
  simp only [iterate, h]

theorem iterate_of_inr {n : Nat} {s : σ} {r : ρ} (h : body s = .ok (.inr r)) :
    iterate body diverged (n + 1) s = .ok r := by
  simp only [iterate, h]

/-- What one round of a loop has to establish: it goes round again in a state
satisfying `I` of smaller measure, or returns a result satisfying `Q`. -/
def Round (body : σ → Except ε (σ ⊕ ρ)) (I : σ → Prop) (m : σ → Nat) (Q : ρ → Prop)
    (s : σ) : Prop :=
  (∃ s', body s = .ok (.inl s') ∧ I s' ∧ m s' < m s) ∨ (∃ r, body s = .ok (.inr r) ∧ Q r)

/-- The loop rule: an invariant and a measure that every round lowers. -/
theorem iterate_returns (I : σ → Prop) (m : σ → Nat) {Q : ρ → Prop}
    (hbody : ∀ s, I s → Round body I m Q s) {n : Nat} {s : σ} (hs : I s) (hn : m s < n) :
    Returns (iterate body diverged n s) Q := by
  induction n generalizing s with
  | zero => omega
  | succ n ih =>
    rcases hbody s hs with ⟨s', hb, hI, hm⟩ | ⟨r, hb, hQ⟩
    · rw [iterate_of_inl hb]
      exact ih hI (by omega)
    · rw [iterate_of_inr hb]
      exact returns_ok hQ

/-- A larger bound computes the same result. -/
theorem iterate_mono {n m : Nat} {s : σ} {r : ρ} (h : iterate body diverged n s = .ok r)
    (hnm : n ≤ m) : iterate body diverged m s = .ok r := by
  induction n generalizing m s with
  | zero => simp [iterate] at h
  | succ n ih =>
    obtain ⟨m, rfl⟩ : ∃ k, m = k + 1 := ⟨m - 1, by omega⟩
    unfold iterate at h ⊢
    split at h
    · cases h
    · exact h
    · exact ih h (by omega)

/-- Two bounds that both suffice give one result. -/
theorem iterate_unique {n m : Nat} {s : σ} {r r' : ρ} (h : iterate body diverged n s = .ok r)
    (h' : iterate body diverged m s = .ok r') : r = r' := by
  rcases Nat.le_total n m with hle | hle
  · cases (iterate_mono h hle).symm.trans h'
    rfl
  · cases (iterate_mono h' hle).symm.trans h
    rfl

end

/-! ## What a loop has done -/

/-- What `f` says of the states in which the rounds of a loop start, in order. -/
def collect (f : σ → List β) (body : σ → Except ε (σ ⊕ ρ)) : Nat → σ → List β
  | 0, _ => []
  | n + 1, s =>
    f s ++ match body s with
      | .ok (.inl s') => collect f body n s'
      | _ => []

section

variable {body : σ → Except ε (σ ⊕ ρ)} {diverged : ε} {f : σ → List β}

theorem forall_mem_collect {I : σ → Prop} {P : β → Prop}
    (hround : ∀ s, I s → (∀ x ∈ f s, P x) ∧ ∀ s', body s = .ok (.inl s') → I s') {n : Nat} {s : σ}
    (hs : I s) : ∀ x ∈ collect f body n s, P x := by
  induction n generalizing s with
  | zero => exact fun x hx => absurd hx List.not_mem_nil
  | succ n ih =>
    obtain ⟨hf, hnext⟩ := hround s hs
    intro x hx
    rw [collect, List.mem_append] at hx
    rcases hx with hx | hx
    · exact hf x hx
    · split at hx
      next s' hb => exact ih (hnext s' hb) x hx
      next => cases hx

/-- A homomorphism of lists goes through. -/
theorem map_collect {γ : Type} (g : List β → List γ) (hnil : g [] = [])
    (happend : ∀ l l', g (l ++ l') = g l ++ g l') (n : Nat) (s : σ) :
    g (collect f body n s) = collect (fun s => g (f s)) body n s := by
  induction n generalizing s with
  | zero => exact hnil
  | succ n ih =>
    rw [collect, collect, happend]
    congr 1
    split
    next s' _ => exact ih s'
    next => exact hnil

/-- The loop rule for an invariant that speaks of what has been collected so far. -/
theorem iterate_collect {I : List β → σ → Prop} {Q : List β → ρ → Prop} (m : σ → Nat)
    (hround : ∀ l s, I l s →
      (∃ s', body s = .ok (.inl s') ∧ I (l ++ f s) s' ∧ m s' < m s) ∨
      ∃ r, body s = .ok (.inr r) ∧ Q (l ++ f s) r)
    {n : Nat} {s : σ} (hs : I [] s) (hn : m s < n) :
    Returns (iterate body diverged n s) (Q (collect f body n s)) := by
  suffices hfrom : ∀ n l s, I l s → m s < n →
      Returns (iterate body diverged n s) (Q (l ++ collect f body n s)) from hfrom n [] s hs hn
  clear hs hn
  intro n
  induction n with
  | zero => exact fun l s hs hn => absurd hn (Nat.not_lt_zero _)
  | succ n ih =>
    intro l s hs hn
    rcases hround l s hs with ⟨s', hb, hI, hm⟩ | ⟨r, hb, hQ⟩
    · rw [iterate_of_inl hb, collect, hb, ← List.append_assoc]
      exact ih _ _ hI (by omega)
    · rw [iterate_of_inr hb, collect, hb, List.append_nil]
      exact returns_ok hQ

end

/-! ## Two loops -/

/-- Every round starts in a state that satisfies `P`. -/
def along (P : σ → Bool) (body : σ → Except ε (σ ⊕ ρ)) : Nat → σ → Bool
  | 0, _ => true
  | n + 1, s =>
    P s && match body s with
      | .ok (.inl s') => along P body n s'
      | _ => true

section

variable {body : σ → Except ε (σ ⊕ ρ)} {P : σ → Bool} {s s' : σ} {n : Nat}

theorem along_head (h : along P body (n + 1) s = true) : P s = true :=
  (Bool.and_eq_true_iff.mp h).1

theorem along_tail (h : along P body (n + 1) s = true) (hb : body s = .ok (.inl s')) :
    along P body n s' = true := by
  have htail := (Bool.and_eq_true_iff.mp h).2
  rwa [hb] at htail

theorem along_of_forall (hP : ∀ s, P s = true) : along P body n s = true := by
  induction n generalizing s with
  | zero => rfl
  | succ n ih =>
    refine Bool.and_eq_true_iff.mpr ⟨hP s, ?_⟩
    split
    next s' _ => exact ih
    next => rfl

end

/-- A simulation in which a round of the first loop is matched by one round of the
second or by none. -/
theorem iterate_simulation {body : σ → Except ε (σ ⊕ ρ)} {body' : τ → Except ε (τ ⊕ θ)}
    {diverged : ε} {P : σ → Bool} (R : σ → τ → Prop) {Q : ρ → θ → Prop}
    (hinl : ∀ s t s', P s = true → R s t → body s = .ok (.inl s') →
      R s' t ∨ ∃ t', body' t = .ok (.inl t') ∧ R s' t')
    (hinr : ∀ s t r, P s = true → R s t → body s = .ok (.inr r) →
      ∃ r', body' t = .ok (.inr r') ∧ Q r r')
    {n : Nat} {s : σ} {t : τ} {r : ρ} (hP : along P body n s = true) (hR : R s t)
    (h : iterate body diverged n s = .ok r) :
    ∃ r', iterate body' diverged n t = .ok r' ∧ Q r r' := by
  induction n generalizing s t with
  | zero => simp [iterate] at h
  | succ n ih =>
    rcases hb : body s with e | s' | r₀
    · simp [iterate, hb] at h
    · rw [iterate_of_inl hb] at h
      have hP' := along_tail hP hb
      rcases hinl s t s' (along_head hP) hR hb with hskip | ⟨t', hb', hR'⟩
      · obtain ⟨r', hr', hQ⟩ := ih hP' hskip h
        exact ⟨r', iterate_mono hr' (Nat.le_succ n), hQ⟩
      · rw [iterate_of_inl hb']
        exact ih hP' hR' h
    · rw [iterate_of_inr hb] at h
      cases h
      obtain ⟨r', hb', hQ⟩ := hinr s t r (along_head hP) hR hb
      exact ⟨r', iterate_of_inr hb', hQ⟩

/-- Two loops that go round together until the first returns; what the second loop still has to
do then is up to it. -/
theorem iterate_lockstep {ε' : Type} {body : σ → Except ε (σ ⊕ ρ)}
    {body' : τ → Except ε' (τ ⊕ θ)} {diverged : ε} {diverged' : ε'} (R : σ → τ → Prop)
    (m : σ → Nat) (m' : τ → Nat) {Q : ρ → θ → Prop}
    (hround : ∀ s t, R s t →
      (∃ s' t', body s = .ok (.inl s') ∧ body' t = .ok (.inl t') ∧ R s' t' ∧ m s' < m s ∧
        m' t' < m' t) ∨
      ∃ r, body s = .ok (.inr r) ∧
        ∀ n', m' t < n' → Returns (iterate body' diverged' n' t) (Q r))
    {n n' : Nat} {s : σ} {t : τ} (hR : R s t) (hn : m s < n) (hn' : m' t < n') :
    Returns (iterate body diverged n s) fun r => Returns (iterate body' diverged' n' t) (Q r) := by
  induction n generalizing n' s t with
  | zero => omega
  | succ n ih =>
    rcases hround s t hR with ⟨s', t', hb, hb', hR', hm, hm'⟩ | ⟨r, hb, hrest⟩
    · obtain ⟨n', rfl⟩ : ∃ k, n' = k + 1 := ⟨n' - 1, by omega⟩
      rw [iterate_of_inl hb, iterate_of_inl hb']
      exact ih hR' (by omega) (by omega)
    · rw [iterate_of_inr hb]
      exact returns_ok (hrest n' hn')

/-- `while`: a round logs what it does and goes on, or the loop is over. Every round lowers `m`. -/
def drain (round : σ → Option (List β × σ)) (m : σ → Nat)
    (hm : ∀ {s log s'}, round s = some (log, s') → m s' < m s) (s : σ) : List β × σ :=
  match h : round s with
  | none => ([], s)
  | some (log, s') =>
    have := hm h
    let (rest, final) := drain round m hm s'
    (log ++ rest, final)
termination_by m s

section

variable {round : σ → Option (List β × σ)} {m : σ → Nat}
  {hm : ∀ {s log s'}, round s = some (log, s') → m s' < m s} {s s' : σ} {log : List β}

theorem drain_of_none (h : round s = none) : drain round m hm s = ([], s) := by
  rw [drain]
  split
  next => rfl
  next heq => cases h.symm.trans heq

theorem drain_of_some (h : round s = some (log, s')) :
    drain round m hm s = (log ++ (drain round m hm s').1, (drain round m hm s').2) := by
  rw [drain]
  split
  next heq => cases h.symm.trans heq
  next heq =>
    cases h.symm.trans heq
    rfl

/-- The loop rule: what every round preserves holds at the end, where no round is left. -/
theorem drain_spec (I : List β → σ → Prop)
    (hround : ∀ {before s log s'}, I before s → round s = some (log, s') → I (before ++ log) s')
    (hs : I [] s) : I (drain round m hm s).1 (drain round m hm s).2 ∧
      round (drain round m hm s).2 = none := by
  suffices hfrom : ∀ n before s, m s = n → I before s →
      I (before ++ (drain round m hm s).1) (drain round m hm s).2 ∧
        round (drain round m hm s).2 = none from hfrom _ [] s rfl hs
  intro n
  induction n using Nat.strongRecOn with
  | ind n ih =>
    intro before s hn hI
    cases h : round s with
    | none =>
      rw [drain_of_none h, List.append_nil]
      exact ⟨hI, h⟩
    | some next =>
      rw [drain_of_some h, ← List.append_assoc]
      exact ih _ (hn ▸ hm h) _ _ rfl (hround hI h)

end

end TieredKVCache.Lib
