import TieredKVCache.Lib.Loop

/-!
# Sequences of calls

`runAll` makes calls of a system one after the other and lists their outcomes. What a call preserves
and answers, given the calls before it, holds along every sequence of calls (`runAll_invariant`).
-/

namespace TieredKVCache.Lib

variable {ε σ κ ω : Type}

/-- The outcomes of the calls, and the state that they leave. -/
def runAll (run : κ → σ → Except ε (ω × σ)) : List κ → σ → Except ε (List ω × σ)
  | [], s => .ok ([], s)
  | call :: calls, s => do
    let (outcome, s) ← run call s
    let (outcomes, s) ← runAll run calls s
    return (outcome :: outcomes, s)

/-- `P` holds of every call and its outcome, given the calls before it. -/
def AtEachCall (P : List κ → κ → ω → Prop) : List κ → List κ → List ω → Prop
  | _, [], [] => True
  | past, call :: calls, outcome :: outcomes =>
    P past call outcome ∧ AtEachCall P (past ++ [call]) calls outcomes
  | _, _, _ => False

/-- What every call of some preserves and answers, these calls preserve and answer one after the
other. -/
theorem runAll_invariant {run : κ → σ → Except ε (ω × σ)} {I : List κ → σ → Prop}
    {P : List κ → κ → ω → Prop} {allowed : List κ}
    (hstep : ∀ {past s}, ∀ call ∈ allowed, I past s → Returns (run call s) fun r =>
      I (past ++ [call]) r.2 ∧ P past call r.1)
    (calls : List κ) (hcalls : calls ⊆ allowed) {past : List κ} {s : σ} (h : I past s) :
    Returns (runAll run calls s) fun r => I (past ++ calls) r.2 ∧ AtEachCall P past calls r.1 := by
  induction calls generalizing past s with
  | nil =>
    refine returns_ok ⟨?_, trivial⟩
    rwa [List.append_nil]
  | cons call calls ih =>
    obtain ⟨hcall, hcalls⟩ := List.cons_subset.mp hcalls
    rw [runAll]
    apply (hstep call hcall h).bind
    rintro r ⟨hnext, hanswer⟩
    apply (ih hcalls hnext).bind
    rintro q ⟨hlast, hrest⟩
    refine returns_ok ⟨?_, hanswer, hrest⟩
    rwa [List.append_assoc] at hlast

end TieredKVCache.Lib
