import Mathlib.Data.List.Induction

/-!
# Labelled transition systems

`Run step s trace s'` is a run of a step relation with the labels of its steps, oldest first.
What a run has to satisfy is a property of its trace and of the state it reached;
`Run.invariant` is the induction over a run. `AtEvery` says of every label of a trace how it
relates to the labels before it, and `Run.atEvery` follows from what holds at each step. A run of a
system is a run of each component (`Run.moves`). Where the label determines the step, `throughout_iff` says from which steps on a property of the states is
lost.
-/

namespace TieredKVCache.Lib

variable {σ l : Type}

/-- A run of a step relation. -/
inductive Run (step : σ → l → σ → Prop) (s : σ) : List l → σ → Prop
  | nil : Run step s [] s
  | snoc {trace : List l} {s' s'' : σ} {label : l} (hrun : Run step s trace s')
      (hstep : step s' label s'') : Run step s (trace ++ [label]) s''

/-- What holds at the start and is preserved by every step holds after every run. -/
theorem Run.invariant {step : σ → l → σ → Prop} {s s' : σ} {trace : List l}
    {P : List l → σ → Prop} (h : Run step s trace s') (hs : P [] s)
    (hstep : ∀ {trace a label b}, P trace a → step a label b → P (trace ++ [label]) b) :
    P trace s' := by
  induction h with
  | nil => exact hs
  | snoc _ hlast ih => exact hstep ih hlast

/-- `P` holds of every label and the labels before it. -/
def AtEvery (P : List l → l → Prop) (trace : List l) : Prop :=
  ∀ ⦃before label after⦄, trace = before ++ label :: after → P before label

theorem atEvery_nil (P : List l → l → Prop) : AtEvery P [] := by
  intro before label after h
  simp at h

theorem AtEvery.snoc {P : List l → l → Prop} {trace : List l} {label : l}
    (h : AtEvery P trace) (hlast : P trace label) : AtEvery P (trace ++ [label]) := by
  intro before label' after heq
  rcases List.eq_nil_or_concat after with rfl | ⟨init, last, rfl⟩
  · obtain ⟨rfl, hlabel⟩ := List.append_inj' heq rfl
    cases hlabel
    exact hlast
  · have hsplit : trace ++ [label] = (before ++ label' :: init) ++ [last] := by simpa using heq
    exact h (List.append_inj' hsplit rfl).1

theorem atEvery_snoc {P : List l → l → Prop} {trace : List l} {label : l} :
    AtEvery P (trace ++ [label]) ↔ AtEvery P trace ∧ P trace label := by
  refine ⟨fun h => ⟨fun before label' after heq => ?_, h rfl⟩, fun h => h.1.snoc h.2⟩
  exact @h before label' (after ++ [label]) (by rw [heq, List.append_assoc, List.cons_append])

/-- What holds at the labels of a kind, given the labels of the kind before them. -/
theorem AtEvery.filter {P Q : List l → l → Prop} {p : l → Bool} {trace : List l}
    (h : AtEvery P trace)
    (himp : ∀ before label, p label = true → P before label → Q (before.filter p) label) :
    AtEvery Q (trace.filter p) := by
  induction trace using List.reverseRecOn with
  | nil => exact atEvery_nil Q
  | append_singleton trace label ih =>
    obtain ⟨hbefore, hlast⟩ := atEvery_snoc.mp h
    rw [List.filter_append, List.filter_cons, List.filter_nil]
    split
    next hkind => exact (ih hbefore).snoc (himp trace label hkind hlast)
    next =>
      rw [List.append_nil]
      exact ih hbefore

/-- What every step from a state of the invariant satisfies holds at every label of a run. -/
theorem Run.atEvery {step : σ → l → σ → Prop} {s s' : σ} {trace : List l}
    {I : List l → σ → Prop} {P : List l → l → Prop} (h : Run step s trace s') (hs : I [] s)
    (hstep : ∀ {trace a label b}, I trace a → step a label b →
      I (trace ++ [label]) b ∧ P trace label) : I trace s' ∧ AtEvery P trace :=
  h.invariant (P := fun trace s => I trace s ∧ AtEvery P trace) ⟨hs, atEvery_nil P⟩
    fun ⟨hI, hP⟩ hab => ⟨(hstep hI hab).1, hP.snoc (hstep hI hab).2⟩

/-! ## Components -/

/-- A step of a component of a system, or none of its steps. -/
def Moves (step : σ → l → σ → Prop) : Option l → σ → σ → Prop
  | none, s, s' => s' = s
  | some label, s, s' => step s label s'

theorem Run.moves {step : σ → l → σ → Prop} {s s' s'' : σ} {trace : List l} {label : Option l}
    (h : Run step s trace s') (hmoves : Moves step label s' s'') :
    Run step s (trace ++ label.toList) s'' := by
  cases label with
  | none =>
    obtain rfl : s'' = s' := hmoves
    rwa [Option.toList_none, List.append_nil]
  | some label => exact .snoc h hmoves

/-- What a step adds to what a trace shows. -/
theorem filterMap_concat {m : Type} (f : l → Option m) (trace : List l) (label : l) :
    (trace ++ [label]).filterMap f = trace.filterMap f ++ (f label).toList := by
  rw [List.filterMap_append]
  cases hlabel : f label with
  | none => rw [List.filterMap_cons_none hlabel, List.filterMap_nil, Option.toList_none]
  | some shown => rw [List.filterMap_cons_some hlabel, List.filterMap_nil, Option.toList_some]

/-! ## Deterministic steps -/

/-- Where the safe steps preserve an invariant that implies `P`, and every other step from it
makes `P` false, `P` holds throughout a run exactly if the steps of the run are safe. -/
theorem throughout_iff {step : σ → l → σ} {I P : σ → Prop} {Safe : σ → l → Prop} {s : σ}
    (hs : I s) (hP : ∀ {a}, I a → P a) (hsafe : ∀ {a label}, I a → Safe a label → I (step a label))
    (hbreaks : ∀ {a label}, I a → ¬ Safe a label → ¬ P (step a label)) (trace : List l) :
    (∀ before, before <+: trace → P (before.foldl step s)) ↔
      AtEvery (fun before label => Safe (before.foldl step s) label) trace := by
  suffices h : ((∀ before, before <+: trace → P (before.foldl step s)) ↔
      AtEvery (fun before label => Safe (before.foldl step s) label) trace) ∧
      (AtEvery (fun before label => Safe (before.foldl step s) label) trace →
        I (trace.foldl step s)) from h.1
  induction trace using List.reverseRecOn with
  | nil =>
    refine ⟨iff_of_true (fun before hbefore => ?_) (atEvery_nil _), fun _ => hs⟩
    rw [List.prefix_nil.mp hbefore]
    exact hP hs
  | append_singleton trace label ih =>
    obtain ⟨hiff, hinv⟩ := ih
    simp only [List.prefix_concat_iff, or_imp, forall_and, forall_eq, atEvery_snoc, hiff,
      List.foldl_append, List.foldl_cons, List.foldl_nil]
    refine ⟨⟨fun ⟨hlast, hall⟩ => ⟨hall, ?_⟩, fun ⟨hall, hlast⟩ => ⟨?_, hall⟩⟩,
      fun ⟨hall, hlast⟩ => hsafe (hinv hall) hlast⟩
    · by_contra hbad
      exact hbreaks (hinv hall) hbad hlast
    · exact hP (hsafe (hinv hall) hlast)

end TieredKVCache.Lib
