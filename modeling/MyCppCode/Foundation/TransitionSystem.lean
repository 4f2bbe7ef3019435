import Mathlib.Algebra.GroupWithZero.Nat
import Mathlib.Data.List.Basic

/-!
# TransitionSystem — runs of a partial step function and the rules for their invariants

A component is given by a step function `σ → ε → Option σ`: the state, the event (who moves, and
what the environment answers), and `none` when the event is not possible in that state.  Because
the step is a function, a concrete run can be evaluated (`exec`), and because the events are
arbitrary, a statement about all runs is a statement about all interleavings.

* `Run step s es t`: the events `es` lead from `s` to `t`;
* `RunWithin step ok s es t`: the same, with every step taken where `ok` allows it;
* `Run.invariant`, `RunWithin.invariant`: what every step keeps, every run keeps;
* `Run.length_add_le`, `RunWithin.length_add_le`: where every step takes from a measure, no run is longer
  than it;
* `AllAlong step s es P`: `P` holds in every state of the run, its ends included;
* `Run.append`, `RunWithin.append`, `RunWithin.split`, `Run.end_eq`: the parts of a run, and where it ends;
* `exists_final`: where runs are bounded and can go on, one gets to the end;
* `RunWithin.allAlong`: what follows from an invariant holds in every state of the run;
* `sum_map_set`, `map_set_eq`: what a measure of a list of components changes by when one of them
  moves, and what stays as it is;
* `allAlong_iff_runWithin`: the runs that have `P` throughout are those whose steps are all allowed.
-/

namespace MyCppCode
namespace Foundation

universe u v

variable {σ : Type u} {ε : Type v} {step : σ → ε → Option σ}

/-! ## Runs -/

/-- `Run step s es t`: from `s`, the events `es` are possible one after the other and end in `t`. -/
inductive Run (step : σ → ε → Option σ) : σ → List ε → σ → Prop where
  | nil (s : σ) : Run step s [] s
  | cons {s t u : σ} {e : ε} {es : List ε} :
      step s e = some t → Run step t es u → Run step s (e :: es) u

/-- A run all of whose steps are taken where `ok` allows them. -/
inductive RunWithin (step : σ → ε → Option σ) (ok : σ → ε → Prop) : σ → List ε → σ → Prop where
  | nil (s : σ) : RunWithin step ok s [] s
  | cons {s t u : σ} {e : ε} {es : List ε} :
      ok s e → step s e = some t → RunWithin step ok t es u → RunWithin step ok s (e :: es) u

/-- Evaluate a run. -/
def exec (step : σ → ε → Option σ) : σ → List ε → Option σ
  | s, [] => some s
  | s, e :: es =>
      match step s e with
      | some t => exec step t es
      | none => none

theorem run_of_exec {s t : σ} {es : List ε} (h : exec step s es = some t) : Run step s es t := by
  induction es generalizing s with
  | nil =>
      have hst : s = t := by simpa [exec] using h
      subst hst
      exact Run.nil s
  | cons e es ih =>
      cases hs : step s e with
      | none =>
          simp [exec, hs] at h
      | some u =>
          have hu : exec step u es = some t := by simpa [exec, hs] using h
          exact Run.cons hs (ih hu)

/-- A run within decidable bounds can be evaluated as well. -/
theorem runWithin_of_exec {ok : σ → ε → Prop} [∀ s e, Decidable (ok s e)] {s t : σ} {es : List ε}
    (h : exec (fun s e => if ok s e then step s e else none) s es = some t) :
    RunWithin step ok s es t := by
  have hrun := run_of_exec h
  clear h
  induction hrun with
  | nil s =>
      exact RunWithin.nil s
  | cons hstep _ ih =>
      split at hstep
      · exact RunWithin.cons ‹_› hstep ih
      · cases hstep

theorem RunWithin.toRun {ok : σ → ε → Prop} {s t : σ} {es : List ε}
    (h : RunWithin step ok s es t) : Run step s es t := by
  induction h with
  | nil s =>
      exact Run.nil s
  | cons _ hstep _ ih =>
      exact Run.cons hstep ih

/-- A run in two parts. -/
theorem RunWithin.split {ok : σ → ε → Prop} {s t : σ} {es₁ es₂ : List ε}
    (h : RunWithin step ok s (es₁ ++ es₂) t) :
    ∃ u, RunWithin step ok s es₁ u ∧ RunWithin step ok u es₂ t := by
  induction es₁ generalizing s with
  | nil =>
      exact ⟨s, RunWithin.nil s, h⟩
  | cons e es₁ ih =>
      cases h with
      | cons hok hstep hrest =>
          obtain ⟨u, hu, ht⟩ := ih hrest
          exact ⟨u, RunWithin.cons hok hstep hu, ht⟩

/-- One run after another. -/
theorem Run.append {s t u : σ} {es₁ es₂ : List ε} (h₁ : Run step s es₁ t) (h₂ : Run step t es₂ u) :
    Run step s (es₁ ++ es₂) u := by
  induction h₁ with
  | nil s =>
      exact h₂
  | cons hstep _ ih =>
      exact Run.cons hstep (ih h₂)

theorem RunWithin.append {ok : σ → ε → Prop} {s t u : σ} {es₁ es₂ : List ε}
    (h₁ : RunWithin step ok s es₁ t) (h₂ : RunWithin step ok t es₂ u) :
    RunWithin step ok s (es₁ ++ es₂) u := by
  induction h₁ with
  | nil s =>
      exact h₂
  | cons hok hstep _ ih =>
      exact RunWithin.cons hok hstep (ih h₂)

/-- Where runs are bounded and go on until `F` holds, there is one that gets there. -/
theorem exists_final {ok : σ → ε → Prop} {F : σ → Prop} {s : σ} {bound : Nat}
    (hbound : ∀ es t, RunWithin step ok s es t → es.length ≤ bound)
    (hgo : ∀ es t, RunWithin step ok s es t → ¬ F t → ∃ e u, ok t e ∧ step t e = some u) :
    ∃ es t, RunWithin step ok s es t ∧ F t := by
  by_contra hnever
  have hlong : ∀ n, ∃ es t, RunWithin step ok s es t ∧ es.length = n := by
    intro n
    induction n with
    | zero =>
        exact ⟨[], s, RunWithin.nil s, rfl⟩
    | succ n ih =>
        obtain ⟨es, t, hrun, hlength⟩ := ih
        obtain ⟨e, u, hok, hstep⟩ := hgo es t hrun fun hfinal => hnever ⟨es, t, hrun, hfinal⟩
        refine ⟨es ++ [e], u, hrun.append (RunWithin.cons hok hstep (RunWithin.nil u)), ?_⟩
        rw [List.length_append, List.length_singleton, hlength]
  obtain ⟨es, t, hrun, hlength⟩ := hlong (bound + 1)
  have hle := hbound es t hrun
  omega

/-- The events determine where a run ends. -/
theorem Run.end_eq {s t u : σ} {es : List ε} (ht : Run step s es t) (hu : Run step s es u) : t = u := by
  induction ht with
  | nil s =>
      cases hu
      rfl
  | cons hstep _ ih =>
      cases hu with
      | cons hstep' hrest =>
          cases hstep.symm.trans hstep'
          exact ih hrest

/-! ## Invariants -/

/-- What holds at the start and is kept by every allowed step holds at the end of the run. -/
theorem RunWithin.invariant {ok : σ → ε → Prop} {I : σ → Prop}
    (hkeep : ∀ s e t, I s → ok s e → step s e = some t → I t)
    {s t : σ} {es : List ε} (h : RunWithin step ok s es t) (hs : I s) : I t := by
  induction h with
  | nil s =>
      exact hs
  | cons hok hstep _ ih =>
      exact ih (hkeep _ _ _ hs hok hstep)

/-- What holds at the start and is kept by every step holds at the end of every run. -/
theorem Run.invariant {I : σ → Prop} (hkeep : ∀ s e t, I s → step s e = some t → I t)
    {s t : σ} {es : List ε} (h : Run step s es t) (hs : I s) : I t := by
  induction h with
  | nil s =>
      exact hs
  | cons hstep _ ih =>
      exact ih (hkeep _ _ _ hs hstep)

/-- Where every step from a state with `I` takes from the measure `μ`, a run has no more steps than
the measure has room for. -/
theorem Run.length_add_le {I : σ → Prop} {μ : σ → Nat}
    (hkeep : ∀ s e t, I s → step s e = some t → I t ∧ μ t < μ s)
    {s t : σ} {es : List ε} (h : Run step s es t) (hs : I s) : es.length + μ t ≤ μ s := by
  induction h with
  | nil s =>
      simp
  | cons hstep _ ih =>
      obtain ⟨hI, hlt⟩ := hkeep _ _ _ hs hstep
      have hle := ih hI
      rw [List.length_cons]
      omega

/-- The same for runs within bounds. -/
theorem RunWithin.length_add_le {ok : σ → ε → Prop} {I : σ → Prop} {μ : σ → Nat}
    (hkeep : ∀ s e t, I s → ok s e → step s e = some t → I t ∧ μ t < μ s)
    {s t : σ} {es : List ε} (h : RunWithin step ok s es t) (hs : I s) : es.length + μ t ≤ μ s := by
  induction h with
  | nil s =>
      simp
  | cons hok hstep _ ih =>
      obtain ⟨hI, hlt⟩ := hkeep _ _ _ hs hok hstep
      have hle := ih hI
      rw [List.length_cons]
      omega

/-- A state that is a list of components: when the `i`-th of them moves, a sum over all of them changes
by what that one changes by. -/
theorem sum_map_set {c : Type u} (f : c → Nat) {l : List c} {i : Nat} {a : c} (b : c)
    (h : l[i]? = some a) : ((l.set i b).map f).sum + f a = (l.map f).sum + f b := by
  induction l generalizing i with
  | nil =>
      simp at h
  | cons x l ih =>
      cases i with
      | zero =>
          obtain rfl : x = a := by simpa using h
          simp only [List.set_cons_zero, List.map_cons, List.sum_cons]
          omega
      | succ i =>
          have hrest := ih (by simpa using h)
          simp only [List.set_cons_succ, List.map_cons, List.sum_cons]
          omega

/-- What a component keeps when it moves, the list of all of them keeps. -/
theorem map_set_eq {c : Type u} {d : Type v} (f : c → d) {l : List c} {i : Nat} {a b : c}
    (h : l[i]? = some a) (hf : f b = f a) : (l.set i b).map f = l.map f := by
  have hi : i < l.length := (List.getElem?_eq_some_iff.1 h).1
  apply List.ext_getElem?
  intro j
  by_cases hij : i = j
  · subst hij
    rw [List.getElem?_map, List.getElem?_set_self hi, List.getElem?_map, h, Option.map_some, hf]
    rfl
  · rw [List.getElem?_map, List.getElem?_set_ne hij, List.getElem?_map]

/-! ## Properties of all the states of a run -/

/-- `P` holds in every state that a prefix of the events `es` leads to from `s`. -/
def AllAlong (step : σ → ε → Option σ) (s : σ) (es : List ε) (P : σ → Prop) : Prop :=
  ∀ es₁ es₂ t, es = es₁ ++ es₂ → Run step s es₁ t → P t

theorem AllAlong.head {s : σ} {es : List ε} {P : σ → Prop} (h : AllAlong step s es P) : P s :=
  h [] es s rfl (Run.nil s)

theorem AllAlong.tail {s t : σ} {e : ε} {es : List ε} {P : σ → Prop}
    (h : AllAlong step s (e :: es) P) (hstep : step s e = some t) : AllAlong step t es P := by
  intro es₁ es₂ u hes hrun
  refine h (e :: es₁) es₂ u ?_ (Run.cons hstep hrun)
  simp [hes]

theorem AllAlong.cons {s t : σ} {e : ε} {es : List ε} {P : σ → Prop} (hs : P s)
    (hstep : step s e = some t) (h : AllAlong step t es P) : AllAlong step s (e :: es) P := by
  intro es₁ es₂ u hes hrun
  cases hrun with
  | nil =>
      exact hs
  | cons hstep' hrest =>
      rename_i t' e' es'
      obtain ⟨rfl, rfl⟩ : e = e' ∧ es = es' ++ es₂ := by simpa using hes
      have htt : t' = t := by
        have := hstep'.symm.trans hstep
        simpa using this
      subst htt
      exact h es' es₂ u rfl hrest

theorem AllAlong.of_nil {s : σ} {P : σ → Prop} (hs : P s) : AllAlong step s [] P := by
  intro es₁ es₂ u hes hrun
  obtain rfl : es₁ = [] := (List.append_eq_nil_iff.1 hes.symm).1
  cases hrun
  exact hs

theorem RunWithin.allAlong {ok : σ → ε → Prop} {I P : σ → Prop}
    (hkeep : ∀ s e t, I s → ok s e → step s e = some t → I t) (hP : ∀ s, I s → P s)
    {s t : σ} {es : List ε} (h : RunWithin step ok s es t) (hs : I s) : AllAlong step s es P := by
  induction h with
  | nil s =>
      exact AllAlong.of_nil (hP s hs)
  | cons hok hstep _ ih =>
      exact AllAlong.cons (hP _ hs) hstep (ih (hkeep _ _ _ hs hok hstep))

/-- If a step from a good state ends in a state with `P` exactly where `ok` allows it, then a run has
`P` throughout exactly when all its steps are allowed.  `I` is what the good states have besides. -/
theorem allAlong_iff_runWithin {ok : σ → ε → Prop} {I P : σ → Prop}
    (hkeep : ∀ s e t, I s → P s → step s e = some t → (P t ↔ ok s e) ∧ (P t → I t))
    {s t : σ} {es : List ε} (hrun : Run step s es t) (hI : I s) (hP : P s) :
    AllAlong step s es P ↔ RunWithin step ok s es t := by
  induction hrun with
  | nil s =>
      exact ⟨fun _ => RunWithin.nil s, fun _ => AllAlong.of_nil hP⟩
  | cons hstep _ ih =>
      obtain ⟨hiff, hinv⟩ := hkeep _ _ _ hI hP hstep
      constructor
      · intro hall
        have hP' := (hall.tail hstep).head
        exact RunWithin.cons (hiff.1 hP') hstep ((ih (hinv hP') hP').1 (hall.tail hstep))
      · intro hwithin
        cases hwithin with
        | cons hok hstep' hrest =>
            cases hstep.symm.trans hstep'
            have hP' := hiff.2 hok
            exact AllAlong.cons hP hstep ((ih (hinv hP') hP').2 hrest)

end Foundation
end MyCppCode
