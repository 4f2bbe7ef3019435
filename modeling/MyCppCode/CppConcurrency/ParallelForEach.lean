import MyCppCode.CppConcurrency.ParallelBlocks
import MyCppCode.CppConcurrency.ParallelFindAsync

/-!
# ParallelForEach — `parallel_for_each` and `parallel_for_each_async` visit every element once

`parallel_for_each` is one more way to go through blocks.  `parallel_for_each_async` hands the first half
of a long range to `std::async` and calls itself on the second; the tree of these calls is the state,
as for `parallel_find_async`.  The function does not throw; a visit is one call of it, seen when that
call returns, and the log has the positions visited in the order of time.
-/

namespace MyCppCode
namespace CppConcurrency

open Foundation
open ParallelFind (positions)
open ParallelBlocks (positions_append positions_one positions_self)

universe u

namespace ParallelForEachAsync

open ParallelFindAsync (Launch Event minPerTh)

/-! ## Tasks -/

/-- A call of `parallel_for_each_async`.  In `split` and `waiting` the task `half` is that of the future:
deferred, it waits for `get`. -/
inductive Task
  | entry (fst lst : Nat)
  | loop (fst lst : Nat)
  | split (launch : Launch) (half rest : Task)
  | waiting (half : Task)
  | returned
  deriving DecidableEq, Repr

/-- One step of a call or of a call below it: the call afterwards, and the positions visited. -/
def taskStep : Task → Event → Option (Task × List Nat)
  | .entry fst lst, .here launch =>
      if lst - fst = 0 then some (.returned, [])
      else if lst - fst < 2 * minPerTh then some (.loop fst lst, [])
      else
        let md := fst + (lst - fst) / 2
        some (.split launch (.entry fst md) (.entry md lst), [])
  -- `std::for_each(fst, lst, f)`
  | .loop fst lst, .here _ =>
      if fst ≠ lst then some (.loop (fst + 1) lst, [fst]) else some (.returned, [])
  | .split _ half .returned, .here _ => some (.waiting half, [])
  | .split launch half rest, .second e =>
      match taskStep rest e with
      | some (rest', visited) => some (.split launch half rest', visited)
      | none => none
  -- an asynchronous half moves at any time, a deferred one only inside `get`
  | .split .async half rest, .first e =>
      match taskStep half e with
      | some (half', visited) => some (.split .async half' rest, visited)
      | none => none
  | .waiting .returned, .here _ => some (.returned, [])
  | .waiting half, .first e =>
      match taskStep half e with
      | some (half', visited) => some (.waiting half', visited)
      | none => none
  | _, _ => none

/-- The state is the tree of calls and the log. -/
def step (s : Task × List Nat) (e : Event) : Option (Task × List Nat) :=
  match taskStep s.1 e with
  | some (task, visited) => some (task, s.2 ++ visited)
  | none => none

/-- The call of `parallel_for_each_async`. -/
def start {α : Type u} (xs : List α) : Task × List Nat := (.entry 0 xs.length, [])

/-! ## What a step can do -/

/-- The moves of a call, and of the calls below it. -/
inductive Moves : Task → Task → List Nat → Prop where
  | empty {fst lst : Nat} : lst - fst = 0 → Moves (.entry fst lst) .returned []
  | leaf {fst lst : Nat} : lst - fst ≠ 0 → lst - fst < 2 * minPerTh →
      Moves (.entry fst lst) (.loop fst lst) []
  | fork {fst lst md : Nat} {launch : Launch} : ¬ lst - fst < 2 * minPerTh →
      md = fst + (lst - fst) / 2 →
      Moves (.entry fst lst) (.split launch (.entry fst md) (.entry md lst)) []
  | visit {fst lst : Nat} : fst ≠ lst → Moves (.loop fst lst) (.loop (fst + 1) lst) [fst]
  | stop {lst : Nat} : Moves (.loop lst lst) .returned []
  | wait {launch : Launch} {half : Task} : Moves (.split launch half .returned) (.waiting half) []
  | get : Moves (.waiting .returned) .returned []
  | inRest {launch : Launch} {half rest rest' : Task} {is : List Nat} :
      Moves rest rest' is → Moves (.split launch half rest) (.split launch half rest') is
  | inHalf {half half' rest : Task} {is : List Nat} :
      Moves half half' is → Moves (.split .async half rest) (.split .async half' rest) is
  | inWaiting {half half' : Task} {is : List Nat} :
      Moves half half' is → Moves (.waiting half) (.waiting half') is

theorem taskStep_moves {t t' : Task} {e : Event} {is : List Nat}
    (h : taskStep t e = some (t', is)) : Moves t t' is := by
  fun_induction taskStep t e generalizing t' is with
  | case1 fst lst launch hnil =>
      cases h
      exact .empty hnil
  | case2 fst lst launch hne hlt =>
      cases h
      exact .leaf hne hlt
  | case3 fst lst launch hne hge =>
      cases h
      exact .fork hge rfl
  | case4 fst lst launch hgo =>
      cases h
      exact .visit hgo
  | case5 fst lst launch hstop =>
      cases h
      obtain rfl := not_not.1 hstop
      exact .stop
  | case6 launch half launch' =>
      cases h
      exact .wait
  | case7 launch half rest e rest' visited hstep ih =>
      cases h
      exact .inRest (ih hstep)
  | case9 half rest e half' visited hstep ih =>
      cases h
      exact .inHalf (ih hstep)
  | case11 launch =>
      cases h
      exact .get
  | case12 half e half' visited hstep ih =>
      cases h
      exact .inWaiting (ih hstep)
  | _ =>
      cases h

theorem step_moves {s t : Task × List Nat} {e : Event} (h : step s e = some t) :
    ∃ is, Moves s.1 t.1 is ∧ t.2 = s.2 ++ is := by
  simp only [step] at h
  split at h
  · rename_i task visited hstep
    cases h
    exact ⟨visited, taskStep_moves hstep, rfl⟩
  · cases h

/-! ## The invariant -/

/-- Every range of the tree is one. -/
def Sound : Task → Prop
  | .entry fst lst => fst ≤ lst
  | .loop fst lst => fst ≤ lst
  | .split _ half rest => Sound half ∧ Sound rest
  | .waiting half => Sound half
  | .returned => True

/-- The positions that a call and the calls below it have still to visit. -/
def Task.todo : Task → List Nat
  | .entry fst lst => positions (fst, lst)
  | .loop fst lst => positions (fst, lst)
  | .split _ half rest => half.todo ++ rest.todo
  | .waiting half => half.todo
  | .returned => []

theorem Moves.sound {t t' : Task} {is : List Nat} (h : Moves t t' is) (hs : Sound t) : Sound t' := by
  induction h with
  | empty _ => trivial
  | leaf _ _ => exact hs
  | fork hge hmd =>
      simp only [Sound] at hs ⊢
      omega
  | visit hne => exact Nat.lt_of_le_of_ne hs hne
  | stop => trivial
  | wait => exact hs.1
  | get => trivial
  | inRest _ ih => exact ⟨hs.1, ih hs.2⟩
  | inHalf _ ih => exact ⟨ih hs.1, hs.2⟩
  | inWaiting _ ih => exact ih hs

/-- A move visits what it takes from the positions that are left. -/
theorem Moves.todo {t t' : Task} {is : List Nat} (h : Moves t t' is) (hs : Sound t) :
    t.todo.Perm (is ++ t'.todo) := by
  induction h with
  | empty hnil =>
      simp [Task.todo, positions, hnil]
  | leaf _ _ =>
      exact List.Perm.refl _
  | @fork fst lst md launch hge hmd =>
      simp only [Sound] at hs
      have hfirst : fst ≤ md := by omega
      have hsecond : md ≤ lst := by omega
      rw [Task.todo, positions_append hfirst hsecond]
      exact List.Perm.refl _
  | @visit fst lst hne =>
      rw [Task.todo, positions_append (Nat.le_succ fst) (Nat.lt_of_le_of_ne hs hne), positions_one]
      exact List.Perm.refl _
  | stop =>
      rw [Task.todo, positions_self]
      exact List.Perm.refl _
  | wait =>
      simp [Task.todo]
  | get =>
      exact List.Perm.refl _
  | @inRest launch half rest rest' is _ ih =>
      calc
        half.todo ++ rest.todo
        _ |>.Perm (half.todo ++ (is ++ rest'.todo)) := (ih hs.2).append_left _
        _ |>.Perm (is ++ (half.todo ++ rest'.todo)) := List.perm_append_comm_assoc _ _ _
  | inHalf _ ih =>
      simp only [Task.todo]
      rw [← List.append_assoc]
      exact (ih hs.1).append_right _
  | inWaiting _ ih =>
      exact ih hs

/-! ## Termination -/

/-- An upper bound for the steps that are left to a call and to the calls below it.  Both halves of a
range that is split are long enough to pay for the split. -/
def Task.rank : Task → Nat
  | .entry fst lst => (lst - fst) + 2 + (lst - fst - 20)
  | .loop fst lst => (lst - fst) + 1
  | .split _ half rest => half.rank + rest.rank + 2
  | .waiting half => half.rank + 1
  | .returned => 0

theorem Moves.rank_lt {t t' : Task} {is : List Nat} (h : Moves t t' is) (hs : Sound t) :
    t'.rank < t.rank := by
  induction h with
  | fork hge hmd =>
      -- each half has at least `minPerTh` elements, more than the 20 that the rank leaves out
      have hmin : minPerTh = 25 := rfl
      simp only [Task.rank]
      omega
  | visit hne =>
      simp only [Sound] at hs
      simp only [Task.rank]
      omega
  | inRest _ ih =>
      have hlt := ih hs.2
      simp only [Task.rank]
      omega
  | inHalf _ ih =>
      have hlt := ih hs.1
      simp only [Task.rank]
      omega
  | inWaiting _ ih =>
      have hlt := ih hs
      simp only [Task.rank]
      omega
  | _ =>
      simp only [Task.rank]
      omega

/-- A call that has not returned can go on, or a call that it waits for can. -/
theorem exists_taskStep {t : Task} (hnot : t ≠ .returned) : ∃ e r, taskStep t e = some r := by
  induction t with
  | entry fst lst =>
      refine ⟨.here .async, ?_⟩
      simp only [taskStep]
      split
      · exact ⟨_, rfl⟩
      · split <;> exact ⟨_, rfl⟩
  | loop fst lst =>
      refine ⟨.here .async, ?_⟩
      simp only [taskStep]
      split <;> exact ⟨_, rfl⟩
  | split launch half rest ih₁ ih₂ =>
      by_cases hret : rest = .returned
      · subst hret
        exact ⟨.here .async, _, rfl⟩
      · obtain ⟨e, r, hstep⟩ := ih₂ hret
        exact ⟨.second e, _, by simp only [taskStep, hstep]; rfl⟩
  | waiting half ih =>
      by_cases hret : half = .returned
      · subst hret
        exact ⟨.here .async, _, rfl⟩
      · obtain ⟨e, r, hstep⟩ := ih hret
        exact ⟨.first e, _, by simp only [taskStep, hstep]; rfl⟩
  | returned => exact absurd rfl hnot

/-! ## Every run -/

/-- What has been visited and what is left make up the range. -/
structure Inv (n : Nat) (s : Task × List Nat) : Prop where
  sound : Sound s.1
  all : (s.2 ++ s.1.todo).Perm (List.range n)

theorem start_inv {α : Type u} (xs : List α) : Inv xs.length (start xs) := by
  refine ⟨Nat.zero_le _, ?_⟩
  simp [start, Task.todo, positions, List.range_eq_range']

theorem step_inv {n : Nat} {s t : Task × List Nat} {e : Event} (h : Inv n s)
    (hstep : step s e = some t) : Inv n t ∧ t.1.rank < s.1.rank := by
  obtain ⟨is, hmoves, hlog⟩ := step_moves hstep
  refine ⟨⟨hmoves.sound h.sound, ?_⟩, hmoves.rank_lt h.sound⟩
  rw [hlog, List.append_assoc]
  exact ((hmoves.todo h.sound).symm.append_left s.2).trans h.all

theorem Inv.subperm {n : Nat} {s : Task × List Nat} (h : Inv n s) : s.2.Subperm (List.range n) :=
  (List.sublist_append_left s.2 s.1.todo).subperm.trans h.all.subperm

theorem Inv.returned_visited {n : Nat} {s : Task × List Nat} (h : Inv n s) (hret : s.1 = .returned) :
    s.2.Perm (List.range n) := by
  have hall := h.all
  rw [hret, Task.todo, List.append_nil] at hall
  exact hall

theorem run_inv {α : Type u} {xs : List α} {es : List Event} {s : Task × List Nat}
    (hrun : Run step (start xs) es s) : Inv xs.length s :=
  hrun.invariant (fun _ _ _ hs hstep => (step_inv hs hstep).1) (start_inv xs)

theorem run_length_le {α : Type u} {xs : List α} {es : List Event} {s : Task × List Nat}
    (hrun : Run step (start xs) es s) : es.length ≤ 2 * xs.length + 2 := by
  have hlen : es.length + s.1.rank ≤ (start xs).1.rank :=
    hrun.length_add_le (fun _ _ _ hs hstep => step_inv hs hstep) (start_inv xs)
  simp only [start, Task.rank] at hlen
  omega

theorem returned_or_exists_step (s : Task × List Nat) :
    s.1 = .returned ∨ ∃ e t, step s e = some t := by
  by_cases hret : s.1 = .returned
  · exact Or.inl hret
  · obtain ⟨e, r, hstep⟩ := exists_taskStep hret
    exact Or.inr ⟨e, _, by simp only [step, hstep]; rfl⟩
end ParallelForEachAsync

/-- `parallel_for_each`: the futures are got, and then the destructor of `joiner` joins the threads. -/
def parallelForEach {α : Type u} : ParallelBlocks.Body α Unit :=
  { seed := ()
    apply := fun _ _ => ()
    combine := fun _ _ => ()
    phases := [{ wait := .get, own := false }, { wait := .join, own := false }]
    waits := ⟨_, _, rfl, by decide⟩ }

/-- `parallel_for_each` over any sequence, answer of `hardware_concurrency()` and interleaving, and
`parallel_for_each_async` over any sequence, launch policies and interleaving: the call makes a bounded
number of steps and can always make the next one until it returns; at no time has the function been
applied to an element twice, or to anything else; and when the call returns, it has been applied to all
of them. -/
theorem parallel_for_each_correct {α : Type u} (hw : Nat) (xs : List α) :
    (∀ es s, Run (ParallelBlocks.step parallelForEach hw xs ()) (ParallelBlocks.start xs ()) es s →
      es.length ≤ 6 * xs.length + 4 ∧
        ((∃ r, s.main = .returned r) ∨
          ∃ e t, ParallelBlocks.step parallelForEach hw xs () s e = some t) ∧
        s.log.Subperm (List.range xs.length) ∧
        (∀ r, s.main = .returned r → s.log.Perm (List.range xs.length))) ∧
      ∀ es s, Run ParallelForEachAsync.step (ParallelForEachAsync.start xs) es s →
        es.length ≤ 2 * xs.length + 2 ∧
          (s.1 = .returned ∨ ∃ e t, ParallelForEachAsync.step s e = some t) ∧
          s.2.Subperm (List.range xs.length) ∧
          (s.1 = .returned → s.2.Perm (List.range xs.length)) := by
  constructor
  · intro es s hrun
    have hinv := ParallelBlocks.run_inv hrun
    refine ⟨?_, ParallelBlocks.returned_or_exists_step hrun, hinv.log_subperm,
      fun r hret => hinv.returned_visited hret⟩
    have hlen := ParallelBlocks.run_length_le hrun
    simp only [parallelForEach, List.length_cons, List.length_nil] at hlen
    omega
  · intro es s hrun
    have hinv := ParallelForEachAsync.run_inv hrun
    exact ⟨ParallelForEachAsync.run_length_le hrun, ParallelForEachAsync.returned_or_exists_step s,
      hinv.subperm, hinv.returned_visited⟩

/-- Two threads with 25 elements each take turns. -/
def turns : List ParallelBlocks.Event :=
  [.main, .main] ++ (List.replicate 27 [.worker 0, .worker 1]).flatten ++ List.replicate 6 .main

/-- The first half is deferred and runs inside `get`. -/
def deferredHalf : List ParallelFindAsync.Event :=
  [.here .deferred] ++ List.replicate 27 (.second (.here .async)) ++ [.here .async] ++
    List.replicate 27 (.first (.here .async)) ++ [.here .async]

theorem parallel_for_each_correct_fifty :
    (∃ s : ParallelBlocks.State Unit,
      Run (ParallelBlocks.step parallelForEach 2 (List.range 50) ())
          (ParallelBlocks.start (List.range 50) ()) turns s ∧
        s.main = .returned () ∧ s.log.Perm (List.range 50)) ∧
      ∃ s : ParallelForEachAsync.Task × List Nat,
        Run ParallelForEachAsync.step (ParallelForEachAsync.start (List.range 50)) deferredHalf s ∧
          s.1 = .returned ∧ s.2.Perm (List.range 50) := by
  have hblocks : (exec (ParallelBlocks.step parallelForEach 2 (List.range 50) ())
      (ParallelBlocks.start (List.range 50) ()) turns).map (·.main) = some (.returned ()) := by
    decide +kernel
  have htasks : (exec ParallelForEachAsync.step (ParallelForEachAsync.start (List.range 50))
      deferredHalf).map (·.1) = some .returned := by
    decide +kernel
  obtain ⟨s, hexec, hret⟩ := Option.map_eq_some_iff.1 hblocks
  obtain ⟨t, hexec', hret'⟩ := Option.map_eq_some_iff.1 htasks
  have hcorrect := parallel_for_each_correct 2 (List.range 50)
  obtain ⟨-, -, -, hperm⟩ := hcorrect.1 _ s (run_of_exec hexec)
  obtain ⟨-, -, -, hperm'⟩ := hcorrect.2 _ t (run_of_exec hexec')
  exact ⟨⟨s, run_of_exec hexec, hret, hperm () hret⟩, t, run_of_exec hexec', hret', hperm' hret'⟩

end CppConcurrency
end MyCppCode
