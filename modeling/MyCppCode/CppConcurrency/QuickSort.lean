import MyCppCode.CppConcurrency.ParallelFindAsync
import Mathlib.Data.List.Perm.Basic
import Mathlib.Order.RelClasses

/-!
# QuickSort — `test_quick_sort_sequence` and `quick_sort_parallel`

Both functions take the first element as the pivot, let `std::partition` divide the rest, sort the two
parts by a recursive call each, and splice the pieces together.  The sequential one makes its calls one
after the other; the parallel one hands the lower part to `std::async` and calls itself on the upper.

The state is the tree of calls, and the two functions differ only in the calls they make.  The event of a
division says where `std::partition` has put each element, so that every division it may produce is
covered, and whether `std::async` starts a thread or defers the call.

* `Moves`: what one step of either function can do;
* `Sorts t input`: the call `t` is on its way to sort `input`; every move keeps it (`Moves.sorts`);
* `rank`: what every move lowers;
* `quick_sort_correct`: termination and result of both functions, and that on a total order the results
  are equal.
-/

namespace MyCppCode
namespace CppConcurrency
namespace QuickSort

open Foundation
open ParallelFindAsync (Launch)

universe u

variable {α : Type u}

/-! ## Calls -/

/-- A call of one of the two functions.  `lower` and `higher` are the sequential one inside its two
recursive calls; `split` and `waiting` the parallel one inside its own call and inside `get`, with the
task of the future. -/
inductive Task (α : Type u)
  | entry (input : List α)
  | lower (result input : List α) (new_lower : Task α)
  | higher (result new_lower : List α) (new_higher : Task α)
  | split (launch : Launch) (result : List α) (new_lower new_higher : Task α)
  | waiting (result : List α) (new_lower : Task α)
  | returned (result : List α)
  deriving DecidableEq

/-- Who moves next.  `partition order divide` is the step of a call on a list that is not empty: the
element now at position `i` was at position `order[i]`, and the upper part begins at `divide`. -/
inductive Event
  | partition (launch : Launch) (order : List Nat) (divide : Nat)
  | here
  | first (e : Event)
  | second (e : Event)
  deriving DecidableEq

/-- The elements of `input` in another order. -/
def arrange (input : List α) (order : List Nat) : List α :=
  order.filterMap fun i => input[i]?

/-- The positions in order give the list itself. -/
theorem filterMap_range (input : List α) :
    (List.range input.length).filterMap (fun i => input[i]?) = input := by
  induction input with
  | nil => rfl
  | cons x xs ih =>
      rw [List.length_cons, List.range_succ_eq_map]
      simpa [List.filterMap_cons, List.filterMap_map] using ih

theorem arrange_perm {input : List α} {order : List Nat} (h : order.Perm (List.range input.length)) :
    (arrange input order).Perm input := by
  have hperm := h.filterMap fun i => input[i]?
  rwa [filterMap_range] at hperm

theorem arrange_append (input : List α) (order order' : List Nat) :
    arrange input (order ++ order') = arrange input order ++ arrange input order' :=
  List.filterMap_append

section Source

variable [LT α] [DecidableLT α]

/-- `std::partition` may leave `low ++ high` for the predicate `t < pivot`. -/
def Divides (pivot : α) (low high : List α) : Prop :=
  (∀ x ∈ low, x < pivot) ∧ ∀ x ∈ high, ¬ x < pivot

instance (pivot : α) (low high : List α) : Decidable (Divides pivot low high) :=
  inferInstanceAs (Decidable (_ ∧ _))

/-- One step of a call or of a call below it, where `calls launch result lower_part input` are the calls
made after the division. -/
def taskStep (calls : Launch → List α → List α → List α → Task α) :
    Task α → Event → Option (Task α)
  | .entry [], .here => some (.returned [])
  | .entry (pivot :: input), .partition launch order divide =>
      -- `result.splice` has taken the pivot off, `std::partition` arranges the rest
      let arranged := arrange input order
      if order.Perm (List.range input.length) ∧
          Divides pivot (arranged.take divide) (arranged.drop divide) then
        some (calls launch [pivot] (arranged.take divide) (arranged.drop divide))
      else
        none
  | .lower result input (.returned new_lower), .here => some (.higher result new_lower (.entry input))
  | .lower result input t, .first e => (taskStep calls t e).map (.lower result input)
  | .higher result new_lower (.returned new_higher), .here =>
      some (.returned (new_lower ++ (result ++ new_higher)))
  | .higher result new_lower t, .second e => (taskStep calls t e).map (.higher result new_lower)
  | .split _ result t (.returned new_higher), .here => some (.waiting (result ++ new_higher) t)
  | .split launch result t u, .second e => (taskStep calls u e).map (.split launch result t)
  -- an asynchronous call moves at any time, a deferred one only inside `get`
  | .split .async result t u, .first e => (taskStep calls t e).map (.split .async result · u)
  | .waiting result (.returned new_lower), .here => some (.returned (new_lower ++ result))
  | .waiting result t, .first e => (taskStep calls t e).map (.waiting result)
  | _, _ => none

def test_quick_sort_sequence : Task α → Event → Option (Task α) :=
  taskStep fun _ result lower_part input => .lower result input (.entry lower_part)

def quick_sort_parallel : Task α → Event → Option (Task α) :=
  taskStep fun launch result lowp input => .split launch result (.entry lowp) (.entry input)

/-! ## What a step can do -/

/-- The moves of a call of either function, and of the calls below it. -/
inductive Moves : Task α → Task α → Prop where
  | empty : Moves (.entry []) (.returned [])
  | callLower {pivot : α} {input low high : List α} : (low ++ high).Perm input →
      Divides pivot low high → Moves (.entry (pivot :: input)) (.lower [pivot] high (.entry low))
  | fork {pivot : α} {input low high : List α} {launch : Launch} : (low ++ high).Perm input →
      Divides pivot low high →
      Moves (.entry (pivot :: input)) (.split launch [pivot] (.entry low) (.entry high))
  | callHigher {result input low : List α} :
      Moves (.lower result input (.returned low)) (.higher result low (.entry input))
  | splice {result low high : List α} :
      Moves (.higher result low (.returned high)) (.returned (low ++ (result ++ high)))
  | wait {launch : Launch} {result high : List α} {t : Task α} :
      Moves (.split launch result t (.returned high)) (.waiting (result ++ high) t)
  | get {result low : List α} : Moves (.waiting result (.returned low)) (.returned (low ++ result))
  | inLower {result input : List α} {t t' : Task α} :
      Moves t t' → Moves (.lower result input t) (.lower result input t')
  | inHigher {result low : List α} {t t' : Task α} :
      Moves t t' → Moves (.higher result low t) (.higher result low t')
  | inSecond {launch : Launch} {result : List α} {t u u' : Task α} :
      Moves u u' → Moves (.split launch result t u) (.split launch result t u')
  | inFirst {result : List α} {t t' u : Task α} :
      Moves t t' → Moves (.split .async result t u) (.split .async result t' u)
  | inWaiting {result : List α} {t t' : Task α} :
      Moves t t' → Moves (.waiting result t) (.waiting result t')

/-- A function whose calls after a division are moves makes only moves. -/
theorem taskStep_moves {calls : Launch → List α → List α → List α → Task α}
    (hcalls : ∀ {launch pivot input low high}, (low ++ high).Perm input → Divides pivot low high →
      Moves (.entry (pivot :: input)) (calls launch [pivot] low high))
    {t t' : Task α} {e : Event} (h : taskStep calls t e = some t') : Moves t t' := by
  -- a case for each equation of `taskStep`, the calls below by the induction hypothesis
  fun_induction taskStep calls t e generalizing t' with
  | case1 =>
      cases h
      exact .empty
  | case2 pivot input launch order divide arranged =>
      rename_i hdivision
      cases h
      refine hcalls ?_ hdivision.2
      rw [List.take_append_drop]
      exact arrange_perm hdivision.1
  | case4 result input low =>
      cases h
      exact .callHigher
  | case5 result input t e ih =>
      obtain ⟨u, hu, rfl⟩ := Option.map_eq_some_iff.mp h
      exact .inLower (ih hu)
  | case6 result low high =>
      cases h
      exact .splice
  | case7 result low t e ih =>
      obtain ⟨u, hu, rfl⟩ := Option.map_eq_some_iff.mp h
      exact .inHigher (ih hu)
  | case8 launch result t high =>
      cases h
      exact .wait
  | case9 launch result t u e ih =>
      obtain ⟨u', hu, rfl⟩ := Option.map_eq_some_iff.mp h
      exact .inSecond (ih hu)
  | case10 result t u e ih =>
      obtain ⟨t', ht, rfl⟩ := Option.map_eq_some_iff.mp h
      exact .inFirst (ih ht)
  | case11 result low =>
      cases h
      exact .get
  | case12 result t e ih =>
      obtain ⟨t', ht, rfl⟩ := Option.map_eq_some_iff.mp h
      exact .inWaiting (ih ht)
  | _ =>
      cases h

theorem test_quick_sort_sequence_moves {t t' : Task α} {e : Event}
    (h : test_quick_sort_sequence t e = some t') : Moves t t' :=
  taskStep_moves Moves.callLower h

theorem quick_sort_parallel_moves {t t' : Task α} {e : Event}
    (h : quick_sort_parallel t e = some t') : Moves t t' :=
  taskStep_moves Moves.fork h

end Source

/-! ## Termination -/

/-- An upper bound for the moves that are left. -/
def rank : Task α → Nat
  | .entry input => 4 * input.length + 1
  | .lower _ input t => rank t + 4 * input.length + 3
  | .higher _ _ t => rank t + 1
  | .split _ _ t u => rank t + rank u + 2
  | .waiting _ t => rank t + 1
  | .returned _ => 0

theorem Moves.rank_lt [LT α] {t t' : Task α} (h : Moves t t') : rank t' < rank t := by
  induction h with
  | callLower hperm _ =>
      have hlength := hperm.length_eq
      simp only [rank, List.length_append, List.length_cons] at hlength ⊢
      omega
  | fork hperm _ =>
      have hlength := hperm.length_eq
      simp only [rank, List.length_append, List.length_cons] at hlength ⊢
      omega
  | _ =>
      simp only [rank] at *
      omega

section Progress

variable [LT α] [DecidableLT α]

/-- Every list can be divided: `std::partition` has a result to produce. -/
theorem exists_division (pivot : α) (input : List α) :
    ∃ order divide, order.Perm (List.range input.length) ∧
      Divides pivot ((arrange input order).take divide) ((arrange input order).drop divide) := by
  -- the positions of the smaller elements, then the others
  let below (i : Nat) : Bool := input[i]?.any fun x => x < pivot
  have hmem (p : Nat → Bool) (x : α) (hx : x ∈ arrange input ((List.range input.length).filter p)) :
      ∃ i, p i = true ∧ input[i]? = some x := by
    obtain ⟨i, hi, hget⟩ := List.mem_filterMap.mp hx
    exact ⟨i, (List.mem_filter.mp hi).2, hget⟩
  refine ⟨_, (arrange input ((List.range input.length).filter below)).length,
    List.filter_append_perm below (List.range input.length), ?_⟩
  rw [arrange_append, List.take_left, List.drop_left]
  constructor
  · intro x hx
    obtain ⟨i, hbelow, hget⟩ := hmem _ x hx
    simpa [below, hget] using hbelow
  · intro x hx
    obtain ⟨i, hbelow, hget⟩ := hmem _ x hx
    simpa [below, hget] using hbelow

/-- A call that has not returned can move, by itself or by a call below it. -/
theorem exists_taskStep (calls : Launch → List α → List α → List α → Task α) (t : Task α) :
    (∃ result, t = .returned result) ∨ ∃ e t', taskStep calls t e = some t' := by
  induction t with
  | entry input =>
      right
      cases input with
      | nil => exact ⟨.here, .returned [], rfl⟩
      | cons pivot input =>
          obtain ⟨order, divide, hperm, hdivides⟩ := exists_division pivot input
          exact ⟨.partition .async order divide, _, if_pos ⟨hperm, hdivides⟩⟩
  | lower result input t ih =>
      right
      rcases ih with ⟨low, rfl⟩ | ⟨e, t', ht⟩
      · exact ⟨.here, _, rfl⟩
      · exact ⟨.first e, .lower result input t', by rw [taskStep, ht]; rfl⟩
  | higher result low t ih =>
      right
      rcases ih with ⟨high, rfl⟩ | ⟨e, t', ht⟩
      · exact ⟨.here, _, rfl⟩
      · exact ⟨.second e, .higher result low t', by rw [taskStep, ht]; rfl⟩
  | split launch result t u _ ihu =>
      right
      -- the call's own recursion can go on whatever the future does
      rcases ihu with ⟨high, rfl⟩ | ⟨e, u', hu⟩
      · exact ⟨.here, _, by rw [taskStep]⟩
      · exact ⟨.second e, .split launch result t u', by rw [taskStep, hu]; rfl⟩
  | waiting result t ih =>
      right
      rcases ih with ⟨low, rfl⟩ | ⟨e, t', ht⟩
      · exact ⟨.here, _, rfl⟩
      · exact ⟨.first e, .waiting result t', by rw [taskStep, ht]; rfl⟩
  | returned result => exact Or.inl ⟨result, rfl⟩

end Progress

/-! ## Sorting -/

section Sorting

variable [LT α]

/-- No element is less than one before it. -/
def Sorted (l : List α) : Prop :=
  l.Pairwise fun a b => ¬ b < a

/-- `input` is the pivot, a part below it and a part not below it. -/
structure Parts (pivot : α) (low high input : List α) : Prop where
  perm : (low ++ pivot :: high).Perm input
  below : ∀ x ∈ low, x < pivot
  above : ∀ x ∈ high, ¬ x < pivot

/-- The call is on its way to sort `input`. -/
def Sorts : Task α → List α → Prop
  | .entry list, input => list = input
  | .lower result rest t, input =>
      ∃ pivot low, result = [pivot] ∧ Parts pivot low rest input ∧ Sorts t low
  | .higher result new_lower t, input =>
      ∃ pivot high, result = [pivot] ∧ Parts pivot new_lower high input ∧ Sorted new_lower ∧ Sorts t high
  | .split _ result t u, input =>
      ∃ pivot low high, result = [pivot] ∧ Parts pivot low high input ∧ Sorts t low ∧ Sorts u high
  | .waiting result t, input =>
      ∃ pivot low high, result = pivot :: high ∧ Parts pivot low high input ∧ Sorted high ∧ Sorts t low
  | .returned result, input => Sorted result ∧ result.Perm input

theorem Parts.of_division {pivot : α} {low high input : List α} (hperm : (low ++ high).Perm input)
    (h : Divides pivot low high) : Parts pivot low high (pivot :: input) where
  perm := List.perm_middle.trans (hperm.cons pivot)
  below := h.1
  above := h.2

/-- The parts may be rearranged. -/
theorem Parts.of_perm {pivot : α} {low low' high high' input : List α}
    (h : Parts pivot low high input) (hlow : low'.Perm low) (hhigh : high'.Perm high) :
    Parts pivot low' high' input where
  perm := (hlow.append (hhigh.cons pivot)).trans h.perm
  below := fun x hx => h.below x (hlow.mem_iff.mp hx)
  above := fun x hx => h.above x (hhigh.mem_iff.mp hx)

/-- Two sorted parts with the pivot between them are sorted. -/
theorem Parts.sorted [IsStrictOrder α (· < ·)] {pivot : α} {low high input : List α}
    (h : Parts pivot low high input) (hlow : Sorted low) (hhigh : Sorted high) :
    Sorted (low ++ pivot :: high) := by
  refine List.pairwise_append.mpr ⟨hlow, List.pairwise_cons.mpr ⟨h.above, hhigh⟩, ?_⟩
  intro x hx y hy hyx
  -- an element of the upper part below one of the lower part would be below the pivot
  have hyp : y < pivot := IsTrans.trans _ _ _ hyx (h.below x hx)
  rcases List.mem_cons.mp hy with rfl | hy
  · exact irrefl y hyp
  · exact h.above y hy hyp

/-- Every move keeps a call on its way. -/
theorem Moves.sorts [IsStrictOrder α (· < ·)] {t t' : Task α} (h : Moves t t') {input : List α}
    (hs : Sorts t input) : Sorts t' input := by
  induction h generalizing input with
  | empty =>
      obtain rfl : [] = input := hs
      exact ⟨List.Pairwise.nil, List.Perm.refl _⟩
  | callLower hperm hdivides =>
      subst hs
      exact ⟨_, _, rfl, .of_division hperm hdivides, rfl⟩
  | fork hperm hdivides =>
      subst hs
      exact ⟨_, _, _, rfl, .of_division hperm hdivides, rfl, rfl⟩
  | callHigher =>
      obtain ⟨pivot, low, rfl, hparts, hlow, hperm⟩ := hs
      exact ⟨pivot, _, rfl, hparts.of_perm hperm (List.Perm.refl _), hlow, rfl⟩
  | splice =>
      obtain ⟨pivot, high, rfl, hparts, hlow, hhigh, hperm⟩ := hs
      have hparts' := hparts.of_perm (List.Perm.refl _) hperm
      exact ⟨hparts'.sorted hlow hhigh, hparts'.perm⟩
  | wait =>
      obtain ⟨pivot, low, high, rfl, hparts, ht, hhigh, hperm⟩ := hs
      exact ⟨pivot, low, _, rfl, hparts.of_perm (List.Perm.refl _) hperm, hhigh, ht⟩
  | get =>
      obtain ⟨pivot, low, high, rfl, hparts, hhigh, hlow, hperm⟩ := hs
      have hparts' := hparts.of_perm hperm (List.Perm.refl _)
      exact ⟨hparts'.sorted hlow hhigh, hparts'.perm⟩
  | inLower _ ih =>
      obtain ⟨pivot, low, hresult, hparts, ht⟩ := hs
      exact ⟨pivot, low, hresult, hparts, ih ht⟩
  | inHigher _ ih =>
      obtain ⟨pivot, high, hresult, hparts, hlow, ht⟩ := hs
      exact ⟨pivot, high, hresult, hparts, hlow, ih ht⟩
  | inSecond _ ih =>
      obtain ⟨pivot, low, high, hresult, hparts, ht, hu⟩ := hs
      exact ⟨pivot, low, high, hresult, hparts, ht, ih hu⟩
  | inFirst _ ih =>
      obtain ⟨pivot, low, high, hresult, hparts, ht, hu⟩ := hs
      exact ⟨pivot, low, high, hresult, hparts, ih ht, hu⟩
  | inWaiting _ ih =>
      obtain ⟨pivot, low, high, hresult, hparts, hhigh, ht⟩ := hs
      exact ⟨pivot, low, high, hresult, hparts, hhigh, ih ht⟩

/-- On a total order there is only one sorted permutation. -/
theorem Sorted.eq_of_perm [Std.Trichotomous (α := α) (· < ·)] {l l' : List α} (hl : Sorted l)
    (hl' : Sorted l') (h : l.Perm l') : l = l' := by
  refine h.eq_of_pairwise ?_ hl hl'
  intro a b _ _ hab hba
  exact Std.Trichotomous.trichotomous a b hba hab

end Sorting

/-! ## Both functions -/

section Correct

variable [LT α] [DecidableLT α]

/-- What a run of a sorting function that ends in `t` has to show: it is bounded, it goes on until the
call has returned, and then the result is a sorted permutation of the input. -/
structure SortsRun (step : Task α → Event → Option (Task α)) (input : List α) (es : List Event)
    (t : Task α) : Prop where
  bounded : es.length ≤ 4 * input.length + 1
  progress : (∃ result, t = .returned result) ∨ ∃ e t', step t e = some t'
  sorted : ∀ result, t = .returned result → Sorted result ∧ result.Perm input

theorem run_sorts [IsStrictOrder α (· < ·)]
    {calls : Launch → List α → List α → List α → Task α}
    (hmoves : ∀ {t e t'}, taskStep calls t e = some t' → Moves t t') {input : List α}
    {es : List Event} {t : Task α} (hrun : Run (taskStep calls) (.entry input) es t) :
    SortsRun (taskStep calls) input es t where
  bounded := by
    have hlength := hrun.length_add_le (I := fun _ => True) (μ := rank)
      (fun _ _ _ _ hstep => ⟨trivial, (hmoves hstep).rank_lt⟩) trivial
    rw [rank] at hlength
    omega
  progress := exists_taskStep calls t
  sorted := by
    rintro result rfl
    exact hrun.invariant (I := fun t => Sorts t input)
      (fun _ _ _ hs hstep => (hmoves hstep).sorts hs) rfl

/-- Whatever `std::partition` and `std::async` do, both functions terminate and return a sorted
permutation of their input; on a total order they return the same list. -/
theorem quick_sort_correct [IsStrictWeakOrder α (· < ·)] (input : List α) :
    (∀ es t, Run test_quick_sort_sequence (.entry input) es t →
      SortsRun test_quick_sort_sequence input es t) ∧
    (∀ es t, Run quick_sort_parallel (.entry input) es t →
      SortsRun quick_sort_parallel input es t) ∧
    (Std.Trichotomous (α := α) (· < ·) → ∀ es es' result result',
      Run test_quick_sort_sequence (.entry input) es (.returned result) →
      Run quick_sort_parallel (.entry input) es' (.returned result') → result = result') := by
  have hsequence : ∀ es t, Run test_quick_sort_sequence (.entry input) es t →
      SortsRun test_quick_sort_sequence input es t :=
    fun es t hrun => run_sorts test_quick_sort_sequence_moves hrun
  have hparallel : ∀ es t, Run quick_sort_parallel (.entry input) es t →
      SortsRun quick_sort_parallel input es t :=
    fun es t hrun => run_sorts quick_sort_parallel_moves hrun
  refine ⟨hsequence, hparallel, ?_⟩
  intro _ es es' result result' hrun hrun'
  obtain ⟨hsorted, hperm⟩ := (hsequence _ _ hrun).sorted result rfl
  obtain ⟨hsorted', hperm'⟩ := (hparallel _ _ hrun').sorted result' rfl
  exact hsorted.eq_of_perm hsorted' (hperm.trans hperm'.symm)

end Correct

/-- `2, 2, 1` sorted by both functions, with the future of the parallel one deferred. -/
theorem quick_sort_correct_three :
    ∃ es es' result,
      Run test_quick_sort_sequence (.entry [2, 2, 1]) es (.returned result) ∧
      Run quick_sort_parallel (.entry [2, 2, 1]) es' (.returned result) ∧
      Sorted result ∧ result.Perm [2, 2, 1] := by
  have hsequence : Run test_quick_sort_sequence (.entry [2, 2, 1])
      [.partition .async [1, 0] 1, .first (.partition .async [] 0), .first (.first .here), .first .here,
        .first (.second .here), .first .here, .here, .second (.partition .async [] 0),
        .second (.first .here), .second .here, .second (.second .here), .second .here, .here]
      (.returned [1, 2, 2]) := run_of_exec (by decide +kernel)
  have hparallel : Run quick_sort_parallel (.entry [2, 2, 1])
      [.partition .deferred [1, 0] 1, .second (.partition .async [] 0), .second (.first .here),
        .second (.second .here), .second .here, .second .here, .here, .first (.partition .async [] 0),
        .first (.first .here), .first (.second .here), .first .here, .first .here, .here]
      (.returned [1, 2, 2]) := run_of_exec (by decide +kernel)
  have horder : IsStrictWeakOrder Nat (· < ·) := ⟨fun a b c hab hbc => by omega⟩
  have hsorted := ((quick_sort_correct ([2, 2, 1] : List Nat)).1 _ _ hsequence).sorted _ rfl
  exact ⟨_, _, _, hsequence, hparallel, hsorted⟩

end QuickSort
end CppConcurrency
end MyCppCode
