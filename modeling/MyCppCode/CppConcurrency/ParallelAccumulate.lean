import MyCppCode.CppConcurrency.ParallelBlocks
import Mathlib.Algebra.FreeMonoid.Basic

/-!
# ParallelAccumulate — `parallel_accumulate` and `parallel_accu` return what `std::accumulate` does

Every call starts from `T()` and the initial value is added once, before all results, so no element and
no seed counts twice.  The results are added in the order of the blocks, whatever the order in which
they came, so the operation need not be commutative.
-/

namespace MyCppCode
namespace CppConcurrency

open Foundation
open ParallelFind (numTh blkSz block positions numTh_pos numTh_zero succ_mul_blkSz_le)

universe u

namespace ParallelBlocks

section Accumulate

variable {T : Type u} [AddMonoid T]

/-- `parallel_accumulate`: the threads are joined, and then `results` is accumulated onto `init`. -/
def parallelAccumulate : Body T T :=
  { seed := 0
    apply := (· + ·)
    combine := (· + ·)
    phases := [{ wait := .join, own := false }, { wait := .read, own := true }]
    waits := ⟨_, _, rfl, by decide⟩ }

/-- `parallel_accu`: the threads are joined, and then the futures and at last `lst_res` are added to
`init`. -/
def parallelAccu : Body T T :=
  { seed := 0
    apply := (· + ·)
    combine := (· + ·)
    phases := [{ wait := .join, own := false }, { wait := .get, own := true }]
    waits := ⟨_, _, rfl, by decide⟩ }

/-- `std::accumulate(fst, lst, init)`. -/
def accumulate (xs : List T) (init : T) : T := xs.foldl (· + ·) init

theorem accumulate_add (xs : List T) (a b : T) : accumulate xs (a + b) = a + accumulate xs b :=
  List.foldl_assoc

/-- Accumulating parts from zero, and then their results, is accumulating the whole. -/
theorem accumulate_parts (ls : List (List T)) (init : T) :
    accumulate (ls.map fun l => accumulate l 0) init = accumulate ls.flatten init := by
  induction ls generalizing init with
  | nil =>
      rfl
  | cons l ls ih =>
      have hone : init + accumulate l 0 = accumulate l init := by
        rw [← accumulate_add, add_zero]
      calc
        accumulate ((l :: ls).map fun l => accumulate l 0) init
            = accumulate (ls.map fun l => accumulate l 0) (init + accumulate l 0) := rfl
        _ = accumulate ls.flatten (accumulate l init) := by rw [ih, hone]
        _ = accumulate (l :: ls).flatten init := by
            rw [List.flatten_cons, accumulate, accumulate, accumulate, List.foldl_append]

/-- What the two functions have in common. -/
structure Adds (body : Body T T) : Prop where
  seed_eq : body.seed = 0
  apply_eq : body.apply = (· + ·)
  combine_eq : body.combine = (· + ·)
  phases_eq : ∃ wait ≠ Wait.join,
    body.phases = [{ wait := .join, own := false }, { wait := wait, own := true }]

theorem parallelAccumulate_adds : Adds (parallelAccumulate : Body T T) :=
  ⟨rfl, rfl, rfl, .read, by decide, rfl⟩

theorem parallelAccu_adds : Adds (parallelAccu : Body T T) :=
  ⟨rfl, rfl, rfl, .get, by decide, rfl⟩

theorem Adds.results {body : Body T T} (h : Adds body) (hw : Nat) (xs : List T) (init : T) :
    accumulate (body.results hw xs) init = accumulate xs init := by
  have hresults : body.results hw xs =
      ((List.range (numTh hw xs.length)).map fun i =>
        elements xs (positions (block hw xs.length i))).map fun l => accumulate l 0 := by
    simp only [Body.results, Body.blockResult, h.seed_eq, h.apply_eq, List.map_map]
    rfl
  rw [hresults, accumulate_parts, flatten_elements_blocks]

theorem Adds.total {body : Body T T} (h : Adds body) (hw : Nat) (xs : List T) (init : T) :
    body.total hw xs body.phases 0 init = accumulate xs init := by
  obtain ⟨wait, hwait, hphases⟩ := h.phases_eq
  have hjoin : body.take { wait := .join, own := false } = fun r _ => r := rfl
  have hadd : body.take { wait := wait, own := true } = (· + ·) := by
    funext r result
    cases wait with
    | join => exact absurd rfl hwait
    | get => exact congrFun (congrFun h.combine_eq r) result
    | read => exact congrFun (congrFun h.combine_eq r) result
  have hall : (body.results hw xs).take (numTh hw xs.length) = body.results hw xs :=
    List.take_of_length_le (by simp [Body.results])
  simp only [hphases, Body.total, hjoin, hadd, List.foldl_fixed, List.drop_zero, Phase.count,
    if_true, hall]
  exact h.results hw xs init

theorem blkSz_pos (hw : Nat) {sz : Nat} (hsz : sz ≠ 0) : 0 < blkSz hw sz :=
  Nat.div_pos (numTh_le hw sz) (numTh_pos hw hsz)

/-- There are no more threads than elements, so no block is empty. -/
theorem block_nonempty {hw sz i : Nat} (hi : i < numTh hw sz) :
    (block hw sz i).1 < (block hw sz i).2 := by
  have hsz : sz ≠ 0 := by
    rintro rfl
    simp [numTh_zero] at hi
  have hpos := blkSz_pos hw hsz
  have hupto := succ_mul_blkSz_le hi
  simp only [block]
  split
  · rw [Nat.succ_mul]
    omega
  · omega

/-- `parallel_accumulate` and `parallel_accu` over any monoid, sequence, initial value, answer of
`hardware_concurrency()` and interleaving: the call makes a bounded number of steps and can always make
the next one until it returns; every block is non-empty; and when it returns, the blocks are the range,
in order and each position once, and the value is that of `std::accumulate`. -/
theorem parallel_accumulate_accu_correct (hw : Nat) (xs : List T) (init : T) {body : Body T T}
    (hbody : body ∈ [parallelAccumulate, parallelAccu]) {es : List Event} {s : State T}
    (hrun : Run (step body hw xs init) (start xs init) es s) :
    es.length ≤ 6 * xs.length + 4 ∧
      ((∃ r, s.main = .returned r) ∨ ∃ e t, step body hw xs init s e = some t) ∧
      (∀ w ∈ s.workers, w.first < w.en) ∧
      ∀ r, s.main = .returned r →
        (s.workers.map fun w => (w.first, w.en)).flatMap positions = List.range xs.length ∧
          r = accumulate xs init := by
  have hadds : Adds body := by
    rcases List.mem_cons.1 hbody with rfl | hbody
    · exact parallelAccumulate_adds
    · obtain rfl := List.mem_singleton.1 hbody
      exact parallelAccu_adds
  have hinv := run_inv hrun
  refine ⟨?_, returned_or_exists_step hrun, ?_, ?_⟩
  · obtain ⟨wait, -, hphases⟩ := hadds.phases_eq
    have hlen := run_length_le hrun
    rw [hphases] at hlen
    simp only [List.length_cons, List.length_nil] at hlen
    omega
  · intro w hmem
    obtain ⟨i, hi, rfl⟩ := List.getElem_of_mem hmem
    have hblk := hinv.block_eq (List.getElem?_eq_getElem hi)
    have hlt := block_nonempty (lt_of_lt_of_le hi hinv.length_le)
    rwa [← hblk] at hlt
  · intro r hret
    have hmain := hinv.main_ok
    rw [hret] at hmain
    obtain ⟨hlen, -, htotal⟩ := hmain
    exact ⟨hinv.covers hlen, htotal.trans (hadds.total hw xs init)⟩

end Accumulate

/-- Elements that do not commute, for two threads. -/
def letters : List (FreeAddMonoid Nat) := (List.range 26).map FreeAddMonoid.of

/-- The calling thread is done with the second half before the other thread begins with the first. -/
def secondHalfFirst : List Event :=
  [.main, .main] ++ List.replicate 15 (.worker 1) ++ [.main] ++ List.replicate 15 (.worker 0) ++
    List.replicate 6 .main

theorem parallel_accumulate_accu_correct_letters :
    ∃ s : State (FreeAddMonoid Nat),
      Run (step parallelAccu 0 letters (FreeAddMonoid.of 99))
          (start letters (FreeAddMonoid.of 99)) secondHalfFirst s ∧
        s.main = .returned (FreeAddMonoid.ofList (99 :: List.range 26)) ∧
        (s.workers.map fun w => (w.first, w.en)).flatMap positions = List.range 26 := by
  have hmain : (exec (step parallelAccu 0 letters (FreeAddMonoid.of 99))
      (start letters (FreeAddMonoid.of 99)) secondHalfFirst).map (·.main) =
        some (.returned (FreeAddMonoid.ofList (99 :: List.range 26))) := by
    rfl
  obtain ⟨s, hexec, hret⟩ := Option.map_eq_some_iff.1 hmain
  have hrun := run_of_exec hexec
  obtain ⟨-, -, -, hresult⟩ :=
    parallel_accumulate_accu_correct 0 letters (FreeAddMonoid.of 99) (by simp) hrun
  exact ⟨s, hrun, hret, (hresult _ hret).1⟩

end ParallelBlocks

end CppConcurrency
end MyCppCode
