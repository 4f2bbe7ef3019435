import MyCppCode.CppConcurrency.ParallelFind
import Mathlib.Data.List.Flatten
import Mathlib.Data.List.Perm.Subperm

/-!
# ParallelBlocks — threads that each go through one block of a range

`parallel_accumulate`, `parallel_accu` and `parallel_for_each` cut the range as `parallel_find` does: one
block for each thread, the last one, with what the division left over, for the calling thread.  They
differ in what a call does with an element, in what it starts from, and in what the calling thread does
once its own call has returned: it joins the threads, gets their futures and reads their results, in its
own order.  A `Body` says this; the rest is common to the three.

The steps of a call are the visits of its elements, the store of its result (into `results[i]`, or into
the future) and its return.  The event says which thread makes the next step, so a run is an
interleaving.  The log has the positions visited, in the order of time.  Sizes are `size_t` or a 64-bit
`unsigned long`, which hold the distance of any two iterators with room for the rounding.
-/

namespace MyCppCode
namespace CppConcurrency

open Foundation
open ParallelFind (numTh blkSz mxTh minPerTh block positions numTh_pos numTh_zero succ_mul_blkSz_le
  block_of_lt block_of_last block_le flatMap_positions_blocks)

universe u v

namespace ParallelBlocks

/-! ## Calls -/

inductive WorkerPc
  | running
  | stored
  | finished
  deriving DecidableEq, Repr

/-- A call on the block from `first` to `en`, with what it has accumulated up to `st` and the place for
its result. -/
structure Worker (β : Type v) where
  first : Nat
  st : Nat
  en : Nat
  acc : β
  result : β
  pc : WorkerPc
  deriving DecidableEq, Repr

/-- What the calling thread does with a call in one of its loops. -/
inductive Wait
  | join
  | get
  | read
  deriving DecidableEq, Repr

/-- `join` waits for the end of the thread and `get` for the result; the element of `results` is read
as it is. -/
def Wait.ready : Wait → WorkerPc → Bool
  | .join, pc => pc == .finished
  | .get, pc => pc != .running
  | .read, _ => true

/-- A loop of the calling thread over the calls, up to its own one or including it. -/
structure Phase where
  wait : Wait
  own : Bool
  deriving DecidableEq, Repr

def Phase.count (p : Phase) (n : Nat) : Nat := if p.own then n else n - 1

/-- What the three functions differ in.  The results are not read before a first loop has waited for
them. -/
structure Body (α : Type u) (β : Type v) where
  seed : β
  apply : β → α → β
  combine : β → β → β
  phases : List Phase
  waits : ∃ p ps, phases = p :: ps ∧ p.wait ≠ .read

/-- The program points of the calling thread. -/
inductive MainPc (β : Type v)
  | spawning (i st : Nat)
  | running
  | waiting (phases : List Phase) (i : Nat) (result : β)
  | returned (result : β)
  deriving DecidableEq, Repr

structure State (β : Type v) where
  workers : List (Worker β)
  log : List Nat
  main : MainPc β
  deriving DecidableEq, Repr

/-- Who makes the next step: the calling thread, or the `i`-th call. -/
inductive Event
  | main
  | worker (i : Nat)
  deriving DecidableEq, Repr

/-! ## Steps -/

section Model

variable {α : Type u} {β : Type v} (body : Body α β) (hw : Nat) (xs : List α) (init : β)

/-- A call that has just been entered. -/
def Body.enter (first en : Nat) : Worker β :=
  { first := first
    st := first
    en := en
    acc := body.seed
    result := body.seed
    pc := .running }

/-- One step of a call: the call afterwards, and the positions visited. -/
def workerStep (w : Worker β) : Option (Worker β × List Nat) :=
  match w.pc with
  | .running =>
      if w.st ≠ w.en then
        match xs[w.st]? with
        | some x => some ({ w with st := w.st + 1, acc := body.apply w.acc x }, [w.st])
        | none => none
      else some ({ w with result := w.acc, pc := .stored }, [])
  | .stored => some ({ w with pc := .finished }, [])
  | .finished => none

/-- What a loop of the calling thread makes of the result of one call. -/
def Body.take (p : Phase) (r result : β) : β :=
  match p.wait with
  | .join => r
  | .get | .read => body.combine r result

/-- One step of the calling thread outside its own call, which is the last of the workers. -/
def mainStep (s : State β) : Option (State β) :=
  match s.main with
  | .spawning i st =>
      if i < numTh hw xs.length - 1 then
        let en := st + blkSz hw xs.length
        some { s with workers := s.workers ++ [body.enter st en], main := .spawning (i + 1) en }
      else
        some { s with workers := s.workers ++ [body.enter st xs.length], main := .running }
  | .running =>
      match s.workers[numTh hw xs.length - 1]? with
      | some w =>
          if w.pc = .finished then some { s with main := .waiting body.phases 0 init } else none
      | none => none
  | .waiting [] _ r => some { s with main := .returned r }
  | .waiting (p :: ps) i r =>
      if i < p.count (numTh hw xs.length) then
        match s.workers[i]? with
        | some w =>
            if p.wait.ready w.pc then
              some { s with main := .waiting (p :: ps) (i + 1) (body.take p r w.result) }
            else none
        | none => none
      else some { s with main := .waiting ps 0 r }
  | .returned _ => none

def step (s : State β) : Event → Option (State β)
  | .main => mainStep body hw xs init s
  | .worker i =>
      match s.workers[i]? with
      | some w =>
          match workerStep body xs w with
          | some (w', visited) =>
              some { s with workers := s.workers.set i w', log := s.log ++ visited }
          | none => none
      | none => none

/-- The call of one of the functions: an empty range is answered at once. -/
def start : State β :=
  { workers := []
    log := []
    main := if xs.length = 0 then .returned init else .spawning 0 0 }

end Model

/-! ## What a step can do -/

section Inversion

variable {α : Type u} {β : Type v} {body : Body α β} {hw : Nat} {xs : List α} {init : β}

/-- The moves of a call. -/
inductive WorkerMoves (body : Body α β) (xs : List α) (w : Worker β) :
    Worker β → List Nat → Prop where
  | visit {x : α} : w.pc = .running → w.st ≠ w.en → xs[w.st]? = some x →
      WorkerMoves body xs w { w with st := w.st + 1, acc := body.apply w.acc x } [w.st]
  | store : w.pc = .running → w.st = w.en →
      WorkerMoves body xs w { w with result := w.acc, pc := .stored } []
  | finish : w.pc = .stored → WorkerMoves body xs w { w with pc := .finished } []

theorem workerStep_moves {w w' : Worker β} {visited : List Nat}
    (h : workerStep body xs w = some (w', visited)) : WorkerMoves body xs w w' visited := by
  unfold workerStep at h
  split at h
  · rename_i hpc
    split at h
    · rename_i hne
      split at h
      · rename_i x hx
        cases h
        exact .visit hpc hne hx
      · cases h
    · rename_i heq
      cases h
      exact .store hpc (not_not.1 heq)
  · rename_i hpc
    cases h
    exact .finish hpc
  · cases h

/-- The moves of the calling thread. -/
inductive MainMoves (body : Body α β) (hw : Nat) (xs : List α) (init : β) (s : State β) :
    State β → Prop where
  | spawn {i st : Nat} : s.main = .spawning i st → i < numTh hw xs.length - 1 →
      MainMoves body hw xs init s { s with
        workers := s.workers ++ [body.enter st (st + blkSz hw xs.length)]
        main := .spawning (i + 1) (st + blkSz hw xs.length) }
  | call {i st : Nat} : s.main = .spawning i st → ¬ i < numTh hw xs.length - 1 →
      MainMoves body hw xs init s { s with
        workers := s.workers ++ [body.enter st xs.length]
        main := .running }
  | called {w : Worker β} : s.main = .running → s.workers[numTh hw xs.length - 1]? = some w →
      w.pc = .finished →
      MainMoves body hw xs init s { s with main := .waiting body.phases 0 init }
  | pass {p : Phase} {ps : List Phase} {i : Nat} {r : β} {w : Worker β} :
      s.main = .waiting (p :: ps) i r → i < p.count (numTh hw xs.length) →
      s.workers[i]? = some w → p.wait.ready w.pc = true →
      MainMoves body hw xs init s { s with
        main := .waiting (p :: ps) (i + 1) (body.take p r w.result) }
  | next {p : Phase} {ps : List Phase} {i : Nat} {r : β} :
      s.main = .waiting (p :: ps) i r → ¬ i < p.count (numTh hw xs.length) →
      MainMoves body hw xs init s { s with main := .waiting ps 0 r }
  | ret {i : Nat} {r : β} : s.main = .waiting [] i r →
      MainMoves body hw xs init s { s with main := .returned r }

theorem mainStep_moves {s t : State β} (h : mainStep body hw xs init s = some t) :
    MainMoves body hw xs init s t := by
  unfold mainStep at h
  cases hmain : s.main with
  | spawning i st =>
      simp only [hmain] at h
      split at h
      · rename_i hlt
        cases h
        exact .spawn hmain hlt
      · rename_i hge
        cases h
        exact .call hmain hge
  | running =>
      simp only [hmain] at h
      split at h
      · rename_i w hget
        split at h
        · rename_i hpc
          cases h
          exact .called hmain hget hpc
        · cases h
      · cases h
  | waiting ps i r =>
      cases ps with
      | nil =>
          simp only [hmain] at h
          cases h
          exact .ret hmain
      | cons p ps =>
          simp only [hmain] at h
          split at h
          · rename_i hlt
            split at h
            · rename_i w hget
              split at h
              · rename_i hready
                cases h
                exact .pass hmain hlt hget hready
              · cases h
            · cases h
          · rename_i hge
            cases h
            exact .next hmain hge
  | returned r =>
      simp only [hmain] at h
      cases h

/-- A step of a call, and what it leaves alone. -/
theorem step_worker {s t : State β} {i : Nat} (h : step body hw xs init s (.worker i) = some t) :
    ∃ w w' visited, s.workers[i]? = some w ∧ WorkerMoves body xs w w' visited ∧
      t = { s with workers := s.workers.set i w', log := s.log ++ visited } := by
  simp only [step] at h
  split at h
  · rename_i w hget
    split at h
    · rename_i w' visited hstep
      cases h
      exact ⟨w, w', visited, hget, workerStep_moves hstep, rfl⟩
    · cases h
  · cases h

end Inversion

/-! ## The invariant of a call -/

theorem positions_self (i : Nat) : positions (i, i) = [] := by
  simp [positions]

theorem positions_one (i : Nat) : positions (i, i + 1) = [i] := by
  simp [positions]

theorem positions_append {lo md hi : Nat} (h₁ : lo ≤ md) (h₂ : md ≤ hi) :
    positions (lo, hi) = positions (lo, md) ++ positions (md, hi) := by
  have hmd : lo + (md - lo) = md := by omega
  have hlen : hi - lo = (md - lo) + (hi - md) := by omega
  simp only [positions]
  rw [hlen, ← List.range'_append_1, hmd]

theorem positions_succ {first st : Nat} (h : first ≤ st) :
    positions (first, st + 1) = positions (first, st) ++ [st] := by
  rw [positions_append h (Nat.le_succ st), positions_one]

/-- The elements at these positions. -/
def elements {α : Type u} (xs : List α) (is : List Nat) : List α :=
  is.filterMap (xs[·]?)

theorem elements_range {α : Type u} (xs : List α) (k : Nat) :
    elements xs (List.range k) = xs.take k := by
  induction k with
  | zero =>
      rfl
  | succ k ih =>
      have hlast : elements xs [k] = xs[k]?.toList := by
        cases hk : xs[k]? <;> simp [elements, hk]
      rw [List.range_succ, elements, List.filterMap_append, List.take_add_one, ← hlast, ← ih]
      rfl

/-- The elements of the blocks, one block after the other, are the sequence. -/
theorem flatten_elements_blocks {α : Type u} (hw : Nat) (xs : List α) :
    ((List.range (numTh hw xs.length)).map fun i =>
      elements xs (positions (block hw xs.length i))).flatten = xs := by
  have hblocks := flatMap_positions_blocks hw xs.length
  calc
    ((List.range (numTh hw xs.length)).map fun i =>
          elements xs (positions (block hw xs.length i))).flatten
        = elements xs
            (((List.range (numTh hw xs.length)).map (block hw xs.length)).flatMap positions) := by
          rw [elements, List.filterMap_flatMap, List.flatMap_map, List.flatMap_def]
          rfl
    _ = xs := by rw [hblocks, elements_range, List.take_length]

section Invariant

variable {α : Type u} {β : Type v} {body : Body α β} {hw : Nat} {xs : List α} {init : β}
  {w w' : Worker β} {is : List Nat} {s t : State β}

/-- What a call on this block is to compute. -/
def Body.blockResult (body : Body α β) (xs : List α) (blk : Nat × Nat) : β :=
  (elements xs (positions blk)).foldl body.apply body.seed

/-- The positions that a call has visited. -/
def Worker.visited (w : Worker β) : List Nat := positions (w.first, w.st)

structure WorkerOk (body : Body α β) (xs : List α) (w : Worker β) : Prop where
  first_le : w.first ≤ w.st
  st_le : w.st ≤ w.en
  en_le : w.en ≤ xs.length
  acc_eq : w.acc = body.blockResult xs (w.first, w.st)
  stored : w.pc ≠ .running → w.st = w.en ∧ w.result = w.acc

/-- A block of the range that has just been entered. -/
theorem enter_ok {first en : Nat} (h₁ : first ≤ en) (h₂ : en ≤ xs.length) :
    WorkerOk body xs (body.enter first en) := by
  refine ⟨le_refl _, h₁, h₂, ?_, fun hpc => absurd rfl hpc⟩
  simp [Body.enter, Body.blockResult, positions_self, elements]

theorem WorkerMoves.ok (h : WorkerMoves body xs w w' is) (hok : WorkerOk body xs w) :
    WorkerOk body xs w' := by
  obtain ⟨h₁, h₂, h₃, hacc, hstored⟩ := hok
  cases h with
  | visit hpc hne hx =>
      refine ⟨Nat.le_succ_of_le h₁, Nat.lt_of_le_of_ne h₂ hne, h₃, ?_, fun hpc' => absurd hpc hpc'⟩
      -- the fold over one position more
      simp only [Body.blockResult, positions_succ h₁, elements, List.filterMap_append,
        List.foldl_append] at hacc ⊢
      simp [hacc, hx]
  | store hpc heq =>
      exact ⟨h₁, h₂, h₃, hacc, fun _ => ⟨heq, rfl⟩⟩
  | finish hpc =>
      exact ⟨h₁, h₂, h₃, hacc, fun _ => hstored (by simp [hpc])⟩

theorem WorkerMoves.block_eq (h : WorkerMoves body xs w w' is) :
    (w'.first, w'.en) = (w.first, w.en) := by
  cases h <;> rfl

/-- A result that is stored stays stored. -/
theorem WorkerMoves.stored (h : WorkerMoves body xs w w' is) (hpc : w.pc ≠ .running) :
    w'.pc ≠ .running := by
  cases h with
  | visit hrun => exact absurd hrun hpc
  | store => simp
  | finish => simp

theorem WorkerMoves.visited_eq (h : WorkerMoves body xs w w' is) (hok : WorkerOk body xs w) :
    w'.visited = w.visited ++ is := by
  cases h with
  | visit _ _ _ => exact positions_succ hok.first_le
  | store _ _ => simp [Worker.visited]
  | finish _ => simp [Worker.visited]

theorem WorkerOk.result_eq (hok : WorkerOk body xs w) (hpc : w.pc ≠ .running) :
    w.result = body.blockResult xs (w.first, w.en) := by
  obtain ⟨hend, hres⟩ := hok.stored hpc
  rw [hres, hok.acc_eq, hend]

theorem exists_workerStep (hok : WorkerOk body xs w) (hpc : w.pc ≠ .finished) :
    ∃ r, workerStep body xs w = some r := by
  cases hw : w.pc with
  | running =>
      by_cases hend : w.st = w.en
      · exact ⟨_, by simp only [workerStep, hw, if_neg (not_not.2 hend)]; rfl⟩
      · have hlt : w.st < xs.length := by
          have := hok.st_le
          have := hok.en_le
          omega
        exact ⟨_, by simp only [workerStep, hw, if_pos hend, List.getElem?_eq_getElem hlt]; rfl⟩
  | stored => exact ⟨_, by simp only [workerStep, hw]; rfl⟩
  | finished => exact absurd hw hpc

/-! ## The invariant -/

/-- The `i`-th call has stored its result. -/
def Stored (s : State β) (i : Nat) : Prop :=
  ∃ w ∈ s.workers[i]?, w.pc ≠ .running

/-- What the calls are to compute, in the order of the blocks. -/
def Body.results (body : Body α β) (hw : Nat) (xs : List α) : List β :=
  (List.range (numTh hw xs.length)).map fun i => body.blockResult xs (block hw xs.length i)

/-- What the calling thread returns if it goes on from the `i`-th call of these loops with `r`. -/
def Body.total (body : Body α β) (hw : Nat) (xs : List α) : List Phase → Nat → β → β
  | [], _, r => r
  | p :: ps, i, r =>
      let rest := ((body.results hw xs).take (p.count (numTh hw xs.length))).drop i
      body.total hw xs ps 0 (rest.foldl (body.take p) r)

/-- What is known at each program point of the calling thread. -/
def MainPc.Sound (body : Body α β) (hw : Nat) (xs : List α) (init : β) (s : State β) :
    MainPc β → Prop
  | .spawning i st =>
      xs.length ≠ 0 ∧ s.workers.length = i ∧ i < numTh hw xs.length ∧ st = i * blkSz hw xs.length
  | .running => xs.length ≠ 0 ∧ s.workers.length = numTh hw xs.length
  | .waiting ps i r =>
      xs.length ≠ 0 ∧ s.workers.length = numTh hw xs.length ∧
        -- the first loop is on its way, or it has waited for all
        ((ps = body.phases ∧ Stored s (numTh hw xs.length - 1) ∧ ∀ j < i, Stored s j) ∨
          ∀ j < numTh hw xs.length, Stored s j) ∧
        body.total hw xs ps i r = body.total hw xs body.phases 0 init
  | .returned r =>
      s.workers.length = numTh hw xs.length ∧ (∀ j < numTh hw xs.length, Stored s j) ∧
        r = body.total hw xs body.phases 0 init

structure Inv (body : Body α β) (hw : Nat) (xs : List α) (init : β) (s : State β) : Prop where
  workers_ok : ∀ w ∈ s.workers, WorkerOk body xs w
  blocks : s.workers.map (fun w => (w.first, w.en)) =
    (List.range s.workers.length).map (block hw xs.length)
  log_count : ∀ p, s.log.count p = (s.workers.map fun w => w.visited.count p).sum
  main_ok : s.main.Sound body hw xs init s

theorem total_of_nil (hxs : xs.length = 0) (ps : List Phase) (i : Nat) (r : β) :
    body.total hw xs ps i r = r := by
  induction ps generalizing i r with
  | nil =>
      rfl
  | cons p ps ih =>
      have hnil : body.results hw xs = [] := by
        simp [Body.results, hxs, numTh_zero]
      simp only [Body.total, hnil, List.take_nil, List.drop_nil, List.foldl_nil]
      exact ih 0 r

theorem start_inv (body : Body α β) (hw : Nat) (xs : List α) (init : β) :
    Inv body hw xs init (start xs init) := by
  refine ⟨by simp [start], by simp [start], by simp [start], ?_⟩
  by_cases hn : xs.length = 0
  · have hmain : (start xs init).main = .returned init := by simp only [start, if_pos hn]
    have hnum : numTh hw xs.length = 0 := by rw [hn, numTh_zero]
    rw [hmain]
    refine ⟨hnum.symm, fun j hj => ?_, (total_of_nil hn _ _ _).symm⟩
    rw [hnum] at hj
    exact absurd hj (Nat.not_lt_zero j)
  · have hmain : (start xs init).main = .spawning 0 0 := by simp only [start, if_neg hn]
    rw [hmain]
    exact ⟨hn, rfl, numTh_pos hw hn, by simp⟩

/-- No more calls are made than there are blocks. -/
theorem Inv.length_le (h : Inv body hw xs init s) : s.workers.length ≤ numTh hw xs.length := by
  have hmain := h.main_ok
  cases hpc : s.main with
  | spawning i st =>
      rw [hpc] at hmain
      obtain ⟨-, hlen, hi, -⟩ := hmain
      omega
  | running =>
      rw [hpc] at hmain
      exact le_of_eq hmain.2
  | waiting ps i r =>
      rw [hpc] at hmain
      exact le_of_eq hmain.2.1
  | returned r =>
      rw [hpc] at hmain
      exact le_of_eq hmain.1

/-- The block of the `i`-th call. -/
theorem Inv.block_eq (h : Inv body hw xs init s) {i : Nat} (hget : s.workers[i]? = some w) :
    (w.first, w.en) = block hw xs.length i := by
  have hi : i < s.workers.length := (List.getElem?_eq_some_iff.1 hget).1
  have hmap := congrArg (fun l : List (Nat × Nat) => l[i]?) h.blocks
  simp only [List.getElem?_map, hget, List.getElem?_range hi, Option.map_some] at hmap
  exact Option.some.inj hmap

/-- The result of a call that has stored it is the one of its block. -/
theorem Inv.result_eq (h : Inv body hw xs init s) {i : Nat} (hget : s.workers[i]? = some w)
    (hi : i < numTh hw xs.length) (hpc : w.pc ≠ .running) :
    (body.results hw xs)[i]? = some w.result := by
  have hok := h.workers_ok w (List.mem_of_getElem? hget)
  rw [hok.result_eq hpc, h.block_eq hget]
  simp [Body.results, hi]

/-! ## Steps of the calls -/

theorem stored_set {i j : Nat} (hget : s.workers[i]? = some w)
    (hpc : w.pc ≠ .running → w'.pc ≠ .running) (h : Stored s j) :
    Stored { s with workers := s.workers.set i w', log := s.log ++ is } j := by
  obtain ⟨v, hv, hvpc⟩ := h
  have hi : i < s.workers.length := (List.getElem?_eq_some_iff.1 hget).1
  by_cases hij : i = j
  · subst hij
    cases hget.symm.trans hv
    exact ⟨w', by simp [hi], hpc hvpc⟩
  · exact ⟨v, by simpa [List.getElem?_set_ne hij] using hv, hvpc⟩

theorem Sound_of_stored (hlen : t.workers.length = s.workers.length)
    (hkeep : ∀ j, Stored s j → Stored t j) {pc : MainPc β} (h : pc.Sound body hw xs init s) :
    pc.Sound body hw xs init t := by
  cases pc with
  | spawning i st =>
      obtain ⟨hn, hl, hi, hst⟩ := h
      exact ⟨hn, hlen.trans hl, hi, hst⟩
  | running =>
      exact ⟨h.1, hlen.trans h.2⟩
  | waiting ps i r =>
      obtain ⟨hn, hl, hwait, htotal⟩ := h
      refine ⟨hn, hlen.trans hl, ?_, htotal⟩
      rcases hwait with ⟨hps, hown, hj⟩ | hall
      · exact Or.inl ⟨hps, hkeep _ hown, fun j hlt => hkeep j (hj j hlt)⟩
      · exact Or.inr fun j hlt => hkeep j (hall j hlt)
  | returned r =>
      obtain ⟨hl, hall, htotal⟩ := h
      exact ⟨hlen.trans hl, fun j hlt => hkeep j (hall j hlt), htotal⟩

theorem worker_inv {i : Nat} (h : Inv body hw xs init s) (hget : s.workers[i]? = some w)
    (hmoves : WorkerMoves body xs w w' is) :
    Inv body hw xs init { s with workers := s.workers.set i w', log := s.log ++ is } := by
  have hok := h.workers_ok w (List.mem_of_getElem? hget)
  have hi : i < s.workers.length := (List.getElem?_eq_some_iff.1 hget).1
  refine ⟨?_, ?_, ?_, ?_⟩
  · intro v hv
    rcases List.mem_or_eq_of_mem_set hv with hv | rfl
    · exact h.workers_ok v hv
    · exact hmoves.ok hok
  · rw [List.length_set, map_set_eq (fun w : Worker β => (w.first, w.en)) hget hmoves.block_eq]
    exact h.blocks
  · intro p
    have hsum := sum_map_set (fun w : Worker β => w.visited.count p) w' hget
    have hvisited := hmoves.visited_eq hok
    simp only [hvisited, List.count_append] at hsum ⊢
    rw [h.log_count p]
    omega
  · exact Sound_of_stored (by simp) (fun j hj => stored_set hget hmoves.stored hj) h.main_ok

/-! ## Steps of the calling thread -/

theorem Inv.setMain (h : Inv body hw xs init s) {m : MainPc β} (hm : m.Sound body hw xs init s) :
    Inv body hw xs init { s with main := m } := by
  refine ⟨h.workers_ok, h.blocks, h.log_count, ?_⟩
  cases m <;> exact hm

theorem Inv.spawn (h : Inv body hw xs init s) {first en : Nat}
    (hblk : (first, en) = block hw xs.length s.workers.length)
    (hmore : s.workers.length < numTh hw xs.length) {m : MainPc β}
    (hm : m.Sound body hw xs init { s with workers := s.workers ++ [body.enter first en] }) :
    Inv body hw xs init { s with workers := s.workers ++ [body.enter first en], main := m } := by
  have hbounds := block_le hmore
  rw [← hblk] at hbounds
  refine ⟨?_, ?_, ?_, ?_⟩
  · intro w hmem
    rcases List.mem_append.1 hmem with hmem | hmem
    · exact h.workers_ok w hmem
    · obtain rfl := List.mem_singleton.1 hmem
      exact enter_ok hbounds.1 hbounds.2
  · rw [List.map_append, List.length_append, h.blocks, List.length_singleton, List.range_succ,
      List.map_append]
    simp only [List.map_cons, List.map_nil, Body.enter, hblk]
  · intro p
    have hnew : (body.enter first en).visited = [] := by
      simp [Body.enter, Worker.visited, positions_self]
    simp [h.log_count p, hnew]
  · cases m <;> exact hm

theorem Wait.ready_stored {wait : Wait} (hwait : wait ≠ .read) {pc : WorkerPc}
    (h : wait.ready pc = true) : pc ≠ .running := by
  cases wait with
  | join =>
      rintro rfl
      simp [Wait.ready] at h
  | get => simpa [Wait.ready] using h
  | read => exact absurd rfl hwait

theorem Phase.count_le (p : Phase) (n : Nat) : p.count n ≤ n := by
  unfold Phase.count
  split <;> omega

theorem Phase.le_count (p : Phase) (n : Nat) : n - 1 ≤ p.count n := by
  unfold Phase.count
  split <;> omega

/-- A loop takes the result of the `i`-th call and goes on. -/
theorem total_pass {p : Phase} {ps : List Phase} {i : Nat} {r result : β}
    (hi : i < p.count (numTh hw xs.length)) (hres : (body.results hw xs)[i]? = some result) :
    body.total hw xs (p :: ps) (i + 1) (body.take p r result) =
      body.total hw xs (p :: ps) i r := by
  have hget : ((body.results hw xs).take (p.count (numTh hw xs.length)))[i]? = some result := by
    rw [List.getElem?_take_of_lt hi, hres]
  obtain ⟨hlt, hval⟩ := List.getElem?_eq_some_iff.1 hget
  simp only [Body.total]
  rw [List.drop_eq_getElem_cons hlt, List.foldl_cons, hval]

/-- A loop that has come to its end is over. -/
theorem total_next {p : Phase} {ps : List Phase} {i : Nat} {r : β}
    (hi : ¬ i < p.count (numTh hw xs.length)) :
    body.total hw xs (p :: ps) i r = body.total hw xs ps 0 r := by
  have hnil : ((body.results hw xs).take (p.count (numTh hw xs.length))).drop i = [] := by
    apply List.drop_eq_nil_of_le
    rw [List.length_take]
    omega
  simp only [Body.total, hnil, List.foldl_nil]

/-- A loop takes a result only when it is there: it waited for it, or an earlier loop did. -/
theorem stored_of_ready {p : Phase} {ps : List Phase} {i : Nat}
    (hwait : (p :: ps = body.phases ∧ Stored s (numTh hw xs.length - 1) ∧ ∀ j < i, Stored s j) ∨
      ∀ j < numTh hw xs.length, Stored s j)
    (hi : i < numTh hw xs.length) (hget : s.workers[i]? = some w)
    (hready : p.wait.ready w.pc = true) : w.pc ≠ .running := by
  rcases hwait with ⟨hps, -, -⟩ | hall
  · obtain ⟨q, qs, hphases, hq⟩ := body.waits
    obtain ⟨rfl, -⟩ : p = q ∧ ps = qs := by simpa using hps.trans hphases
    exact Wait.ready_stored hq hready
  · obtain ⟨v, hv, hvpc⟩ := hall i hi
    cases hget.symm.trans hv
    exact hvpc

/-- At the end of a loop, the calls passed and the calling thread's own one are all there are. -/
theorem all_stored {n i : Nat} (p : Phase) (hend : ¬ i < p.count n) (hown : Stored s (n - 1))
    (hpassed : ∀ j < i, Stored s j) : ∀ j < n, Stored s j := by
  intro j hj
  have hcount := p.le_count n
  rcases Nat.lt_or_ge j i with hji | hji
  · exact hpassed j hji
  · have heq : j = n - 1 := by omega
    rw [heq]
    exact hown

theorem main_inv (h : Inv body hw xs init s) (hmoves : MainMoves body hw xs init s t) :
    Inv body hw xs init t := by
  have hmain := h.main_ok
  cases hmoves with
  | @spawn i st hpc hmore =>
      rw [hpc] at hmain
      obtain ⟨hn, hlen, hi, rfl⟩ := hmain
      have hblk : (i * blkSz hw xs.length, i * blkSz hw xs.length + blkSz hw xs.length) =
          block hw xs.length s.workers.length := by
        rw [hlen]
        exact block_of_lt hmore
      refine h.spawn hblk (by omega) ⟨hn, ?_, by omega, (Nat.succ_mul _ _).symm⟩
      simp [hlen]
  | @call i st hpc hlast =>
      rw [hpc] at hmain
      obtain ⟨hn, hlen, hi, rfl⟩ := hmain
      have hblk : (i * blkSz hw xs.length, xs.length) = block hw xs.length s.workers.length := by
        rw [hlen]
        exact block_of_last hlast
      refine h.spawn hblk (by omega) ⟨hn, ?_⟩
      simp only [List.length_append, List.length_singleton, hlen]
      omega
  | @called w hpc hget hfin =>
      rw [hpc] at hmain
      obtain ⟨hn, hlen⟩ := hmain
      have hown : Stored s (numTh hw xs.length - 1) := ⟨w, hget, by simp [hfin]⟩
      exact h.setMain
        ⟨hn, hlen, Or.inl ⟨rfl, hown, fun j hj => absurd hj (Nat.not_lt_zero j)⟩, rfl⟩
  | @pass p ps i r w hpc hmore hget hready =>
      rw [hpc] at hmain
      obtain ⟨hn, hlen, hwait, htotal⟩ := hmain
      have hi : i < numTh hw xs.length := lt_of_lt_of_le hmore (p.count_le _)
      have hstored := stored_of_ready hwait hi hget hready
      refine h.setMain ⟨hn, hlen, ?_, ?_⟩
      · rcases hwait with ⟨hps, hown, hpassed⟩ | hall
        · refine Or.inl ⟨hps, hown, ?_⟩
          intro j hj
          rcases Nat.lt_succ_iff_lt_or_eq.1 hj with hj | rfl
          · exact hpassed j hj
          · exact ⟨w, hget, hstored⟩
        · exact Or.inr hall
      · rw [total_pass hmore (h.result_eq hget hi hstored)]
        exact htotal
  | @next p ps i r hpc hend =>
      rw [hpc] at hmain
      obtain ⟨hn, hlen, hwait, htotal⟩ := hmain
      refine h.setMain ⟨hn, hlen, Or.inr ?_, (total_next hend).symm.trans htotal⟩
      rcases hwait with ⟨-, hown, hpassed⟩ | hall
      · exact all_stored p hend hown hpassed
      · exact hall
  | @ret i r hpc =>
      rw [hpc] at hmain
      obtain ⟨hn, hlen, hwait, htotal⟩ := hmain
      refine h.setMain ⟨hlen, ?_, htotal⟩
      rcases hwait with ⟨hps, -, -⟩ | hall
      · obtain ⟨q, qs, hphases, -⟩ := body.waits
        rw [hphases] at hps
        cases hps
      · exact hall

theorem step_inv {e : Event} (h : Inv body hw xs init s)
    (hstep : step body hw xs init s e = some t) : Inv body hw xs init t := by
  cases e with
  | main => exact main_inv h (mainStep_moves hstep)
  | worker i =>
      obtain ⟨w, w', visited, hget, hmoves, rfl⟩ := step_worker hstep
      exact worker_inv h hget hmoves

/-! ## The number of steps -/

/-- The number of steps that are left to a call. -/
def Worker.rank (w : Worker β) : Nat :=
  match w.pc with
  | .running => w.en - w.st + 2
  | .stored => 1
  | .finished => 0

/-- The number of steps that are left to the loops of the calling thread. -/
def phasesRank (n : Nat) : List Phase → Nat → Nat
  | [], _ => 1
  | p :: ps, i => p.count n - i + 1 + phasesRank n ps 0

/-- The number of steps that are left to the calling thread and to the calls it has still to make. -/
def MainPc.rank (body : Body α β) (hw sz : Nat) : MainPc β → Nat
  | .spawning i st => sz - st + 3 * (numTh hw sz - i) + 1 + phasesRank (numTh hw sz) body.phases 0
  | .running => 1 + phasesRank (numTh hw sz) body.phases 0
  | .waiting ps i _ => phasesRank (numTh hw sz) ps i
  | .returned _ => 0

def State.rank (body : Body α β) (hw : Nat) (xs : List α) (s : State β) : Nat :=
  (s.workers.map Worker.rank).sum + s.main.rank body hw xs.length

theorem WorkerMoves.rank_lt (h : WorkerMoves body xs w w' is) (hok : WorkerOk body xs w) :
    w'.rank < w.rank := by
  cases h with
  | visit hpc hne _ =>
      have hle := hok.st_le
      simp only [Worker.rank, hpc]
      omega
  | store hpc _ =>
      simp only [Worker.rank, hpc]
      omega
  | finish hpc =>
      simp only [Worker.rank, hpc]
      omega

theorem main_rank_lt (h : Inv body hw xs init s) (hmoves : MainMoves body hw xs init s t) :
    t.rank body hw xs < s.rank body hw xs := by
  have hmain := h.main_ok
  cases hmoves with
  | @spawn i st hpc hmore =>
      rw [hpc] at hmain
      obtain ⟨hn, hlen, hi, rfl⟩ := hmain
      have hupto := succ_mul_blkSz_le hi
      simp only [State.rank, MainPc.rank, hpc, List.map_append, List.sum_append, List.map_cons,
        List.map_nil, List.sum_cons, List.sum_nil, Body.enter, Worker.rank]
      omega
  | @call i st hpc hlast =>
      rw [hpc] at hmain
      obtain ⟨hn, hlen, hi, rfl⟩ := hmain
      simp only [State.rank, MainPc.rank, hpc, List.map_append, List.sum_append, List.map_cons,
        List.map_nil, List.sum_cons, List.sum_nil, Body.enter, Worker.rank]
      omega
  | @called w hpc _ _ =>
      simp only [State.rank, MainPc.rank, hpc]
      omega
  | @pass p ps i r w hpc hmore _ _ =>
      simp only [State.rank, MainPc.rank, hpc, phasesRank]
      omega
  | @next p ps i r hpc _ =>
      simp only [State.rank, MainPc.rank, hpc, phasesRank]
      omega
  | @ret i r hpc =>
      simp only [State.rank, MainPc.rank, hpc, phasesRank]
      omega

theorem step_rank_lt {e : Event} (h : Inv body hw xs init s)
    (hstep : step body hw xs init s e = some t) : t.rank body hw xs < s.rank body hw xs := by
  cases e with
  | main => exact main_rank_lt h (mainStep_moves hstep)
  | worker i =>
      obtain ⟨w, w', visited, hget, hmoves, rfl⟩ := step_worker hstep
      have hlt := hmoves.rank_lt (h.workers_ok w (List.mem_of_getElem? hget))
      have hsum := sum_map_set Worker.rank w' hget
      simp only [State.rank]
      omega

/-! ## No thread waits for ever -/

theorem exists_step_worker (h : Inv body hw xs init s) {i : Nat} (hget : s.workers[i]? = some w)
    (hpc : w.pc ≠ .finished) : ∃ t, step body hw xs init s (.worker i) = some t := by
  obtain ⟨⟨w', visited⟩, hstep⟩ :=
    exists_workerStep (h.workers_ok w (List.mem_of_getElem? hget)) hpc
  exact ⟨_, by simp only [step, hget, hstep]; rfl⟩

/-- A call that is finished keeps no one waiting. -/
theorem Wait.ready_finished (wait : Wait) : wait.ready .finished = true := by
  cases wait <;> rfl

/-- As long as the calling thread has not returned, it can go on, or the call that it waits for can. -/
theorem exists_step (h : Inv body hw xs init s) (hnot : ∀ r, s.main ≠ .returned r) :
    ∃ e t, step body hw xs init s e = some t := by
  have hmain := h.main_ok
  cases hpc : s.main with
  | spawning i st =>
      refine ⟨.main, ?_⟩
      simp only [step, mainStep, hpc]
      split <;> exact ⟨_, rfl⟩
  | running =>
      rw [hpc] at hmain
      obtain ⟨hn, hlen⟩ := hmain
      have hown : numTh hw xs.length - 1 < s.workers.length := by
        have hpos := numTh_pos hw hn
        omega
      have hget := List.getElem?_eq_getElem hown
      by_cases hfin : (s.workers[numTh hw xs.length - 1]).pc = .finished
      · exact ⟨.main, _, by simp only [step, mainStep, hpc, hget, if_pos hfin]; rfl⟩
      · exact ⟨_, exists_step_worker h hget hfin⟩
  | waiting ps i r =>
      rw [hpc] at hmain
      obtain ⟨hn, hlen, -, -⟩ := hmain
      cases ps with
      | nil => exact ⟨.main, _, by simp only [step, mainStep, hpc]; rfl⟩
      | cons p ps =>
          by_cases hmore : i < p.count (numTh hw xs.length)
          · have hi : i < s.workers.length := by
              have hcount := p.count_le (numTh hw xs.length)
              omega
            have hget := List.getElem?_eq_getElem hi
            by_cases hfin : (s.workers[i]).pc = .finished
            · have hready : p.wait.ready (s.workers[i]).pc = true := by
                rw [hfin]
                exact p.wait.ready_finished
              exact ⟨.main, _, by simp only [step, mainStep, hpc, if_pos hmore, hget, if_pos hready]; rfl⟩
            · exact ⟨_, exists_step_worker h hget hfin⟩
          · exact ⟨.main, _, by simp only [step, mainStep, hpc, if_neg hmore]; rfl⟩
  | returned r => exact absurd hpc (hnot r)

/-! ## Every run -/

/-- The blocks of the calls, one after the other, are the range. -/
theorem Inv.covers (h : Inv body hw xs init s) (hlen : s.workers.length = numTh hw xs.length) :
    (s.workers.map fun w => (w.first, w.en)).flatMap positions = List.range xs.length := by
  rw [h.blocks, hlen, flatMap_positions_blocks]

theorem Inv.log_perm (h : Inv body hw xs init s) : s.log.Perm (s.workers.flatMap Worker.visited) := by
  rw [List.perm_iff_count]
  intro p
  rw [h.log_count p, List.count_flatMap]
  rfl

/-- At no time has a position been visited twice, or one outside the range. -/
theorem Inv.log_subperm (h : Inv body hw xs init s) : s.log.Subperm (List.range xs.length) := by
  have hvisited : ∀ w ∈ s.workers, w.visited.Sublist (positions (w.first, w.en)) := by
    intro w hmem
    have hok := h.workers_ok w hmem
    rw [positions_append hok.first_le hok.st_le]
    exact List.sublist_append_left _ _
  have hblocks : ((s.workers.map fun w => (w.first, w.en)).flatMap positions).Sublist
      (List.range xs.length) := by
    rw [h.blocks, ← flatMap_positions_blocks hw xs.length]
    exact ((List.range_sublist.2 h.length_le).map _).flatMap _
  rw [List.flatMap_map] at hblocks
  exact h.log_perm.subperm.trans ((List.Sublist.flatMap_right _ hvisited).trans hblocks).subperm

/-- When the calling thread returns, every position has been visited once. -/
theorem Inv.returned_visited (h : Inv body hw xs init s) {r : β} (hret : s.main = .returned r) :
    s.log.Perm (List.range xs.length) := by
  have hmain := h.main_ok
  rw [hret] at hmain
  obtain ⟨hlen, hall, -⟩ := hmain
  -- every call is at the end of its block
  have hvisited : ∀ w ∈ s.workers, w.visited = positions (w.first, w.en) := by
    intro w hmem
    obtain ⟨i, hi, rfl⟩ := List.getElem_of_mem hmem
    obtain ⟨v, hv, hpc⟩ := hall i (by omega)
    cases (List.getElem?_eq_getElem hi).symm.trans hv
    simp only [Worker.visited, ((h.workers_ok _ hmem).stored hpc).1]
  have hcovers := h.covers hlen
  rw [List.flatMap_map, ← List.flatMap_congr hvisited] at hcovers
  rw [← hcovers]
  exact h.log_perm

theorem numTh_le (hw sz : Nat) : numTh hw sz ≤ sz := by
  have hmx : mxTh sz ≤ sz := by
    unfold mxTh minPerTh
    omega
  exact le_trans (Nat.min_le_right _ _) hmx

theorem phasesRank_le (n : Nat) (ps : List Phase) (i : Nat) :
    phasesRank n ps i ≤ ps.length * (n + 1) + 1 := by
  induction ps generalizing i with
  | nil =>
      simp [phasesRank]
  | cons p ps ih =>
      have hcount := p.count_le n
      have hrest := ih 0
      rw [phasesRank, List.length_cons, Nat.succ_mul]
      omega

/-- What every run of one of the three functions has, whatever the interleaving. -/
theorem run_inv {es : List Event} (hrun : Run (step body hw xs init) (start xs init) es s) :
    Inv body hw xs init s :=
  hrun.invariant (fun _ _ _ hs hstep => step_inv hs hstep) (start_inv body hw xs init)

theorem run_length_le {es : List Event}
    (hrun : Run (step body hw xs init) (start xs init) es s) :
    es.length ≤ 4 * xs.length + body.phases.length * (xs.length + 1) + 2 := by
  have hlen : es.length + s.rank body hw xs ≤ (start xs init).rank body hw xs :=
    hrun.length_add_le (fun _ _ _ hs hstep => ⟨step_inv hs hstep, step_rank_lt hs hstep⟩)
      (start_inv body hw xs init)
  have hnum := numTh_le hw xs.length
  have hphases := phasesRank_le (numTh hw xs.length) body.phases 0
  have hmul : body.phases.length * (numTh hw xs.length + 1) ≤
      body.phases.length * (xs.length + 1) := Nat.mul_le_mul_left _ (by omega)
  have hstart : (start xs init).rank body hw xs ≤
      xs.length + 3 * numTh hw xs.length + 1 + phasesRank (numTh hw xs.length) body.phases 0 := by
    simp only [State.rank, start, List.map_nil, List.sum_nil]
    split <;> simp only [MainPc.rank] <;> omega
  omega

theorem returned_or_exists_step {es : List Event}
    (hrun : Run (step body hw xs init) (start xs init) es s) :
    (∃ r, s.main = .returned r) ∨ ∃ e t, step body hw xs init s e = some t := by
  by_cases hret : ∃ r, s.main = .returned r
  · exact Or.inl hret
  · exact Or.inr (exists_step (run_inv hrun) fun r hr => hret ⟨r, hr⟩)

end Invariant

end ParallelBlocks

end CppConcurrency
end MyCppCode
