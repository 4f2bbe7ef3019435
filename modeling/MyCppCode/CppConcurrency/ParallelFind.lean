import MyCppCode.Foundation.TransitionSystem
import Mathlib.Data.List.Range
import Mathlib.Tactic.Ring

/-!
# ParallelFind — `parallel_find` over threads that share a promise and a flag

The range is cut into blocks, one for each thread; the calling thread takes the last one.  A thread
that finds the value satisfies the promise and then raises the flag; a thread that sees the flag stops.
An iterator is its distance from `fst`, and `lst` is the length of the sequence.

The steps of a thread are those that other threads can see: the test of the loop with its read of
`done`, the comparison, `set_value` or `set_exception`, and the store to `done`.  Which thread makes
the next step is the event, so a run is an interleaving.  The comparison is `==` of any type with one;
it does not throw.
-/

namespace MyCppCode
namespace CppConcurrency

open Foundation

universe u

/-! ## What is searched for -/

section Search

variable {α : Type u} [BEq α] {xs : List α} {value : α}

/-- The element at this position equals the value. -/
def Matches (xs : List α) (value : α) (i : Nat) : Prop :=
  ∃ x ∈ xs[i]?, (x == value) = true

theorem Matches.lt {i : Nat} (h : Matches xs value i) : i < xs.length := by
  obtain ⟨x, hx, -⟩ := h
  exact (List.getElem?_eq_some_iff.1 hx).1

/-- What a search is to return: the end of the range if nothing matches, and else a match. -/
def Correct (xs : List α) (value : α) (it : Nat) : Prop :=
  (it = xs.length ∧ ∀ i, ¬ Matches xs value i) ∨ Matches xs value it

theorem Correct.result {it : Nat} (h : Correct xs value it) :
    (it = xs.length ↔ ∀ x ∈ xs, (x == value) = false) ∧
      (it ≠ xs.length → Matches xs value it) := by
  rcases h with ⟨rfl, hnone⟩ | hmatch
  · refine ⟨⟨fun _ x hx => ?_, fun _ => rfl⟩, fun hne => absurd rfl hne⟩
    obtain ⟨i, hi, rfl⟩ := List.getElem_of_mem hx
    by_contra heq
    exact hnone i ⟨xs[i], List.getElem?_eq_getElem hi, by simpa using heq⟩
  · have hlt := hmatch.lt
    refine ⟨⟨fun heq => absurd heq (by omega), fun hall => ?_⟩, fun _ => hmatch⟩
    obtain ⟨x, hx, heq⟩ := hmatch
    rw [hall x (List.mem_of_getElem? hx)] at heq
    cases heq

end Search

namespace ParallelFind

/-! ## Threads -/

/-- What a satisfied promise holds. -/
inductive Outcome
  | value (it : Nat)
  | exception
  deriving DecidableEq, Repr

/-- The program points of `find_ele`. -/
inductive WorkerPc
  | test
  | compare
  | setValue
  | storeDone
  | setException
  | storeDoneCaught
  | returned
  | terminated
  deriving DecidableEq, Repr

/-- Where control goes when the statement there throws: to the outer `catch (...)`, to the inner one,
which is empty, or out of the thread. -/
def WorkerPc.handler : WorkerPc → WorkerPc
  | .test | .compare | .setValue | .storeDone => .setException
  | .setException | .storeDoneCaught => .returned
  | .returned | .terminated => .terminated

/-- A call of `find_ele` on the block from `first` to `en`. -/
structure Worker where
  first : Nat
  st : Nat
  en : Nat
  pc : WorkerPc
  deriving DecidableEq, Repr

/-- The program points of `parallel_find` itself. -/
inductive MainPc
  | spawning (i st : Nat)
  | searching
  | joining (i : Nat)
  | loadDone
  | getFuture
  | returned (it : Nat)
  | threw
  deriving DecidableEq, Repr

structure State where
  promise : Option Outcome
  done : Bool
  workers : List Worker
  main : MainPc
  deriving DecidableEq, Repr

/-- Who makes the next step: the calling thread, or the `i`-th call of `find_ele`. -/
inductive Event
  | main
  | worker (i : Nat)
  deriving DecidableEq, Repr

/-! ## Blocks -/

def minPerTh : Nat := 25

def mxTh (sz : Nat) : Nat := (sz + minPerTh - 1) / minPerTh

/-- The number of threads, for the answer `hw` of `hardware_concurrency()`. -/
def numTh (hw sz : Nat) : Nat := min (if hw ≠ 0 then hw else 2) (mxTh sz)

def blkSz (hw sz : Nat) : Nat := sz / numTh hw sz

/-! ## Steps -/

section Model

variable {α : Type u} [BEq α] (hw : Nat) (xs : List α) (value : α)

/-- One step of a call of `find_ele`: what becomes of the promise, of the flag and of the call. -/
def workerStep (promise : Option Outcome) (done : Bool) (w : Worker) :
    Option (Option Outcome × Bool × Worker) :=
  match w.pc with
  | .test =>
      -- `for (; (st != en) && !done->load(); ++st)`
      if w.st ≠ w.en ∧ done = false then some (promise, done, { w with pc := .compare })
      else some (promise, done, { w with pc := .returned })
  | .compare =>
      match xs[w.st]? with
      | some x =>
          if x == value then some (promise, done, { w with pc := .setValue })
          else some (promise, done, { w with st := w.st + 1, pc := .test })
      | none => none
  | .setValue =>
      -- a second `set_value` throws `promise_already_satisfied`
      match promise with
      | none => some (some (.value w.st), done, { w with pc := .storeDone })
      | some _ => some (promise, done, { w with pc := w.pc.handler })
  | .storeDone => some (promise, true, { w with pc := .returned })
  | .setException =>
      match promise with
      | none => some (some .exception, done, { w with pc := .storeDoneCaught })
      | some _ => some (promise, done, { w with pc := w.pc.handler })
  | .storeDoneCaught => some (promise, true, { w with pc := .returned })
  | .returned => none
  | .terminated => none

/-- The `i`-th call of `find_ele` is at this program point. -/
def IsAt (s : State) (i : Nat) (pc : WorkerPc) : Prop :=
  ∃ w ∈ s.workers[i]?, w.pc = pc

instance (s : State) (i : Nat) (pc : WorkerPc) : Decidable (IsAt s i pc) :=
  inferInstanceAs (Decidable (∃ w ∈ s.workers[i]?, w.pc = pc))

/-- One step of the calling thread outside its own call of `find_ele`.  `join` waits until the thread
has returned. -/
def mainStep (s : State) : Option State :=
  match s.main with
  | .spawning i st =>
      if i < numTh hw xs.length - 1 then
        let en := st + blkSz hw xs.length
        some { s with
          workers := s.workers ++ [{ first := st, st := st, en := en, pc := .test }]
          main := .spawning (i + 1) en }
      else
        some { s with
          workers := s.workers ++ [{ first := st, st := st, en := xs.length, pc := .test }]
          main := .searching }
  | .searching =>
      -- its own call of `find_ele` is the last of the workers
      if IsAt s (numTh hw xs.length - 1) .returned then some { s with main := .joining 0 } else none
  | .joining i =>
      if i < numTh hw xs.length - 1 then
        if IsAt s i .returned then some { s with main := .joining (i + 1) } else none
      else
        some { s with main := .loadDone }
  | .loadDone =>
      -- `if (!done.load()) return lst;`
      if s.done then some { s with main := .getFuture }
      else some { s with main := .returned xs.length }
  | .getFuture =>
      match s.promise with
      | some (.value it) => some { s with main := .returned it }
      | some .exception => some { s with main := .threw }
      | none => none
  | .returned _ => none
  | .threw => none

def step (s : State) : Event → Option State
  | .main => mainStep hw xs s
  | .worker i =>
      match s.workers[i]? with
      | some w =>
          match workerStep xs value s.promise s.done w with
          | some (promise, done, w') =>
              some { s with
                promise := promise
                done := done
                workers := s.workers.set i w' }
          | none => none
      | none => none

/-- The call of `parallel_find`: an empty range is answered at once. -/
def start : State :=
  { promise := none
    done := false
    workers := []
    main := if xs.length = 0 then .returned xs.length else .spawning 0 0 }

end Model

/-! ## The blocks cover the range -/

/-- The block of the `i`-th call. -/
def block (hw sz i : Nat) : Nat × Nat :=
  (i * blkSz hw sz, if i + 1 < numTh hw sz then (i + 1) * blkSz hw sz else sz)

/-- The positions of a block, in order. -/
def positions (blk : Nat × Nat) : List Nat :=
  List.range' blk.1 (blk.2 - blk.1)

theorem numTh_pos (hw : Nat) {sz : Nat} (h : sz ≠ 0) : 0 < numTh hw sz := by
  have hmx : 0 < mxTh sz := by
    unfold mxTh minPerTh
    omega
  unfold numTh
  split <;> omega

theorem numTh_zero (hw : Nat) : numTh hw 0 = 0 :=
  Nat.min_zero _

theorem numTh_mul_blkSz_le (hw sz : Nat) : numTh hw sz * blkSz hw sz ≤ sz :=
  Nat.mul_div_le sz (numTh hw sz)

/-- The first `i + 1` blocks are within the range. -/
theorem succ_mul_blkSz_le {hw sz i : Nat} (hi : i < numTh hw sz) :
    i * blkSz hw sz + blkSz hw sz ≤ sz := by
  rw [← Nat.succ_mul]
  exact le_trans (Nat.mul_le_mul_right _ hi) (numTh_mul_blkSz_le hw sz)

theorem block_of_lt {hw sz i : Nat} (hi : i < numTh hw sz - 1) :
    (i * blkSz hw sz, i * blkSz hw sz + blkSz hw sz) = block hw sz i := by
  have hnext : (i + 1) * blkSz hw sz = i * blkSz hw sz + blkSz hw sz := Nat.succ_mul _ _
  rw [block, if_pos (by omega), hnext]

/-- The last block takes what the division leaves over. -/
theorem block_of_last {hw sz i : Nat} (hi : ¬ i < numTh hw sz - 1) :
    (i * blkSz hw sz, sz) = block hw sz i := by
  rw [block, if_neg (by omega)]

/-- Every block is a range of positions. -/
theorem block_le {hw sz i : Nat} (hi : i < numTh hw sz) :
    (block hw sz i).1 ≤ (block hw sz i).2 ∧ (block hw sz i).2 ≤ sz := by
  have hupto := succ_mul_blkSz_le hi
  have hnext : (i + 1) * blkSz hw sz = i * blkSz hw sz + blkSz hw sz := Nat.succ_mul _ _
  simp only [block]
  split
  · omega
  · omega

theorem flatMap_positions (hw sz k : Nat) (hk : k < numTh hw sz) :
    ((List.range k).map (block hw sz)).flatMap positions = List.range (k * blkSz hw sz) := by
  induction k with
  | zero =>
      simp
  | succ k ih =>
      have hblock : positions (block hw sz k) = List.range' (k * blkSz hw sz) (blkSz hw sz) := by
        have hlen : (k + 1) * blkSz hw sz - k * blkSz hw sz = blkSz hw sz := by
          rw [Nat.succ_mul]
          omega
        simp only [positions, block, if_pos hk, hlen]
      have hadd : (k + 1) * blkSz hw sz = k * blkSz hw sz + blkSz hw sz := Nat.succ_mul _ _
      rw [List.range_succ, List.map_append, List.flatMap_append, ih (by omega)]
      simp only [List.map_cons, List.map_nil, List.flatMap_cons, List.flatMap_nil, List.append_nil]
      rw [hblock, hadd, List.range_add, List.range'_eq_map_range]

/-- One after the other the blocks are the whole range: each position is in exactly one of them. -/
theorem flatMap_positions_blocks (hw sz : Nat) :
    ((List.range (numTh hw sz)).map (block hw sz)).flatMap positions = List.range sz := by
  rcases Nat.eq_zero_or_pos sz with rfl | hsz
  · rw [numTh_zero]
    rfl
  have hpos := numTh_pos hw (Nat.pos_iff_ne_zero.1 hsz)
  obtain ⟨k, hk⟩ : ∃ k, numTh hw sz = k + 1 := ⟨numTh hw sz - 1, by omega⟩
  have hle : k * blkSz hw sz ≤ sz := by
    have := numTh_mul_blkSz_le hw sz
    rw [hk, Nat.succ_mul] at this
    omega
  have hlast : positions (block hw sz k) = List.range' (k * blkSz hw sz) (sz - k * blkSz hw sz) := by
    simp [positions, block, hk]
  rw [hk, List.range_succ, List.map_append, List.flatMap_append, flatMap_positions hw sz k (by omega)]
  simp only [List.map_cons, List.map_nil, List.flatMap_cons, List.flatMap_nil, List.append_nil]
  calc
    List.range (k * blkSz hw sz) ++ positions (block hw sz k)
        = List.range (k * blkSz hw sz + (sz - k * blkSz hw sz)) := by
          rw [hlast, List.range_add, List.range'_eq_map_range]
    _ = List.range sz := by rw [Nat.add_sub_cancel' hle]

/-! ## What a step can do -/

section Inversion

variable {α : Type u} [BEq α] {xs : List α} {value : α}

/-- The moves of a call of `find_ele`. -/
inductive WorkerMoves (xs : List α) (value : α) (w : Worker) :
    Option Outcome → Bool → Option Outcome → Bool → Worker → Prop where
  | stop {p d} : w.pc = .test → w.st = w.en ∨ d = true →
      WorkerMoves xs value w p d p d { w with pc := .returned }
  | look {p d} : w.pc = .test → w.st ≠ w.en → d = false →
      WorkerMoves xs value w p d p d { w with pc := .compare }
  | mismatch {p d} : w.pc = .compare → ¬ Matches xs value w.st →
      WorkerMoves xs value w p d p d { w with st := w.st + 1, pc := .test }
  | found {p d} : w.pc = .compare → Matches xs value w.st →
      WorkerMoves xs value w p d p d { w with pc := .setValue }
  | satisfy {d} : w.pc = .setValue →
      WorkerMoves xs value w none d (some (.value w.st)) d { w with pc := .storeDone }
  | occupied {p d} : w.pc = .setValue → p ≠ none →
      WorkerMoves xs value w p d p d { w with pc := .setException }
  | raise {p d} : w.pc = .storeDone →
      WorkerMoves xs value w p d p true { w with pc := .returned }
  | caught {d} : w.pc = .setException →
      WorkerMoves xs value w none d (some .exception) d { w with pc := .storeDoneCaught }
  | swallow {p d} : w.pc = .setException → p ≠ none →
      WorkerMoves xs value w p d p d { w with pc := .returned }
  | raiseCaught {p d} : w.pc = .storeDoneCaught →
      WorkerMoves xs value w p d p true { w with pc := .returned }

theorem workerStep_moves {p p' : Option Outcome} {d d' : Bool} {w w' : Worker}
    (h : workerStep xs value p d w = some (p', d', w')) : WorkerMoves xs value w p d p' d' w' := by
  unfold workerStep at h
  cases hpc : w.pc with
  | test =>
      simp only [hpc] at h
      split at h
      · rename_i hgo
        cases h
        exact .look hpc hgo.1 hgo.2
      · rename_i hstop
        cases h
        refine .stop hpc ?_
        by_contra hgo
        rw [not_or] at hgo
        exact hstop ⟨hgo.1, by simpa using hgo.2⟩
  | compare =>
      simp only [hpc] at h
      split at h
      · rename_i x hx
        split at h
        · rename_i heq
          cases h
          exact .found hpc ⟨x, hx, heq⟩
        · rename_i hne
          cases h
          refine .mismatch hpc ?_
          rintro ⟨y, hy, heq⟩
          cases hx.symm.trans hy
          exact hne heq
      · cases h
  | setValue =>
      simp only [hpc] at h
      split at h
      · cases h
        exact .satisfy hpc
      · cases h
        exact .occupied hpc (by simp)
  | storeDone =>
      simp only [hpc] at h
      cases h
      exact .raise hpc
  | setException =>
      simp only [hpc] at h
      split at h
      · cases h
        exact .caught hpc
      · cases h
        exact .swallow hpc (by simp)
  | storeDoneCaught =>
      simp only [hpc] at h
      cases h
      exact .raiseCaught hpc
  | returned =>
      simp only [hpc] at h
      cases h
  | terminated =>
      simp only [hpc] at h
      cases h

end Inversion

/-! ## The invariant of a call -/

section WorkerInvariant

variable {α : Type u} [BEq α] {xs : List α} {value : α}

/-- What is known at each program point of `find_ele`. -/
def WorkerPc.Sound (xs : List α) (value : α) (promise : Option Outcome) (w : Worker) :
    WorkerPc → Prop
  | .test => True
  | .compare => w.st < w.en
  | .setValue => Matches xs value w.st
  | .storeDone => promise ≠ none
  | .setException => promise ≠ none
  | .storeDoneCaught => False
  | .returned => promise ≠ none ∨ w.st = w.en
  | .terminated => False

structure WorkerOk (xs : List α) (value : α) (promise : Option Outcome) (w : Worker) : Prop where
  first_le : w.first ≤ w.st
  st_le : w.st ≤ w.en
  en_le : w.en ≤ xs.length
  clear : ∀ i, w.first ≤ i → i < w.st → ¬ Matches xs value i
  sound : w.pc.Sound xs value promise w

/-- A promise that was satisfied stays satisfied. -/
theorem WorkerOk.mono {p p' : Option Outcome} {w : Worker} (h : WorkerOk xs value p w)
    (hp : p ≠ none → p' ≠ none) : WorkerOk xs value p' w := by
  refine ⟨h.first_le, h.st_le, h.en_le, h.clear, ?_⟩
  have hsound := h.sound
  cases hpc : w.pc with
  | test => trivial
  | compare => simpa only [hpc, WorkerPc.Sound] using hsound
  | setValue => simpa only [hpc, WorkerPc.Sound] using hsound
  | storeDone =>
      simp only [hpc, WorkerPc.Sound] at hsound ⊢
      exact hp hsound
  | setException =>
      simp only [hpc, WorkerPc.Sound] at hsound ⊢
      exact hp hsound
  | storeDoneCaught => simp only [hpc, WorkerPc.Sound] at hsound
  | returned =>
      simp only [hpc, WorkerPc.Sound] at hsound ⊢
      exact hsound.imp hp id
  | terminated => simp only [hpc, WorkerPc.Sound] at hsound

/-- A move of a call keeps what is known about it; a flag that is up stands for a satisfied promise. -/
theorem WorkerMoves.ok {p p' : Option Outcome} {d d' : Bool} {w w' : Worker}
    (h : WorkerMoves xs value w p d p' d' w') (hw : WorkerOk xs value p w)
    (hd : d = true → p ≠ none) : WorkerOk xs value p' w' := by
  obtain ⟨h₁, h₂, h₃, hclear, hsound⟩ := hw
  cases h with
  | stop hpc hend =>
      refine ⟨h₁, h₂, h₃, hclear, ?_⟩
      rcases hend with hend | hdone
      · exact Or.inr hend
      · exact Or.inl (hd hdone)
  | look hpc hne hdone =>
      exact ⟨h₁, h₂, h₃, hclear, Nat.lt_of_le_of_ne h₂ hne⟩
  | mismatch hpc hno =>
      -- the prefix without a match grows by the position just compared
      simp only [hpc, WorkerPc.Sound] at hsound
      refine ⟨Nat.le_succ_of_le h₁, hsound, h₃, ?_, trivial⟩
      intro i hi hlt
      rcases Nat.lt_succ_iff_lt_or_eq.1 hlt with hlt | rfl
      · exact hclear i hi hlt
      · exact hno
  | found hpc hyes =>
      exact ⟨h₁, h₂, h₃, hclear, hyes⟩
  | satisfy hpc =>
      exact ⟨h₁, h₂, h₃, hclear, Option.some_ne_none _⟩
  | occupied hpc hp =>
      exact ⟨h₁, h₂, h₃, hclear, hp⟩
  | raise hpc =>
      simp only [hpc, WorkerPc.Sound] at hsound
      exact ⟨h₁, h₂, h₃, hclear, Or.inl hsound⟩
  | caught hpc =>
      -- the handler is entered only when the promise is satisfied already
      simp only [hpc, WorkerPc.Sound] at hsound
      exact absurd rfl hsound
  | swallow hpc hp =>
      exact ⟨h₁, h₂, h₃, hclear, Or.inl hp⟩
  | raiseCaught hpc =>
      simp only [hpc, WorkerPc.Sound] at hsound

end WorkerInvariant

end ParallelFind

end CppConcurrency
end MyCppCode
