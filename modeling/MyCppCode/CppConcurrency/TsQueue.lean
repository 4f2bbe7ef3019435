import Mathlib.Algebra.Order.BigOperators.Group.List
import Mathlib.Algebra.Order.Group.Nat
import MyCppCode.Foundation.History
import MyCppCode.Foundation.TransitionSystem

/-!
# TsQueue — `ts_queue` under any number of threads

A queue behind a mutex, with a condition variable for those who wait for an element.

* each call locks the mutex, and the steps under the lock are steps of their own;
* `cv.wait` gives the mutex up and blocks in one step.  A blocked thread is woken by a `notify_one`, which
  picks any one of those that wait, or spuriously; it has to lock the mutex again before it looks at the
  queue;
* the two overloads of `wait_and_pop` and of `try_pop` differ only in how they hand the element over.

`step_inv` keeps the mutex, the history and the count of the wake-ups; `ts_queue_fifo` and
`ts_queue_no_lost_wakeup` say what follows for all runs.
-/

namespace MyCppCode
namespace CppConcurrency

open Foundation
open History

universe u

namespace TsQueue

variable {α : Type u}

/-! ## The sequential queue -/

inductive Operation (α : Type u)
  | push (val : α)
  | waitAndPop
  | tryPop
  | empty
  deriving DecidableEq, Repr

inductive Effect (α : Type u)
  | pushed (val : α)
  | popped (val : α)
  | looked (empty : Bool)
  deriving DecidableEq, Repr

inductive Result (α : Type u)
  | done
  | element (val : Option α)
  | isEmpty (empty : Bool)
  deriving DecidableEq, Repr

/-- What the effects do to a first-in first-out queue. -/
inductive Changes : List α → Effect α → List α → Prop where
  | pushed (que : List α) (val : α) : Changes que (.pushed val) (que ++ [val])
  | popped (que : List α) (val : α) : Changes (val :: que) (.popped val) que
  | looked (que : List α) : Changes que (.looked que.isEmpty) que

/-- Which effect answers which call, and what the call returns then. -/
inductive Answers : Operation α → Effect α → Result α → Prop where
  | push (val : α) : Answers (.push val) (.pushed val) .done
  | waitAndPop (val : α) : Answers .waitAndPop (.popped val) (.element (some val))
  | tryPop (val : α) : Answers .tryPop (.popped val) (.element (some val))
  | tryPopEmpty : Answers .tryPop (.looked true) (.element none)
  | empty (b : Bool) : Answers .empty (.looked b) (.isEmpty b)

/-! ## The state -/

/-- The program points, with the local variables.  A thread in `waiting` is blocked in `cv.wait`; one in
`woken` has been unblocked and locks the mutex again. -/
inductive Pc (α : Type u)
  | idle
  | pushLock (val : α)
  | push (val : α)
  | notify
  | waitLock
  | waitTest
  | waiting
  | woken
  | waitPop
  | tryLock
  | tryPop
  | emptyLock
  | empty
  | unlock (result : Result α)
  deriving DecidableEq, Repr

structure State (α : Type u) where
  mtx : Option Nat
  que : List α
  threads : List (Pc α)
  log : List (Entry (Operation α) (Effect α) (Result α))
  deriving DecidableEq, Repr

/-- What happens next: a thread calls an operation, or makes its next step; `cv.notify_one()` is an event of
its own, with the thread it wakes; or a blocked thread wakes up by itself. -/
inductive Event (α : Type u)
  | call (i : Nat) (op : Operation α)
  | move (i : Nat)
  | notifyOne (i : Nat) (target : Option Nat)
  | spurious (i : Nat)
  deriving DecidableEq, Repr

def start (n : Nat) : State α :=
  { mtx := none
    que := []
    threads := List.replicate n .idle
    log := [] }

/-! ## Steps -/

/-- The thread goes on to `pc`, with these acts on the way. -/
def State.goto (s : State α) (i : Nat) (pc : Pc α)
    (acts : List (Act (Operation α) (Effect α) (Result α))) : State α :=
  { s with
    threads := s.threads.set i pc
    log := s.log ++ acts.map fun act => ⟨i, act⟩ }

def Operation.lock : Operation α → Pc α
  | .push val => .pushLock val
  | .waitAndPop => .waitLock
  | .tryPop => .tryLock
  | .empty => .emptyLock

/-- Lock the mutex, and go on to `pc`. -/
def State.lock (s : State α) (i : Nat) (pc : Pc α) : Option (State α) :=
  match s.mtx with
  | none => some (State.goto { s with mtx := some i } i pc [])
  | some _ => none

/-- The next step of thread `i`.  `que.front()` of an empty queue is undefined, and no step here. -/
def move (s : State α) (i : Nat) : Pc α → Option (State α)
  | .idle => none
  | .pushLock val => s.lock i (.push val)
  | .push val => some (State.goto { s with que := s.que ++ [val] } i .notify [.effect (.pushed val)])
  | .notify => none
  | .waitLock => s.lock i .waitTest
  | .waitTest =>
      -- `while (!pred()) wait(lock)`
      if s.que.isEmpty then some (State.goto { s with mtx := none } i .waiting [])
      else some (s.goto i .waitPop [])
  | .waiting => none
  | .woken => s.lock i .waitTest
  | .waitPop =>
      match s.que with
      | [] => none
      | val :: que =>
          some (State.goto { s with que := que } i (.unlock (.element (some val)))
            [.effect (.popped val)])
  | .tryLock => s.lock i .tryPop
  | .tryPop =>
      match s.que with
      | [] => some (s.goto i (.unlock (.element none)) [.effect (.looked true)])
      | val :: que =>
          some (State.goto { s with que := que } i (.unlock (.element (some val)))
            [.effect (.popped val)])
  | .emptyLock => s.lock i .empty
  | .empty => some (s.goto i (.unlock (.isEmpty s.que.isEmpty)) [.effect (.looked s.que.isEmpty)])
  | .unlock result => some (State.goto { s with mtx := none } i .idle [.ret result])

def Pc.isWaiting : Pc α → Bool
  | .waiting => true
  | _ => false

/-- Unblock thread `j`. -/
def State.wake (s : State α) (j : Nat) : State α :=
  { s with threads := s.threads.set j .woken }

/-- `cv.notify_one()`: one of the waiting threads is unblocked, if there are any. -/
def notifyOne (s : State α) (i : Nat) (target : Option Nat) : Option (State α) :=
  match target with
  | none =>
      if s.threads.any Pc.isWaiting then none
      else some (s.goto i (.unlock .done) [])
  | some j =>
      match s.threads[j]? with
      | some .waiting => some ((s.wake j).goto i (.unlock .done) [])
      | _ => none

def step (s : State α) : Event α → Option (State α)
  | .call i op =>
      match s.threads[i]? with
      | some .idle => some (s.goto i op.lock [.call op])
      | _ => none
  | .move i =>
      match s.threads[i]? with
      | some pc => move s i pc
      | none => none
  | .notifyOne i target =>
      match s.threads[i]? with
      | some .notify => notifyOne s i target
      | _ => none
  | .spurious i =>
      match s.threads[i]? with
      | some .waiting => some (s.wake i)
      | _ => none

/-- A step that the program makes by itself: no new call, and no spurious wake-up. -/
def Event.internal : Event α → Bool
  | .move _ => true
  | .notifyOne _ _ => true
  | _ => false

/-! ## What a step can do -/

/-- Where a thread that locks the mutex goes on. -/
def Pc.acquires : Pc α → Option (Pc α)
  | .pushLock val => some (.push val)
  | .waitLock => some .waitTest
  | .woken => some .waitTest
  | .tryLock => some .tryPop
  | .emptyLock => some .empty
  | _ => none

/-- The moves of thread `i`, and the spurious wake-up of one. -/
inductive Moves (s : State α) (i : Nat) : Pc α → State α → Prop where
  | call (op : Operation α) : Moves s i .idle (s.goto i op.lock [.call op])
  | lock {pc pc' : Pc α} : pc.acquires = some pc' → s.mtx = none →
      Moves s i pc (State.goto { s with mtx := some i } i pc' [])
  | push (val : α) :
      Moves s i (.push val)
        (State.goto { s with que := s.que ++ [val] } i .notify [.effect (.pushed val)])
  | notifyNobody : s.threads.any Pc.isWaiting = false →
      Moves s i .notify (s.goto i (.unlock .done) [])
  | notify {j : Nat} : s.threads[j]? = some .waiting →
      Moves s i .notify ((s.wake j).goto i (.unlock .done) [])
  | block : s.que = [] → Moves s i .waitTest (State.goto { s with mtx := none } i .waiting [])
  | pass : s.que ≠ [] → Moves s i .waitTest (s.goto i .waitPop [])
  | pop {pc : Pc α} {val : α} {que : List α} : pc = .waitPop ∨ pc = .tryPop → s.que = val :: que →
      Moves s i pc (State.goto { s with que := que } i (.unlock (.element (some val)))
        [.effect (.popped val)])
  | popNothing : s.que = [] →
      Moves s i .tryPop (s.goto i (.unlock (.element none)) [.effect (.looked true)])
  | look : Moves s i .empty
      (s.goto i (.unlock (.isEmpty s.que.isEmpty)) [.effect (.looked s.que.isEmpty)])
  | unlock (result : Result α) :
      Moves s i (.unlock result) (State.goto { s with mtx := none } i .idle [.ret result])
  | spurious : Moves s i .waiting (s.wake i)

theorem lock_moves {s t : State α} {i : Nat} {pc pc' : Pc α} (hpc : pc.acquires = some pc')
    (h : s.lock i pc' = some t) : Moves s i pc t := by
  unfold State.lock at h
  split at h
  · rename_i hmtx
    cases h
    exact .lock hpc hmtx
  · cases h

theorem move_moves {s t : State α} {i : Nat} {pc : Pc α} (h : move s i pc = some t) :
    Moves s i pc t := by
  cases pc with
  | idle => cases h
  | pushLock val => exact lock_moves rfl h
  | push val =>
      cases h
      exact .push val
  | notify => cases h
  | waitLock => exact lock_moves rfl h
  | waitTest =>
      simp only [move] at h
      split at h
      · rename_i hempty
        cases h
        exact .block (List.isEmpty_iff.1 hempty)
      · rename_i hempty
        cases h
        exact .pass fun hnil => hempty (List.isEmpty_iff.2 hnil)
  | waiting => cases h
  | woken => exact lock_moves rfl h
  | waitPop =>
      simp only [move] at h
      split at h
      · cases h
      · rename_i hque
        cases h
        exact .pop (Or.inl rfl) hque
  | tryLock => exact lock_moves rfl h
  | tryPop =>
      simp only [move] at h
      split at h
      · rename_i hque
        cases h
        exact .popNothing hque
      · rename_i hque
        cases h
        exact .pop (Or.inr rfl) hque
  | emptyLock => exact lock_moves rfl h
  | empty =>
      cases h
      exact .look
  | unlock result =>
      cases h
      exact .unlock result

theorem notifyOne_moves {s t : State α} {i : Nat} {target : Option Nat}
    (h : notifyOne s i target = some t) : Moves s i .notify t := by
  unfold notifyOne at h
  cases target with
  | none =>
      simp only at h
      split at h
      · cases h
      · rename_i hnobody
        cases h
        exact .notifyNobody (Bool.eq_false_iff.2 hnobody)
  | some j =>
      simp only at h
      split at h
      · rename_i hj
        cases h
        exact .notify hj
      · cases h

theorem step_moves {s t : State α} {e : Event α} (h : step s e = some t) :
    ∃ i pc, s.threads[i]? = some pc ∧ Moves s i pc t ∧
      (e.internal = true → pc ≠ .idle ∧ pc ≠ .waiting) := by
  cases e with
  | call i op =>
      simp only [step] at h
      split at h
      · rename_i hth
        cases h
        exact ⟨i, _, hth, .call op, nofun⟩
      · cases h
  | move i =>
      simp only [step] at h
      split at h
      · rename_i pc hth
        refine ⟨i, pc, hth, move_moves h, fun _ => ⟨?_, ?_⟩⟩
        · rintro rfl
          cases h
        · rintro rfl
          cases h
      · cases h
  | notifyOne i target =>
      simp only [step] at h
      split at h
      · rename_i hth
        exact ⟨i, _, hth, notifyOne_moves h, fun _ => ⟨nofun, nofun⟩⟩
      · cases h
  | spurious i =>
      simp only [step] at h
      split at h
      · rename_i hth
        cases h
        exact ⟨i, _, hth, .spurious, nofun⟩
      · cases h

/-! ## The invariant -/

/-- The thread has locked the mutex. -/
def Pc.locked : Pc α → Bool
  | .push _ => true
  | .notify => true
  | .waitTest => true
  | .waitPop => true
  | .tryPop => true
  | .empty => true
  | .unlock _ => true
  | _ => false

/-- Where the thread is in its operation. -/
def Pc.PhaseIs (p : Phase (Operation α) (Result α)) : Pc α → Prop
  | .idle => p = .idle
  | .pushLock val => p = .pending (.push val)
  | .push val => p = .pending (.push val)
  | .notify => p = .decided .done
  | .waitLock => p = .pending .waitAndPop
  | .waitTest => p = .pending .waitAndPop
  | .waiting => p = .pending .waitAndPop
  | .woken => p = .pending .waitAndPop
  | .waitPop => p = .pending .waitAndPop
  | .tryLock => p = .pending .tryPop
  | .tryPop => p = .pending .tryPop
  | .emptyLock => p = .pending .empty
  | .empty => p = .pending .empty
  | .unlock result => p = .decided result

/-- The thread sleeps until it is woken. -/
def Pc.asleep : Pc α → Nat
  | .waiting => 1
  | _ => 0

/-- The thread is on its way to an element, or to wake somebody for one. -/
def Pc.coming : Pc α → Nat
  | .waitTest => 1
  | .woken => 1
  | .waitPop => 1
  | .notify => 1
  | _ => 0

/-- The sum of `f` over the threads. -/
def State.total (s : State α) (f : Pc α → Nat) : Nat := (s.threads.map f).sum

/-- `wake`: as long as a thread sleeps, there are no more elements than threads that come for one, or
are about to wake somebody. -/
structure Inv (s : State α) : Prop where
  mutex : ∀ i pc, s.threads[i]? = some pc → (pc.locked = true ↔ s.mtx = some i)
  owner : ∀ i, s.mtx = some i → i < s.threads.length
  replays : Replays Changes [] (effects s.log) s.que
  phase : ∀ i pc, s.threads[i]? = some pc → ∃ p, pc.PhaseIs p ∧ Follows Answers i s.log p
  front : ∀ i : Nat, s.threads[i]? = some .waitPop → s.que ≠ []
  wake : 0 < s.total Pc.asleep → s.que.length ≤ s.total Pc.coming

theorem start_inv (n : Nat) : Inv (start n : State α) := by
  have hidle : ∀ (i : Nat) (pc : Pc α), (start n : State α).threads[i]? = some pc → pc = .idle :=
    fun i pc hth => List.eq_of_mem_replicate (List.mem_of_getElem? hth)
  refine ⟨?_, nofun, .nil, ?_, ?_, ?_⟩
  · intro i pc hth
    rw [hidle i pc hth]
    simp [start, Pc.locked]
  · intro i pc hth
    rw [hidle i pc hth]
    exact ⟨.idle, rfl, .nil⟩
  · intro i hth
    cases hidle i _ hth
  · intro _
    simp [start]

variable {s t : State α} {i : Nat} {pc : Pc α}

theorem total_goto (f : Pc α → Nat) (hth : s.threads[i]? = some pc) (pc' : Pc α)
    (acts : List (Act (Operation α) (Effect α) (Result α))) :
    (s.goto i pc' acts).total f + f pc = s.total f + f pc' :=
  sum_map_set f pc' hth

theorem total_wake (f : Pc α → Nat) {j : Nat} (hj : s.threads[j]? = some .waiting) :
    (s.wake j).total f + f .waiting = s.total f + f .woken :=
  sum_map_set f .woken hj

/-- Waking a thread: it goes on with what it was doing. -/
theorem Inv.woken (h : Inv s) {j : Nat} (hj : s.threads[j]? = some .waiting) : Inv (s.wake j) := by
  have hlt : j < s.threads.length := (List.getElem?_eq_some_iff.1 hj).1
  have hself : (s.wake j).threads[j]? = some .woken := List.getElem?_set_self hlt
  have hget : ∀ k, k ≠ j → (s.wake j).threads[k]? = s.threads[k]? := fun k hk =>
    List.getElem?_set_ne (Ne.symm hk)
  refine ⟨?_, ?_, h.replays, ?_, ?_, ?_⟩
  · intro k pck hk
    by_cases hkj : k = j
    · subst hkj
      cases hself.symm.trans hk
      exact h.mutex k .waiting hj
    · exact h.mutex k pck ((hget k hkj).symm.trans hk)
  · intro k hk
    simpa [State.wake] using h.owner k hk
  · intro k pck hk
    by_cases hkj : k = j
    · subst hkj
      cases hself.symm.trans hk
      exact h.phase k .waiting hj
    · exact h.phase k pck ((hget k hkj).symm.trans hk)
  · intro k hk
    by_cases hkj : k = j
    · subst hkj
      cases hself.symm.trans hk
    · exact h.front k ((hget k hkj).symm.trans hk)
  · intro hpos
    have hasleep : (s.wake j).total Pc.asleep + 1 = s.total Pc.asleep + 0 := total_wake Pc.asleep hj
    have hcoming : (s.wake j).total Pc.coming + 0 = s.total Pc.coming + 1 := total_wake Pc.coming hj
    have hle := h.wake (by omega)
    have hque : (s.wake j).que = s.que := rfl
    rw [hque]
    omega

/-- One move of one thread: it holds the mutex, or takes it, or leaves the queue as it is. -/
theorem Inv.goto (h : Inv s) (hth : s.threads[i]? = some pc) {mtx : Option Nat} {que : List α}
    {pc' : Pc α} {acts : List (Act (Operation α) (Effect α) (Result α))}
    (hlock : pc'.locked = true ↔ mtx = some i) (hothers : ∀ j, j ≠ i → (mtx = some j ↔ s.mtx = some j))
    (hque : que = s.que ∨ pc.locked = true)
    (hreplays : Replays Changes [] (effects s.log ++ acts.filterMap Act.effect?) que)
    (hphase : ∀ p, pc.PhaseIs p → Follows Answers i s.log p →
      ∃ p', pc'.PhaseIs p' ∧ Follows Answers i (s.log ++ acts.map fun act => ⟨i, act⟩) p')
    (hfront : pc' = .waitPop → que ≠ [])
    (hwake : 0 < (s.goto i pc' acts).total Pc.asleep → que.length ≤ (s.goto i pc' acts).total Pc.coming) :
    Inv (State.goto { s with mtx := mtx, que := que } i pc' acts) := by
  have hlt : i < s.threads.length := (List.getElem?_eq_some_iff.1 hth).1
  have hself : (s.threads.set i pc')[i]? = some pc' := List.getElem?_set_self hlt
  have hget : ∀ j, j ≠ i → (s.threads.set i pc')[j]? = s.threads[j]? := fun j hj =>
    List.getElem?_set_ne (Ne.symm hj)
  refine ⟨?_, ?_, ?_, ?_, ?_, hwake⟩
  · intro j pcj hj
    by_cases hji : j = i
    · subst hji
      cases hself.symm.trans hj
      exact hlock
    · rw [h.mutex j pcj ((hget j hji).symm.trans hj)]
      exact (hothers j hji).symm
  · intro j hj
    by_cases hji : j = i
    · subst hji
      simpa [State.goto] using hlt
    · simpa [State.goto] using h.owner j ((hothers j hji).1 hj)
  · simpa [State.goto] using hreplays
  · intro j pcj hj
    by_cases hji : j = i
    · subst hji
      cases hself.symm.trans hj
      obtain ⟨p, hp, hfollows⟩ := h.phase j pc hth
      exact hphase p hp hfollows
    · obtain ⟨p, hp, hfollows⟩ := h.phase j pcj ((hget j hji).symm.trans hj)
      exact ⟨p, hp, hfollows.others (Ne.symm hji) acts⟩
  · intro j hj
    by_cases hji : j = i
    · subst hji
      cases hself.symm.trans hj
      exact hfront rfl
    · have hj' : s.threads[j]? = some .waitPop := (hget j hji).symm.trans hj
      rcases hque with rfl | hlocked
      · exact h.front j hj'
      · -- only one of the two has the mutex
        have hi := (h.mutex i pc hth).1 hlocked
        have hj'' := (h.mutex j _ hj').1 rfl
        rw [hi] at hj''
        exact absurd (Option.some.inj hj'').symm hji

/-! ## Every move keeps it -/

/-- Where only thread `i` moves, the sums change by what it changes. -/
theorem Inv.wake_goto (h : Inv s) (hth : s.threads[i]? = some pc) {pc' : Pc α} {que : List α}
    {acts : List (Act (Operation α) (Effect α) (Result α))}
    (hcount : pc'.asleep ≤ pc.asleep ∧ que.length + pc.coming ≤ s.que.length + pc'.coming ∨ que = []) :
    0 < (s.goto i pc' acts).total Pc.asleep → que.length ≤ (s.goto i pc' acts).total Pc.coming := by
  intro hpos
  have hasleep := total_goto Pc.asleep hth pc' acts
  have hcoming := total_goto Pc.coming hth pc' acts
  rcases hcount with ⟨hless, hque⟩ | rfl
  · have hle := h.wake (by omega)
    omega
  · exact Nat.zero_le _

theorem total_asleep_eq_zero (h : s.threads.any Pc.isWaiting = false) : s.total Pc.asleep = 0 := by
  refine List.sum_eq_zero ?_
  intro x hx
  obtain ⟨pc, hpc, rfl⟩ := List.mem_map.1 hx
  have hnot : pc.isWaiting = false := by
    simpa using List.any_eq_false.1 h pc hpc
  cases pc with
  | waiting => cases hnot
  | _ => rfl

/-- Who moves holds the mutex, or takes it, or gives it up, or has nothing to do with it. -/
theorem Inv.others_free (h : Inv s) (hth : s.threads[i]? = some pc) (hlocked : pc.locked = true) {j : Nat}
    (hj : j ≠ i) : s.mtx ≠ some j := by
  intro hmtx
  rw [(h.mutex i pc hth).1 hlocked] at hmtx
  exact hj (Option.some.inj hmtx).symm

theorem inv_lock (h : Inv s) (hth : s.threads[i]? = some pc) {pc' : Pc α}
    (hpc : pc.acquires = some pc') (hmtx : s.mtx = none) :
    Inv (State.goto { s with mtx := some i } i pc' []) := by
  have hothers : ∀ j, j ≠ i → (some i = some j ↔ s.mtx = some j) := by
    intro j hj
    rw [hmtx]
    exact ⟨fun heq => absurd (Option.some.inj heq).symm hj, nofun⟩
  have hstay : ∀ p, (pc.PhaseIs p → pc'.PhaseIs p) → pc.PhaseIs p → Follows Answers i s.log p →
      ∃ p', pc'.PhaseIs p' ∧
        Follows Answers i (s.log ++ ([] : List (Act _ _ _)).map fun act => ⟨i, act⟩) p' :=
    fun p hgo hp hfollows => ⟨p, hgo hp, by simpa using hfollows⟩
  have hreplays : Replays Changes [] (effects s.log ++
      ([] : List (Act (Operation α) (Effect α) (Result α))).filterMap Act.effect?) s.que := by
    simpa using h.replays
  cases pc with
  | pushLock val =>
      cases hpc
      exact h.goto hth (by simp [Pc.locked]) hothers (Or.inl rfl) hreplays
        (fun p => hstay p id) nofun (h.wake_goto hth (Or.inl ⟨Nat.le_refl _, Nat.le_refl _⟩))
  | waitLock =>
      cases hpc
      exact h.goto hth (by simp [Pc.locked]) hothers (Or.inl rfl) hreplays
        (fun p => hstay p id) nofun (h.wake_goto hth (Or.inl ⟨Nat.le_refl _, Nat.le_succ _⟩))
  | woken =>
      cases hpc
      exact h.goto hth (by simp [Pc.locked]) hothers (Or.inl rfl) hreplays
        (fun p => hstay p id) nofun (h.wake_goto hth (Or.inl ⟨Nat.le_refl _, Nat.le_refl _⟩))
  | tryLock =>
      cases hpc
      exact h.goto hth (by simp [Pc.locked]) hothers (Or.inl rfl) hreplays
        (fun p => hstay p id) nofun (h.wake_goto hth (Or.inl ⟨Nat.le_refl _, Nat.le_refl _⟩))
  | emptyLock =>
      cases hpc
      exact h.goto hth (by simp [Pc.locked]) hothers (Or.inl rfl) hreplays
        (fun p => hstay p id) nofun (h.wake_goto hth (Or.inl ⟨Nat.le_refl _, Nat.le_refl _⟩))
  | _ => cases hpc

/-- A step under the lock that has the effect `e`, or none. -/
theorem inv_effect (h : Inv s) (hth : s.threads[i]? = some pc) (hlocked : pc.locked = true) {pc' : Pc α}
    (hlocked' : pc'.locked = true) {e : Effect α} {op : Operation α} {r : Result α} {que : List α}
    (hchanges : Changes s.que e que) (hanswers : Answers op e r)
    (hphase : ∀ p, pc.PhaseIs p → p = .pending op) (hphase' : pc'.PhaseIs (.decided r))
    (hfront : pc' ≠ .waitPop) (hcount : pc'.asleep ≤ pc.asleep ∧
      que.length + pc.coming ≤ s.que.length + pc'.coming) :
    Inv (State.goto { s with que := que } i pc' [.effect e]) := by
  refine h.goto hth ?_ (fun j _ => Iff.rfl) (Or.inr hlocked) (h.replays.snoc hchanges) ?_
    (fun heq => absurd heq hfront) (h.wake_goto hth (Or.inl hcount))
  · rw [hlocked', ← h.mutex i pc hth, hlocked]
  · intro p hp hfollows
    obtain rfl := hphase p hp
    exact ⟨.decided r, hphase', hfollows.own (.effect hanswers)⟩

theorem Moves.inv (hmoves : Moves s i pc t) (h : Inv s) (hth : s.threads[i]? = some pc) : Inv t := by
  cases hmoves with
  | call op =>
      have hfree : s.mtx ≠ some i := fun hmtx => nomatch (h.mutex i _ hth).2 hmtx
      refine h.goto hth ?_ (fun j _ => Iff.rfl) (Or.inl rfl) ?_ ?_ ?_ (h.wake_goto hth ?_)
      · cases op <;> exact ⟨nofun, fun hmtx => absurd hmtx hfree⟩
      · simpa using h.replays
      · rintro p rfl hfollows
        exact ⟨.pending op, by cases op <;> rfl, hfollows.own (.call op)⟩
      · cases op <;> exact nofun
      · cases op <;> exact Or.inl ⟨Nat.le_refl _, Nat.le_refl _⟩
  | lock hpc hmtx => exact inv_lock h hth hpc hmtx
  | push val =>
      refine inv_effect h hth rfl rfl (.pushed s.que val) (.push val) (fun p => id) rfl nofun ?_
      exact ⟨Nat.le_refl _, by simp [Pc.coming]⟩
  | notifyNobody hnobody =>
      refine h.goto hth ?_ (fun j _ => Iff.rfl) (Or.inl rfl) ?_ ?_ nofun ?_
      · exact h.mutex i .notify hth
      · simpa using h.replays
      · rintro p rfl hfollows
        exact ⟨.decided .done, rfl, by simpa using hfollows⟩
      · intro hpos
        have hasleep : (s.goto i (.unlock .done) []).total Pc.asleep + 0 = s.total Pc.asleep + 0 :=
          total_goto Pc.asleep hth (.unlock .done) []
        rw [total_asleep_eq_zero hnobody] at hasleep
        omega
  | @notify j hj =>
      have hji : i ≠ j := by
        rintro rfl
        cases hth.symm.trans hj
      have hth' : (s.wake j).threads[i]? = some .notify :=
        (List.getElem?_set_ne (Ne.symm hji)).trans hth
      refine (h.woken hj).goto hth' ?_ (fun k _ => Iff.rfl) (Or.inl rfl) ?_ ?_ nofun ?_
      · exact h.mutex i .notify hth
      · have hreplays : Replays Changes [] (effects s.log ++ []) s.que := by simpa using h.replays
        exact hreplays
      · rintro p rfl hfollows
        exact ⟨.decided .done, rfl, by simpa using hfollows⟩
      · -- the one that was woken comes in the place of the one that woke it
        intro _
        have hasleep : (s.wake j).total Pc.asleep + 1 = s.total Pc.asleep + 0 := total_wake Pc.asleep hj
        have hcoming : (s.wake j).total Pc.coming + 0 = s.total Pc.coming + 1 := total_wake Pc.coming hj
        have hgoto : ((s.wake j).goto i (.unlock .done) []).total Pc.coming + 1 =
            (s.wake j).total Pc.coming + 0 := total_goto Pc.coming hth' (.unlock .done) []
        have hle := h.wake (by omega)
        omega
  | block hempty =>
      refine h.goto hth ?_ ?_ (Or.inl rfl) ?_ ?_ nofun (h.wake_goto hth (Or.inr hempty))
      · exact ⟨nofun, nofun⟩
      · exact fun j hj => ⟨nofun, fun hmtx => absurd hmtx (h.others_free hth rfl hj)⟩
      · simpa using h.replays
      · exact fun p hp hfollows => ⟨p, hp, by simpa using hfollows⟩
  | pass hnonempty =>
      refine h.goto hth ?_ (fun j _ => Iff.rfl) (Or.inl rfl) ?_ ?_ (fun _ => hnonempty)
        (h.wake_goto hth (Or.inl ⟨Nat.le_refl _, Nat.le_refl _⟩))
      · exact h.mutex i .waitTest hth
      · simpa using h.replays
      · exact fun p hp hfollows => ⟨p, hp, by simpa using hfollows⟩
  | @pop _ val que hpc hque =>
      have hchanges : Changes s.que (.popped val) que := by
        rw [hque]
        exact .popped que val
      have hlength : s.que.length = que.length + 1 := by rw [hque, List.length_cons]
      rcases hpc with rfl | rfl
      · refine inv_effect h hth rfl rfl hchanges (.waitAndPop val) (fun p => id) rfl nofun ?_
        exact ⟨Nat.le_refl _, by simp [Pc.coming, hlength]⟩
      · refine inv_effect h hth rfl rfl hchanges (.tryPop val) (fun p => id) rfl nofun ?_
        exact ⟨Nat.le_refl _, by simp [Pc.coming, hlength]⟩
  | popNothing hempty =>
      have hchanges : Changes s.que (.looked true) s.que := by
        rw [hempty]
        exact .looked []
      exact inv_effect h hth rfl rfl hchanges .tryPopEmpty (fun p => id) rfl nofun
        ⟨Nat.le_refl _, Nat.le_refl _⟩
  | look =>
      exact inv_effect h hth rfl rfl (.looked s.que) (.empty _) (fun p => id) rfl nofun
        ⟨Nat.le_refl _, Nat.le_refl _⟩
  | unlock result =>
      refine h.goto hth ?_ ?_ (Or.inl rfl) ?_ ?_ nofun
        (h.wake_goto hth (Or.inl ⟨Nat.le_refl _, Nat.le_refl _⟩))
      · exact ⟨nofun, nofun⟩
      · exact fun j hj => ⟨nofun, fun hmtx => absurd hmtx (h.others_free hth rfl hj)⟩
      · simpa using h.replays
      · rintro p rfl hfollows
        exact ⟨.idle, rfl, hfollows.own (.ret result)⟩
  | spurious => exact h.woken hth

theorem step_inv {e : Event α} (h : Inv s) (hstep : step s e = some t) : Inv t := by
  obtain ⟨i, pc, hth, hmoves, -⟩ := step_moves hstep
  exact hmoves.inv h hth

theorem run_inv {n : Nat} {es : List (Event α)} (hrun : Run step (start n) es s) : Inv s :=
  hrun.invariant (fun _ _ _ hs hstep => step_inv hs hstep) (start_inv n)

/-! ## First in, first out -/

def Effect.pushed? : Effect α → Option α
  | .pushed val => some val
  | _ => none

def Effect.popped? : Effect α → Option α
  | .popped val => some val
  | _ => none

/-- A sequential queue holds what was pushed and not yet popped, in the order of the pushes. -/
theorem pushed_eq {es : List (Effect α)} {que : List α} (h : Replays Changes [] es que) :
    es.filterMap Effect.pushed? = es.filterMap Effect.popped? ++ que := by
  induction h with
  | nil =>
      rfl
  | @snoc es que que' e _ hchanges ih =>
      rw [List.filterMap_append, List.filterMap_append, ih]
      cases hchanges with
      | pushed val => simp [List.filterMap_cons, Effect.pushed?, Effect.popped?]
      | popped val => simp [List.filterMap_cons, Effect.pushed?, Effect.popped?]
      | looked => simp [List.filterMap_cons, Effect.pushed?, Effect.popped?]

/-- `ts_queue` in any run of any number of threads: the effects are those of a sequential queue with the
contents of `que`, so the elements leave in the order in which they came, each once; each thread's calls
take one effect each, under the mutex, and return what it says.  A thread is at one of the points under
the mutex exactly while it holds it, so no two are. -/
theorem ts_queue_fifo {n : Nat} {es : List (Event α)} (hrun : Run step (start n) es s) :
    Replays Changes [] (effects s.log) s.que ∧
      (effects s.log).filterMap Effect.pushed? = (effects s.log).filterMap Effect.popped? ++ s.que ∧
      (∀ (i : Nat) (pc : Pc α), s.threads[i]? = some pc →
        (pc.locked = true ↔ s.mtx = some i) ∧ ∃ p, pc.PhaseIs p ∧ Follows Answers i s.log p) ∧
      ∀ (i j : Nat) (pc pc' : Pc α), s.threads[i]? = some pc → s.threads[j]? = some pc' →
        pc.locked = true → pc'.locked = true → i = j := by
  have h := run_inv hrun
  refine ⟨h.replays, pushed_eq h.replays, fun i pc hth => ⟨h.mutex i pc hth, h.phase i pc hth⟩, ?_⟩
  intro i j pc pc' hth hth' hlocked hlocked'
  have hi := (h.mutex i pc hth).1 hlocked
  have hj := (h.mutex j pc' hth').1 hlocked'
  exact Option.some.inj (hi.symm.trans hj)

/-- Two threads wait; a third pushes, and the one that is woken gets the element only after a fourth has
pushed as well. -/
theorem ts_queue_fifo_waiting :
    ∃ s : State Nat, Run step (start 3)
        [.call 0 .waitAndPop, .move 0, .move 0, .call 1 .waitAndPop, .move 1, .move 1,
          .call 2 (.push 5), .move 2, .move 2, .notifyOne 2 (some 1), .move 2, .call 2 (.push 6),
          .move 2, .move 2, .notifyOne 2 (some 0), .move 2, .move 1, .move 1, .move 1, .move 1] s ∧
      effects s.log = [.pushed 5, .pushed 6, .popped 5] ∧ s.que = [6] ∧
      (effects s.log).filterMap Effect.pushed? =
        (effects s.log).filterMap Effect.popped? ++ s.que := by
  obtain ⟨s, hexec, heffects, hque⟩ : ∃ s : State Nat, exec step (start 3)
      [.call 0 .waitAndPop, .move 0, .move 0, .call 1 .waitAndPop, .move 1, .move 1,
        .call 2 (.push 5), .move 2, .move 2, .notifyOne 2 (some 1), .move 2, .call 2 (.push 6),
        .move 2, .move 2, .notifyOne 2 (some 0), .move 2, .move 1, .move 1, .move 1, .move 1] = some s ∧
      effects s.log = [.pushed 5, .pushed 6, .popped 5] ∧ s.que = [6] := ⟨_, rfl, rfl, rfl⟩
  have hrun := run_of_exec hexec
  exact ⟨s, hrun, heffects, hque, (ts_queue_fifo hrun).2.1⟩

/-! ## No wake-up is lost -/

/-- An upper bound of the steps that the thread can make by itself; a `notify` makes up for those of the
thread that it wakes. -/
def Pc.rank : Pc α → Nat
  | .idle => 0
  | .waiting => 0
  | .unlock _ => 1
  | .waitPop => 2
  | .tryPop => 2
  | .empty => 2
  | .waitTest => 3
  | .tryLock => 3
  | .emptyLock => 3
  | .waitLock => 4
  | .woken => 4
  | .notify => 6
  | .push _ => 7
  | .pushLock _ => 8

theorem rank_acquires {pc' : Pc α} (h : pc.acquires = some pc') : pc'.rank < pc.rank := by
  cases pc <;> cases h <;> simp [Pc.rank]

theorem total_rank_lt (hth : s.threads[i]? = some pc) {pc' : Pc α} (hlt : pc'.rank < pc.rank)
    (acts : List (Act (Operation α) (Effect α) (Result α))) :
    (s.goto i pc' acts).total Pc.rank < s.total Pc.rank := by
  have hsum := total_goto Pc.rank hth pc' acts
  omega

theorem Moves.rank (hmoves : Moves s i pc t) (hth : s.threads[i]? = some pc) (hidle : pc ≠ .idle)
    (hwaiting : pc ≠ .waiting) : t.total Pc.rank < s.total Pc.rank := by
  cases hmoves with
  | call op => exact absurd rfl hidle
  | spurious => exact absurd rfl hwaiting
  | lock hpc _ => exact total_rank_lt hth (rank_acquires hpc) []
  | push val => exact total_rank_lt hth (by simp [Pc.rank]) [.effect (.pushed val)]
  | notifyNobody _ => exact total_rank_lt hth (by simp [Pc.rank]) []
  | @notify j hj =>
      have hji : i ≠ j := by
        rintro rfl
        cases hth.symm.trans hj
      have hth' : (s.wake j).threads[i]? = some .notify :=
        (List.getElem?_set_ne (Ne.symm hji)).trans hth
      have hwake : (s.wake j).total Pc.rank + 0 = s.total Pc.rank + 4 := total_wake Pc.rank hj
      have hgoto : ((s.wake j).goto i (.unlock .done) []).total Pc.rank + 6 =
          (s.wake j).total Pc.rank + 1 := total_goto Pc.rank hth' (.unlock .done) []
      omega
  | block _ => exact total_rank_lt hth (by simp [Pc.rank]) []
  | pass _ => exact total_rank_lt hth (by simp [Pc.rank]) []
  | @pop _ val _ hpc _ =>
      rcases hpc with rfl | rfl
      · exact total_rank_lt hth (by simp [Pc.rank]) [.effect (.popped val)]
      · exact total_rank_lt hth (by simp [Pc.rank]) [.effect (.popped val)]
  | popNothing _ => exact total_rank_lt hth (by simp [Pc.rank]) [.effect (.looked true)]
  | look => exact total_rank_lt hth (by simp [Pc.rank]) [.effect (.looked s.que.isEmpty)]
  | unlock result => exact total_rank_lt hth (by simp [Pc.rank]) [.ret result]

theorem Pc.locked_or_acquires (pc : Pc α) :
    pc.locked = true ∨ pc = .idle ∨ pc = .waiting ∨ ∃ pc', pc.acquires = some pc' := by
  cases pc <;> simp [Pc.locked, Pc.acquires]

theorem move_acquires {pc' : Pc α} (h : pc.acquires = some pc') : move s i pc = s.lock i pc' := by
  cases pc <;> cases h <;> rfl

/-- No thread can go on by itself. -/
def Quiet (s : State α) : Prop := ∀ e, e.internal = true → step s e = none

/-- A thread that holds the mutex can go on. -/
theorem locked_moves (h : Inv s) (hth : s.threads[i]? = some pc) (hlocked : pc.locked = true) :
    ∃ e t, e.internal = true ∧ step s e = some t := by
  cases pc with
  | notify =>
      cases hnobody : s.threads.any Pc.isWaiting with
      | false =>
          exact ⟨.notifyOne i none, _, rfl, by simp [step, hth, notifyOne, hnobody]; rfl⟩
      | true =>
          obtain ⟨pcj, hmem, hpcj⟩ := List.any_eq_true.1 hnobody
          obtain ⟨j, hj⟩ := List.getElem?_of_mem hmem
          cases pcj with
          | waiting => exact ⟨.notifyOne i (some j), _, rfl, by simp [step, hth, notifyOne, hj]; rfl⟩
          | _ => cases hpcj
  | waitTest =>
      cases hempty : s.que.isEmpty with
      | true => exact ⟨.move i, _, rfl, by simp [step, hth, move, hempty]; rfl⟩
      | false => exact ⟨.move i, _, rfl, by simp [step, hth, move, hempty]; rfl⟩
  | waitPop =>
      cases hque : s.que with
      | nil => exact absurd hque (h.front i hth)
      | cons val que => exact ⟨.move i, _, rfl, by simp [step, hth, move, hque]; rfl⟩
  | tryPop =>
      cases hque : s.que with
      | nil => exact ⟨.move i, _, rfl, by simp [step, hth, move, hque]; rfl⟩
      | cons val que => exact ⟨.move i, _, rfl, by simp [step, hth, move, hque]; rfl⟩
  | push val => exact ⟨.move i, _, rfl, by simp [step, hth, move]; rfl⟩
  | empty => exact ⟨.move i, _, rfl, by simp [step, hth, move]; rfl⟩
  | unlock result => exact ⟨.move i, _, rfl, by simp [step, hth, move]; rfl⟩
  | _ => cases hlocked

/-- Where nobody can go on, nobody holds the mutex, and who has not returned sleeps for want of an
element. -/
theorem quiet_threads (h : Inv s) (hquiet : Quiet s) :
    s.mtx = none ∧ ∀ pc ∈ s.threads, pc = .idle ∨ pc = .waiting ∧ s.que = [] := by
  have hmtx : s.mtx = none := by
    cases hmtx : s.mtx with
    | none => rfl
    | some i =>
        have hlt := h.owner i hmtx
        have hth : s.threads[i]? = some (s.threads[i]) := List.getElem?_eq_getElem hlt
        obtain ⟨e, t, he, hstep⟩ := locked_moves h hth ((h.mutex i _ hth).2 hmtx)
        rw [hquiet e he] at hstep
        cases hstep
  have hblocked : ∀ pc ∈ s.threads, pc = .idle ∨ pc = .waiting := by
    intro pc hpc
    obtain ⟨i, hth⟩ := List.getElem?_of_mem hpc
    rcases pc.locked_or_acquires with hlocked | hidle | hwaiting | ⟨pc', hacquires⟩
    · rw [(h.mutex i pc hth).1 hlocked] at hmtx
      cases hmtx
    · exact Or.inl hidle
    · exact Or.inr hwaiting
    · have hmove := hquiet (.move i) rfl
      simp only [step, hth, move_acquires hacquires, State.lock, hmtx] at hmove
      cases hmove
  refine ⟨hmtx, fun pc hpc => (hblocked pc hpc).imp_right ?_⟩
  rintro rfl
  refine ⟨rfl, ?_⟩
  -- nobody comes for an element, so there is none
  have hcoming : s.total Pc.coming = 0 := by
    refine List.sum_eq_zero ?_
    intro x hx
    obtain ⟨pc, hpc, rfl⟩ := List.mem_map.1 hx
    rcases hblocked pc hpc with rfl | rfl <;> rfl
  have hasleep : 0 < s.total Pc.asleep := by
    have hle := List.single_le_sum (l := s.threads.map Pc.asleep) (fun _ _ => Nat.zero_le _) _
      (List.mem_map_of_mem (f := Pc.asleep) hpc)
    exact Nat.lt_of_lt_of_le Nat.one_pos hle
  have hlength := h.wake hasleep
  rw [hcoming] at hlength
  exact List.length_eq_zero_iff.1 (Nat.le_zero.1 hlength)

/-- No wake-up is lost, and nothing deadlocks: from any state that a run reaches, with no new call and no
spurious wake-up, the threads come to rest, after no more steps than their ranks add up to; and at rest
every thread has returned or waits in `wait_and_pop`, and waits only if the queue is empty. -/
theorem ts_queue_no_lost_wakeup {n : Nat} {es : List (Event α)} (hrun : Run step (start n) es s) :
    (∀ es' t, RunWithin step (fun _ e => e.internal = true) s es' t →
      es'.length + t.total Pc.rank ≤ s.total Pc.rank ∧
        (Quiet t → t.mtx = none ∧ ∀ pc ∈ t.threads, pc = .idle ∨ pc = .waiting ∧ t.que = [])) ∧
      ∃ es' t, RunWithin step (fun _ e => e.internal = true) s es' t ∧ Quiet t := by
  have h := run_inv hrun
  have hkeep : ∀ (s : State α) e t, Inv s → e.internal = true → step s e = some t →
      Inv t ∧ t.total Pc.rank < s.total Pc.rank := by
    intro s e t hs he hstep
    obtain ⟨i, pc, hth, hmoves, hpc⟩ := step_moves hstep
    exact ⟨hmoves.inv hs hth, hmoves.rank hth (hpc he).1 (hpc he).2⟩
  have hlength : ∀ es' t, RunWithin step (fun _ e => e.internal = true) s es' t →
      es'.length + t.total Pc.rank ≤ s.total Pc.rank :=
    fun es' t hrun' => hrun'.length_add_le hkeep h
  have hinv : ∀ es' t, RunWithin step (fun _ e => e.internal = true) s es' t → Inv t :=
    fun es' t hrun' => hrun'.invariant (fun _ _ _ hs he hstep => (hkeep _ _ _ hs he hstep).1) h
  refine ⟨fun es' t hrun' => ⟨hlength es' t hrun', quiet_threads (hinv es' t hrun')⟩, ?_⟩
  have hbound : ∀ es' t, RunWithin step (fun _ e => e.internal = true) s es' t →
      es'.length ≤ s.total Pc.rank :=
    fun es' t hrun' => Nat.le_of_add_right_le (hlength es' t hrun')
  refine exists_final hbound ?_
  · intro es' t _ hnot
    simp only [Quiet, not_forall] at hnot
    obtain ⟨e, he, hstep⟩ := hnot
    obtain ⟨u, hu⟩ := Option.ne_none_iff_exists'.1 hstep
    exact ⟨e, u, he, hu⟩

/-- A thread waits, an element is pushed, and the `notify_one` is still to come: the threads get to rest. -/
theorem ts_queue_no_lost_wakeup_push :
    ∃ s : State Nat, Run step (start 2)
        [.call 0 .waitAndPop, .move 0, .move 0, .call 1 (.push 5), .move 1, .move 1] s ∧
      s.threads = [.waiting, .notify] ∧
      ∃ es t, RunWithin step (fun _ e => e.internal = true) s es t ∧ Quiet t := by
  obtain ⟨s, hexec, hthreads⟩ : ∃ s : State Nat, exec step (start 2)
      [.call 0 .waitAndPop, .move 0, .move 0, .call 1 (.push 5), .move 1, .move 1] = some s ∧
      s.threads = [.waiting, .notify] := ⟨_, rfl, rfl⟩
  have hrun := run_of_exec hexec
  exact ⟨s, hrun, hthreads, (ts_queue_no_lost_wakeup hrun).2⟩

end TsQueue

end CppConcurrency
end MyCppCode
