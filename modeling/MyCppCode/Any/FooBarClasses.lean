import MyCppCode.Any.FooBar
import MyCppCode.Foundation.Machine

/-!
# FooBarClasses — the classes `FooBar` and `FooBar_2` of `any/concurrency/LT_1115_foobar.cpp`

The two other ways to let `foo` and `bar` take turns: two counting semaphores, and a mutex with a
condition variable.  `FooBar` has no race at all: at every moment one thread at most can move
(`FooBarSemaphore.reachable`).  In `FooBar_2` the threads compete for the mutex, sleep, and wake each
other, by one `notify_one` at each change of the counter; that this is enough is in the invariant
(`FooBar_2.Inv`).

A step that would be undefined is no step: a `release` beyond the maximum of the semaphore, or an
increment of an `int` that is as great as can be.  So a run that gets stuck only at its end meets
neither.
-/

namespace MyCppCode
namespace Any

open Foundation
open FooBar (Side alternating alternating_succ parity_even parity_odd)

/-! ## The class with the semaphores -/

namespace FooBarSemaphore

inductive Pc
  | acquire
  | print
  | release
  deriving DecidableEq, Repr

/-- The loop variable of a thread and its place in the loop. -/
structure Local where
  i : Nat
  pc : Pc
  deriving DecidableEq, Repr

/-- `semf` is the semaphore of `foo`, `semb` that of `bar`. -/
structure State where
  semf : Nat
  semb : Nat
  foo : Local
  bar : Local
  printed : List Side
  deriving DecidableEq, Repr

def start : State := ⟨1, 0, ⟨0, .acquire⟩, ⟨0, .acquire⟩, []⟩

/-- `acquire()`: blocks while the counter is 0. -/
def acquire (sem : Nat) : Option Nat :=
  match sem with
  | 0 => none
  | sem + 1 => some sem

/-- `release()` of a `counting_semaphore<1>`: the counter has to be below the maximum. -/
def release (sem : Nat) : Option Nat :=
  if sem < 1 then some (sem + 1) else none

/-- One step of a thread of the class with the loop bound `n`. -/
def step (n : Nat) (s : State) : Side → Option State
  | .foo =>
      match s.foo.pc with
      | .acquire =>
          if s.foo.i < n then
            (acquire s.semf).map fun sem => { s with semf := sem, foo := ⟨s.foo.i, .print⟩ }
          else none
      | .print => some { s with foo := ⟨s.foo.i, .release⟩, printed := s.printed ++ [.foo] }
      | .release =>
          (release s.semb).map fun sem => { s with semb := sem, foo := ⟨s.foo.i + 1, .acquire⟩ }
  | .bar =>
      match s.bar.pc with
      | .acquire =>
          if s.bar.i < n then
            (acquire s.semb).map fun sem => { s with semb := sem, bar := ⟨s.bar.i, .print⟩ }
          else none
      | .print => some { s with bar := ⟨s.bar.i, .release⟩, printed := s.printed ++ [.bar] }
      | .release =>
          (release s.semf).map fun sem => { s with semf := sem, bar := ⟨s.bar.i + 1, .acquire⟩ }

/-- The states in the order in which they come, six for each round. -/
inductive Reachable (n : Nat) : Nat → State → Prop where
  | fooTurn {r : Nat} : r ≤ n →
      Reachable n (6 * r) ⟨1, 0, ⟨r, .acquire⟩, ⟨r, .acquire⟩, alternating (2 * r)⟩
  | fooPrint {r : Nat} : r < n →
      Reachable n (6 * r + 1) ⟨0, 0, ⟨r, .print⟩, ⟨r, .acquire⟩, alternating (2 * r)⟩
  | fooRelease {r : Nat} : r < n →
      Reachable n (6 * r + 2) ⟨0, 0, ⟨r, .release⟩, ⟨r, .acquire⟩, alternating (2 * r + 1)⟩
  | barTurn {r : Nat} : r < n →
      Reachable n (6 * r + 3) ⟨0, 1, ⟨r + 1, .acquire⟩, ⟨r, .acquire⟩, alternating (2 * r + 1)⟩
  | barPrint {r : Nat} : r < n →
      Reachable n (6 * r + 4) ⟨0, 0, ⟨r + 1, .acquire⟩, ⟨r, .print⟩, alternating (2 * r + 1)⟩
  | barRelease {r : Nat} : r < n →
      Reachable n (6 * r + 5) ⟨0, 0, ⟨r + 1, .acquire⟩, ⟨r, .release⟩, alternating (2 * r + 2)⟩

theorem reachable_step {n k : Nat} {s t : State} {side : Side} (h : Reachable n k s)
    (hstep : step n s side = some t) : Reachable n (k + 1) t := by
  cases h with
  | @fooTurn r hr =>
      cases side with
      | foo =>
          simp only [step, acquire] at hstep
          split at hstep
          · cases hstep
            exact .fooPrint ‹_›
          · cases hstep
      | bar => simp [step, acquire] at hstep
  | @fooPrint r hr =>
      cases side with
      | foo =>
          cases hstep
          rw [← alternating_succ (2 * r) .foo (parity_even r)]
          exact .fooRelease hr
      | bar => simp [step, acquire] at hstep
  | @fooRelease r hr =>
      cases side with
      | foo =>
          cases hstep
          exact .barTurn hr
      | bar => simp [step, acquire] at hstep
  | @barTurn r hr =>
      cases side with
      | foo => simp [step, acquire] at hstep
      | bar =>
          simp only [step, acquire, if_pos hr] at hstep
          cases hstep
          exact .barPrint hr
  | @barPrint r hr =>
      cases side with
      | foo => simp [step, acquire] at hstep
      | bar =>
          cases hstep
          rw [← alternating_succ (2 * r + 1) .bar (parity_odd r)]
          exact .barRelease hr
  | @barRelease r hr =>
      cases side with
      | foo => simp [step, acquire] at hstep
      | bar =>
          cases hstep
          exact .fooTurn hr

/-- How many steps have been made says where the two threads are. -/
theorem reachable {n : Nat} {ts : List Side} {s : State} (hrun : Run (step n) start ts s) :
    Reachable n ts.length s := by
  have hgo : ∀ {k : Nat} {s t : State} {ts : List Side}, Reachable n k s → Run (step n) s ts t →
      Reachable n (k + ts.length) t := by
    intro k s t ts hs hrun
    induction hrun generalizing k with
    | nil s =>
        exact hs
    | @cons s u t side ts hstep _ ih =>
        rw [List.length_cons, ← Nat.add_assoc, Nat.add_right_comm]
        exact ih (reachable_step hs hstep)
  simpa using hgo (.fooTurn (Nat.zero_le n)) hrun

/-- The class `FooBar`, for every `n` and in every interleaving: the output alternates; one thread at
most can make a step; and nobody can exactly after the last of the `6 * n` steps, when both loops are
done and the output is complete.  So there is no deadlock, and no `release` of a semaphore that is at its
maximum. -/
theorem fooBar_alternates {n : Nat} {ts : List Side} {s : State} (hrun : Run (step n) start ts s) :
    (∃ k, k ≤ 2 * n ∧ s.printed = alternating k) ∧
      (∀ t u s₁ s₂, step n s t = some s₁ → step n s u = some s₂ → t = u) ∧
      ts.length ≤ 6 * n ∧ ((∀ t, step n s t = none) ↔ ts.length = 6 * n) ∧
      (ts.length = 6 * n → s.foo.i = n ∧ s.bar.i = n ∧ s.printed = alternating (2 * n)) := by
  generalize hk : ts.length = k
  have h := reachable hrun
  rw [hk] at h
  cases h with
  | @fooTurn r hr =>
      refine ⟨⟨2 * r, by omega, rfl⟩, ?_, by omega, ?_, ?_⟩
      · rintro (_ | _) (_ | _) s₁ s₂ h₁ h₂ <;> simp_all [step, acquire]
      · constructor
        · intro hstuck
          have hfoo := hstuck .foo
          simp only [step, acquire] at hfoo
          split at hfoo
          · cases hfoo
          · omega
        · intro hlast t
          cases t <;> simp [step, acquire]
          omega
      · intro hlast
        obtain rfl : r = n := by omega
        exact ⟨rfl, rfl, rfl⟩
  | @fooPrint r hr =>
      refine ⟨⟨2 * r, by omega, rfl⟩, ?_, by omega, ?_, by omega⟩
      · rintro (_ | _) (_ | _) s₁ s₂ h₁ h₂ <;> simp_all [step, acquire]
      · exact iff_of_false (fun hstuck => nomatch hstuck .foo) (by omega)
  | @fooRelease r hr =>
      refine ⟨⟨2 * r + 1, by omega, rfl⟩, ?_, by omega, ?_, by omega⟩
      · rintro (_ | _) (_ | _) s₁ s₂ h₁ h₂ <;> simp_all [step, acquire]
      · exact iff_of_false (fun hstuck => nomatch hstuck .foo) (by omega)
  | @barTurn r hr =>
      refine ⟨⟨2 * r + 1, by omega, rfl⟩, ?_, by omega, ?_, by omega⟩
      · rintro (_ | _) (_ | _) s₁ s₂ h₁ h₂ <;> simp_all [step, acquire]
      · refine iff_of_false (fun hstuck => ?_) (by omega)
        have hbar := hstuck .bar
        simp [step, acquire, hr] at hbar
  | @barPrint r hr =>
      refine ⟨⟨2 * r + 1, by omega, rfl⟩, ?_, by omega, ?_, by omega⟩
      · rintro (_ | _) (_ | _) s₁ s₂ h₁ h₂ <;> simp_all [step, acquire]
      · exact iff_of_false (fun hstuck => nomatch hstuck .bar) (by omega)
  | @barRelease r hr =>
      refine ⟨⟨2 * r + 2, by omega, rfl⟩, ?_, by omega, ?_, by omega⟩
      · rintro (_ | _) (_ | _) s₁ s₂ h₁ h₂ <;> simp_all [step, acquire]
      · exact iff_of_false (fun hstuck => nomatch hstuck .bar) (by omega)

theorem fooBar_alternates_one :
    ∃ s, Run (step 1) start [.foo, .foo, .foo, .bar, .bar, .bar] s ∧ s.printed = alternating (2 * 1) := by
  obtain ⟨s, hexec⟩ : ∃ s, exec (step 1) start [.foo, .foo, .foo, .bar, .bar, .bar] = some s := ⟨_, rfl⟩
  have hrun := run_of_exec hexec
  exact ⟨s, hrun, ((fooBar_alternates hrun).2.2.2.2 rfl).2.2⟩

end FooBarSemaphore

/-! ## The class with the condition variable -/

namespace FooBar_2

inductive Pc
  | lock
  | test
  | waiting
  | woken
  | print
  | add
  | notify
  | unlock
  deriving DecidableEq, Repr

structure Local where
  i : Nat
  pc : Pc
  deriving DecidableEq, Repr

/-- `cnt` is an `int` that starts at 0 and is only incremented. -/
structure State where
  mtx : Option Side
  cnt : Nat
  thread : Side → Local
  printed : List Side

/-- A thread makes its next step, or wakes up in `cv.wait` by itself. -/
inductive Event
  | move (t : Side)
  | spurious (t : Side)
  deriving DecidableEq, Repr

def start : State := ⟨none, 0, fun _ => ⟨0, .lock⟩, []⟩

def other : Side → Side
  | .foo => .bar
  | .bar => .foo

/-- The predicates that `foo` and `bar` wait for. -/
def pred (cnt : Nat) : Side → Bool
  | .foo => cnt % 2 = 0
  | .bar => cnt % 2 = 1

def State.set (s : State) (t : Side) (l : Local) : State :=
  { s with thread := Function.update s.thread t l }

/-- `cv.notify_one()` by `t`: only the other thread can be waiting. -/
def State.notify_one (s : State) (t : Side) : State :=
  match s.thread (other t) with
  | ⟨i, .waiting⟩ => s.set (other t) ⟨i, .woken⟩
  | _ => s

/-- One step of thread `t` of the class with the loop bound `n`. -/
def move (n : Nat) (s : State) (t : Side) : Option State :=
  match s.thread t with
  | ⟨i, .lock⟩ =>
      if i < n ∧ s.mtx = none then some { s.set t ⟨i, .test⟩ with mtx := some t } else none
  | ⟨i, .test⟩ =>
      if pred s.cnt t then some (s.set t ⟨i, .print⟩)
      else some { s.set t ⟨i, .waiting⟩ with mtx := none }
  | ⟨_, .waiting⟩ => none
  | ⟨i, .woken⟩ => if s.mtx = none then some { s.set t ⟨i, .test⟩ with mtx := some t } else none
  | ⟨i, .print⟩ => some { s.set t ⟨i, .add⟩ with printed := s.printed ++ [t] }
  | ⟨i, .add⟩ => if s.cnt < intMax then some { s.set t ⟨i, .notify⟩ with cnt := s.cnt + 1 } else none
  | ⟨i, .notify⟩ => some ((s.notify_one t).set t ⟨i, .unlock⟩)
  | ⟨i, .unlock⟩ => some { s.set t ⟨i + 1, .lock⟩ with mtx := none }

def step (n : Nat) (s : State) : Event → Option State
  | .move t => move n s t
  | .spurious t =>
      match s.thread t with
      | ⟨i, .waiting⟩ => some (s.set t ⟨i, .woken⟩)
      | _ => none

/-! ## The invariant -/

/-- The thread has the mutex. -/
def Pc.locked : Pc → Bool
  | .test => true
  | .print => true
  | .add => true
  | .notify => true
  | .unlock => true
  | _ => false

/-- The thread has found its predicate true, and has not changed the counter yet. -/
def Pc.hasTurn : Pc → Bool
  | .print => true
  | .add => true
  | _ => false

/-- How often the thread has incremented the counter. -/
def Local.done (l : Local) : Nat :=
  match l.pc with
  | .notify => l.i + 1
  | .unlock => l.i + 1
  | _ => l.i

/-- The thread has printed, and not incremented the counter yet. -/
def Local.ahead (l : Local) : Nat :=
  match l.pc with
  | .add => 1
  | _ => 0

/-- What is known of the thread `t` at `l`, with the other one at `o`.  `wake`: who sleeps although it
is its turn is about to be woken. -/
structure SideOk (n cnt : Nat) (mtx : Option Side) (t : Side) (l o : Local) : Prop where
  mutex : l.pc.locked = true ↔ mtx = some t
  le : l.i ≤ n
  inside : l.pc ≠ .lock → l.i < n
  turn : l.pc.hasTurn = true → cnt % 2 = t.parity
  wake : l.pc = .waiting → cnt % 2 = t.parity → o.pc = .notify
  done : l.done = (cnt + 1 - t.parity) / 2

structure Inv (n : Nat) (s : State) : Prop where
  sides : ∀ t, SideOk n s.cnt s.mtx t (s.thread t) (s.thread (other t))
  printed : s.printed = alternating (s.cnt + ((s.thread .foo).ahead + (s.thread .bar).ahead))

theorem start_inv (n : Nat) : Inv n start where
  sides := fun t =>
    ⟨by simp [start, Pc.locked], Nat.zero_le n, fun h => absurd rfl h, nofun, nofun, by cases t <;> rfl⟩
  printed := rfl

theorem other_other (t : Side) : other (other t) = t := by
  cases t <;> rfl

theorem other_ne (t : Side) : other t ≠ t := by
  cases t <;> decide

theorem eq_or_other (t u : Side) : u = t ∨ u = other t := by
  cases t <;> cases u <;> decide

theorem pred_iff (cnt : Nat) (t : Side) : pred cnt t = true ↔ cnt % 2 = t.parity := by
  cases t <;> simp [pred, FooBar.Side.parity]

@[simp] theorem set_thread (s : State) (t : Side) (l : Local) : (s.set t l).thread t = l :=
  Function.update_self ..

@[simp] theorem set_thread_other (s : State) (t : Side) (l : Local) :
    (s.set t l).thread (other t) = s.thread (other t) :=
  Function.update_of_ne (other_ne t) _ _

@[simp] theorem set_mtx (s : State) (t : Side) (l : Local) : (s.set t l).mtx = s.mtx := rfl

@[simp] theorem set_cnt (s : State) (t : Side) (l : Local) : (s.set t l).cnt = s.cnt := rfl

theorem sum_sides (f : Side → Nat) (t : Side) : f .foo + f .bar = f t + f (other t) := by
  cases t with
  | foo => rfl
  | bar => exact Nat.add_comm _ _

/-- The invariant, from the side of `t`. -/
theorem Inv.of_sides {n : Nat} {s : State} (t : Side)
    (ht : SideOk n s.cnt s.mtx t (s.thread t) (s.thread (other t)))
    (ho : SideOk n s.cnt s.mtx (other t) (s.thread (other t)) (s.thread t))
    (hprinted : s.printed = alternating (s.cnt + ((s.thread t).ahead + (s.thread (other t)).ahead))) :
    Inv n s := by
  refine ⟨fun u => ?_, ?_⟩
  · rcases eq_or_other t u with rfl | rfl
    · exact ht
    · rw [other_other]
      exact ho
  · rw [hprinted, sum_sides (fun u => (s.thread u).ahead) t]

variable {n cnt : Nat} {mtx mtx' : Option Side} {t u : Side} {l l' o : Local}

/-- The one thread moves, and the other one sees of it at most that the mutex is taken or given up. -/
theorem SideOk.other_moves (h : SideOk n cnt mtx u o l) (hmtx : mtx' = some u ↔ mtx = some u)
    (hl : l.pc ≠ .notify) : SideOk n cnt mtx' u o l' :=
  ⟨h.mutex.trans hmtx.symm, h.le, h.inside, h.turn,
    fun hwaiting hparity => absurd (h.wake hwaiting hparity) hl, h.done⟩

/-- A thread is not ahead while the other one has the mutex. -/
theorem SideOk.not_locked (h : SideOk n cnt (some t) (other t) o l) : o.pc.locked = false := by
  refine Bool.eq_false_iff.2 fun hlocked => other_ne t ?_
  exact (Option.some.inj (h.mutex.1 hlocked)).symm

theorem ahead_of_not_locked (h : l.pc.locked = false) : l.ahead = 0 := by
  obtain ⟨i, pc⟩ := l
  cases pc <;> first | rfl | cases h

theorem hasTurn_of_not_locked (h : l.pc.locked = false) : l.pc.hasTurn = false := by
  obtain ⟨i, pc⟩ := l
  cases pc <;> first | rfl | cases h

/-! ## Every move keeps it -/

variable {s s' : State} {i : Nat}

/-- The thread goes on to `pc` in its iteration, and takes or gives up the mutex or neither. -/
theorem Inv.go (h : Inv n s) (hl : s.thread t = l) {pc' : Pc}
    (hmutex : pc'.locked = true ↔ mtx' = some t)
    (hothers : mtx' = some (other t) ↔ s.mtx = some (other t)) (hnotify : l.pc ≠ .notify)
    (hinside : l.i < n) (hturn : pc'.hasTurn = true → s.cnt % 2 = t.parity)
    (hwake : pc' = .waiting → s.cnt % 2 ≠ t.parity)
    (hdone : (⟨l.i, pc'⟩ : Local).done = l.done) (hahead : (⟨l.i, pc'⟩ : Local).ahead = l.ahead) :
    Inv n { s.set t ⟨l.i, pc'⟩ with mtx := mtx' } := by
  subst hl
  have ht := h.sides t
  have ho := h.sides (other t)
  rw [other_other] at ho
  refine Inv.of_sides t ?_ ?_ ?_
  · simp only [set_thread, set_thread_other]
    exact ⟨hmutex, ht.le, fun _ => hinside, hturn,
      fun hwaiting hparity => absurd hparity (hwake hwaiting), hdone.trans ht.done⟩
  · simp only [set_thread, set_thread_other]
    exact ho.other_moves hothers hnotify
  · simp only [set_thread, set_thread_other, hahead]
    rw [← sum_sides (fun u => (s.thread u).ahead) t]
    exact h.printed

/-- Locking the mutex. -/
theorem inv_lock (h : Inv n s) (hl : s.thread t = l) (hpc : l.pc = .lock ∨ l.pc = .woken)
    (hi : l.i < n) (hmtx : s.mtx = none) :
    Inv n { s.set t ⟨l.i, .test⟩ with mtx := some t } := by
  refine h.go hl (by simp [Pc.locked]) ?_ ?_ hi nofun nofun ?_ ?_
  · rw [hmtx]
    exact ⟨fun heq => absurd (Option.some.inj heq).symm (other_ne t), nofun⟩
  · rcases hpc with hpc | hpc <;> rw [hpc] <;> decide
  · rcases hpc with hpc | hpc <;> simp [Local.done, hpc]
  · rcases hpc with hpc | hpc <;> simp [Local.ahead, hpc]

/-- What holds of the two threads while `t` has the mutex. -/
theorem Inv.locked (h : Inv n s) (hl : s.thread t = ⟨i, pc⟩) (hlocked : pc.locked = true) :
    s.mtx = some t ∧ i < n ∧ (s.thread (other t)).pc.locked = false ∧
      SideOk n s.cnt (some t) t ⟨i, pc⟩ (s.thread (other t)) ∧
      SideOk n s.cnt (some t) (other t) (s.thread (other t)) ⟨i, pc⟩ := by
  have ht := h.sides t
  have ho := h.sides (other t)
  rw [other_other, hl] at ho
  rw [hl] at ht
  have hmtx := ht.mutex.1 hlocked
  rw [hmtx] at ht ho
  refine ⟨hmtx, ht.inside ?_, ho.not_locked, ht, ho⟩
  rintro rfl
  cases hlocked

theorem inv_print (h : Inv n s) (hl : s.thread t = ⟨i, .print⟩) :
    Inv n { s.set t ⟨i, .add⟩ with printed := s.printed ++ [t] } := by
  obtain ⟨hmtx, hi, hother, ht, ho⟩ := h.locked hl rfl
  have hparity := ht.turn rfl
  have hprinted := h.printed
  rw [sum_sides (fun u => (s.thread u).ahead) t, hl, ahead_of_not_locked hother] at hprinted
  refine Inv.of_sides t ?_ ?_ ?_
  · simp only [set_thread, set_thread_other, set_mtx, set_cnt, hmtx]
    exact ⟨by simp [Pc.locked], ht.le, fun _ => hi, fun _ => hparity, nofun, ht.done⟩
  · simp only [set_thread, set_thread_other, set_mtx, set_cnt, hmtx]
    exact ho.other_moves Iff.rfl nofun
  · simp only [set_thread, set_thread_other, set_cnt, ahead_of_not_locked hother]
    rw [hprinted]
    exact (alternating_succ s.cnt t hparity).symm

theorem inv_add (h : Inv n s) (hl : s.thread t = ⟨i, .add⟩) :
    Inv n { s.set t ⟨i, .notify⟩ with cnt := s.cnt + 1 } := by
  obtain ⟨hmtx, hi, hother, ht, ho⟩ := h.locked hl rfl
  have hparity := ht.turn rfl
  have hprinted := h.printed
  rw [sum_sides (fun u => (s.thread u).ahead) t, hl, ahead_of_not_locked hother] at hprinted
  have hdone := ht.done
  have hdone' := ho.done
  simp only [Local.done] at hdone
  refine Inv.of_sides t ?_ ?_ ?_
  · simp only [set_thread, set_thread_other, set_mtx, hmtx]
    refine ⟨by simp [Pc.locked], ht.le, fun _ => hi, nofun, nofun, ?_⟩
    simp only [Local.done]
    cases t <;> simp only [FooBar.Side.parity] at hparity hdone ⊢ <;> omega
  · simp only [set_thread, set_thread_other, set_mtx, hmtx]
    refine ⟨ho.mutex, ho.le, ho.inside, ?_, fun _ _ => rfl, ?_⟩
    · rw [hasTurn_of_not_locked hother]
      exact fun hturn => absurd hturn Bool.false_ne_true
    · rw [hdone']
      cases t <;> simp only [FooBar.Side.parity, other] at hparity ⊢ <;> omega
  · simp only [set_thread, set_thread_other, ahead_of_not_locked hother]
    exact hprinted

/-- Waking up, by `notify_one` or spuriously. -/
theorem inv_woken (h : Inv n s) (hl : s.thread t = ⟨i, .waiting⟩) : Inv n (s.set t ⟨i, .woken⟩) := by
  have ht := h.sides t
  rw [hl] at ht
  exact h.go hl ht.mutex Iff.rfl nofun (ht.inside nofun) nofun nofun rfl rfl

theorem notify_one_thread (s : State) (t : Side) : (s.notify_one t).thread t = s.thread t := by
  unfold State.notify_one
  split
  · have hne : t ≠ other t := Ne.symm (other_ne t)
    exact Function.update_of_ne hne _ _
  · rfl

theorem inv_notify_one (h : Inv n s) (t : Side) :
    Inv n (s.notify_one t) ∧ ((s.notify_one t).thread (other t)).pc ≠ .waiting := by
  unfold State.notify_one
  split
  · rename_i j hother
    refine ⟨inv_woken h hother, ?_⟩
    rw [set_thread]
    exact nofun
  · rename_i hnot
    refine ⟨h, fun hpc => hnot (s.thread (other t)).i ?_⟩
    rw [← hpc]

theorem inv_notify (h : Inv n s) (hl : s.thread t = ⟨i, .notify⟩) :
    Inv n ((s.notify_one t).set t ⟨i, .unlock⟩) := by
  obtain ⟨h', hawake⟩ := inv_notify_one h t
  have hl' : (s.notify_one t).thread t = ⟨i, .notify⟩ := (notify_one_thread s t).trans hl
  obtain ⟨hmtx, hi, hother, ht, ho⟩ := h'.locked hl' rfl
  have hprinted := h'.printed
  rw [sum_sides (fun u => ((s.notify_one t).thread u).ahead) t, hl'] at hprinted
  refine Inv.of_sides t ?_ ?_ ?_
  · simp only [set_thread, set_thread_other, set_mtx, set_cnt, hmtx]
    exact ⟨by simp [Pc.locked], ht.le, fun _ => hi, nofun, nofun, ht.done⟩
  · simp only [set_thread, set_thread_other, set_mtx, set_cnt, hmtx]
    exact ⟨ho.mutex, ho.le, ho.inside, ho.turn, fun hwaiting => absurd hwaiting hawake, ho.done⟩
  · simp only [set_thread, set_thread_other]
    exact hprinted

theorem inv_unlock (h : Inv n s) (hl : s.thread t = ⟨i, .unlock⟩) :
    Inv n { s.set t ⟨i + 1, .lock⟩ with mtx := none } := by
  obtain ⟨hmtx, hi, hother, ht, ho⟩ := h.locked hl rfl
  have hprinted := h.printed
  rw [sum_sides (fun u => (s.thread u).ahead) t, hl] at hprinted
  refine Inv.of_sides t ?_ ?_ ?_
  · simp only [set_thread, set_thread_other]
    exact ⟨by simp [Pc.locked], hi, fun hne => absurd rfl hne, nofun, nofun, ht.done⟩
  · simp only [set_thread, set_thread_other]
    refine ho.other_moves ?_ nofun
    exact ⟨nofun, fun heq => absurd (Option.some.inj heq).symm (other_ne t)⟩
  · simp only [set_thread, set_thread_other]
    exact hprinted

theorem move_inv (h : Inv n s) (hmove : move n s t = some s') : Inv n s' := by
  unfold move at hmove
  split at hmove
  · rename_i i hl
    split at hmove
    · rename_i hfree
      cases hmove
      exact inv_lock h hl (Or.inl rfl) hfree.1 hfree.2
    · cases hmove
  · rename_i i hl
    obtain ⟨hmtx, hi, hother, ht, ho⟩ := h.locked hl rfl
    split at hmove
    · rename_i hpred
      cases hmove
      have hprint : Inv n { s.set t ⟨i, .print⟩ with mtx := s.mtx } :=
        h.go hl (by simp [Pc.locked, hmtx]) Iff.rfl nofun hi
          (fun _ => (pred_iff s.cnt t).1 hpred) nofun rfl rfl
      exact hprint
    · rename_i hpred
      cases hmove
      refine h.go hl (by simp [Pc.locked]) ?_ nofun hi nofun (fun _ hparity => ?_) rfl rfl
      · rw [hmtx]
        exact ⟨nofun, fun heq => absurd (Option.some.inj heq).symm (other_ne t)⟩
      · exact hpred ((pred_iff s.cnt t).2 hparity)
  · cases hmove
  · rename_i i hl
    split at hmove
    · rename_i hfree
      cases hmove
      have ht := h.sides t
      rw [hl] at ht
      exact inv_lock h hl (Or.inr rfl) (ht.inside nofun) hfree
    · cases hmove
  · rename_i i hl
    cases hmove
    exact inv_print h hl
  · rename_i i hl
    split at hmove
    · cases hmove
      exact inv_add h hl
    · cases hmove
  · rename_i i hl
    cases hmove
    exact inv_notify h hl
  · rename_i i hl
    cases hmove
    exact inv_unlock h hl

theorem step_inv {e : Event} (h : Inv n s) (hstep : step n s e = some s') : Inv n s' := by
  cases e with
  | move t => exact move_inv h hstep
  | spurious t =>
      simp only [step] at hstep
      split at hstep
      · rename_i i hl
        cases hstep
        exact inv_woken h hl
      · cases hstep

/-! ## Nothing gets stuck before the end -/

/-- A bound of the steps of the thread in its iteration; a `notify` makes up for those of the thread that
it wakes. -/
def Pc.rank : Pc → Nat
  | .unlock => 1
  | .notify => 4
  | .add => 5
  | .print => 6
  | .waiting => 6
  | .test => 7
  | .lock => 8
  | .woken => 8

def Local.rank (n : Nat) (l : Local) : Nat := 8 * (n - l.i) + l.pc.rank

def State.rank (n : Nat) (s : State) : Nat :=
  (s.thread .foo).rank n + (s.thread .bar).rank n

theorem rank_eq (n : Nat) (s : State) (t : Side) :
    s.rank n = (s.thread t).rank n + (s.thread (other t)).rank n :=
  sum_sides (fun u => (s.thread u).rank n) t

theorem rank_set (n : Nat) (s : State) (t : Side) (l : Local) :
    (s.set t l).rank n + (s.thread t).rank n = s.rank n + l.rank n := by
  rw [rank_eq n _ t, rank_eq n s t, set_thread, set_thread_other]
  omega

theorem rank_notify_one (n : Nat) (s : State) (t : Side) :
    (s.notify_one t).rank n ≤ s.rank n + 2 := by
  unfold State.notify_one
  split
  · rename_i j hother
    have hset := rank_set n s (other t) ⟨j, .woken⟩
    rw [hother] at hset
    simp only [Local.rank, Pc.rank] at hset
    omega
  · omega

theorem rank_lt (pc' : Pc) (hl : s.thread t = ⟨i, pc⟩) {j : Nat}
    (hlt : (⟨j, pc'⟩ : Local).rank n < (⟨i, pc⟩ : Local).rank n) :
    (s.set t ⟨j, pc'⟩).rank n < s.rank n := by
  have hset := rank_set n s t ⟨j, pc'⟩
  rw [hl] at hset
  omega

/-- Every step of a thread takes from the rank. -/
theorem move_rank (h : Inv n s) (hmove : move n s t = some s') : s'.rank n < s.rank n := by
  unfold move at hmove
  split at hmove
  · rename_i i hl
    split at hmove
    · cases hmove
      exact rank_lt .test hl (Nat.lt_succ_self _)
    · cases hmove
  · rename_i i hl
    split at hmove
    · cases hmove
      exact rank_lt _ hl (Nat.lt_succ_self _)
    · cases hmove
      exact rank_lt .waiting hl (Nat.lt_succ_self _)
  · cases hmove
  · rename_i i hl
    split at hmove
    · cases hmove
      exact rank_lt .test hl (Nat.lt_succ_self _)
    · cases hmove
  · rename_i i hl
    cases hmove
    exact rank_lt .add hl (Nat.lt_succ_self _)
  · rename_i i hl
    split at hmove
    · cases hmove
      exact rank_lt .notify hl (Nat.lt_succ_self _)
    · cases hmove
  · rename_i i hl
    cases hmove
    have hset := rank_set n (s.notify_one t) t ⟨i, .unlock⟩
    rw [notify_one_thread, hl] at hset
    have hwake := rank_notify_one n s t
    simp only [Local.rank, Pc.rank] at hset
    omega
  · rename_i i hl
    cases hmove
    obtain ⟨-, hi, -⟩ := h.locked hl rfl
    refine rank_lt .lock hl ?_
    simp only [Local.rank, Pc.rank]
    omega

/-- The thread that has the mutex can go on; the counter it increments is below the maximum. -/
theorem locked_moves (hn : n < 2 ^ 30) (h : Inv n s) (hlocked : (s.thread t).pc.locked = true) :
    move n s t ≠ none := by
  generalize hl : s.thread t = l at hlocked
  obtain ⟨i, pc⟩ := l
  obtain ⟨-, hi, -, ht, -⟩ := h.locked hl hlocked
  cases pc with
  | test =>
      simp only [move, hl]
      split <;> exact nofun
  | add =>
      have hparity := ht.turn rfl
      have hdone := ht.done
      simp only [Local.done] at hdone
      have hlt : s.cnt < intMax := by
        rw [intMax]
        cases t <;> simp only [FooBar.Side.parity] at hparity hdone <;> omega
      simp only [move, hl, if_pos hlt]
      exact Option.some_ne_none _
  | print => simp [move, hl]
  | notify => simp [move, hl]
  | unlock => simp [move, hl]
  | _ => cases hlocked

/-- Where neither thread can go on, the mutex is free, and each has returned or sleeps. -/
theorem stuck_cases (hn : n < 2 ^ 30) (h : Inv n s) (hstuck : ∀ t, move n s t = none) (t : Side) :
    (s.thread t).pc.locked = false ∧
      (s.thread t = ⟨n, .lock⟩ ∨ (s.thread t).pc = .waiting ∧ (s.thread t).i < n) := by
  have hnot : ∀ u, (s.thread u).pc.locked = false := fun u =>
    Bool.eq_false_iff.2 fun hlocked => locked_moves hn h hlocked (hstuck u)
  have hmtx : s.mtx = none := by
    cases hmtx : s.mtx with
    | none => rfl
    | some u =>
        have hlocked := (h.sides u).mutex.2 hmtx
        rw [hnot u] at hlocked
        cases hlocked
  refine ⟨hnot t, ?_⟩
  have hmove := hstuck t
  have hlt := hnot t
  have ht := h.sides t
  generalize hl : s.thread t = l at hlt ht
  obtain ⟨i, pc⟩ := l
  cases pc with
  | lock =>
      refine Or.inl ?_
      simp only [move, hl, hmtx, and_true] at hmove
      split at hmove
      · cases hmove
      · have hle := ht.le
        have hi : i = n := by
          simp only at hle
          omega
        rw [hi]
  | waiting => exact Or.inr ⟨rfl, ht.inside nofun⟩
  | woken =>
      simp only [move, hl, hmtx, if_true] at hmove
      cases hmove
  | _ => cases hlt

theorem stuck_done (hn : n < 2 ^ 30) (h : Inv n s) (hstuck : ∀ t, move n s t = none) :
    (∀ t, s.thread t = ⟨n, .lock⟩) ∧ s.printed = alternating (2 * n) := by
  have hcases := stuck_cases hn h hstuck
  have hreturned : ∀ t, s.thread t = ⟨n, .lock⟩ := by
    intro t
    refine (hcases t).2.resolve_right ?_
    rintro ⟨hwaiting, hi⟩
    -- it is not the turn of the one that sleeps, for nobody is about to wake it
    have hturn : s.cnt % 2 ≠ t.parity := by
      intro hparity
      have hnotify := (h.sides t).wake hwaiting hparity
      have hlocked := (hcases (other t)).1
      rw [hnotify] at hlocked
      cases hlocked
    have hdone := (h.sides t).done
    have hdone' := (h.sides (other t)).done
    rcases (hcases (other t)).2 with hret | ⟨hwaiting', -⟩
    · -- the other one has done all its rounds, and so has this one
      rw [hret] at hdone'
      simp only [Local.done, hwaiting] at hdone hdone'
      cases t <;> simp only [FooBar.Side.parity, other] at hturn hdone hdone' <;> omega
    · have hparity : s.cnt % 2 = (other t).parity := by
        cases t <;> simp only [FooBar.Side.parity, other] at hturn ⊢ <;> omega
      have hnotify := (h.sides (other t)).wake hwaiting' hparity
      rw [other_other, hwaiting] at hnotify
      cases hnotify
  refine ⟨hreturned, ?_⟩
  have hfoo := (h.sides .foo).done
  have hbar := (h.sides .bar).done
  have hprinted := h.printed
  rw [hreturned] at hfoo hbar
  rw [hreturned, hreturned] at hprinted
  simp only [Local.done, FooBar.Side.parity] at hfoo hbar
  have hcnt : s.cnt = 2 * n := by omega
  rw [hprinted, hcnt]
  rfl

/-- A thread that is about to count its word has a round left for it. -/
theorem SideOk.done_le {cnt : Nat} {mtx : Option Side} {t : Side} {l o : Local}
    (h : SideOk n cnt mtx t l o) : l.done + l.ahead ≤ n := by
  obtain ⟨i, pc⟩ := l
  have hle := h.le
  have hinside := h.inside
  cases pc with
  | add => exact hinside nofun
  | notify => exact hinside nofun
  | unlock => exact hinside nofun
  | _ => exact hle

theorem SideOk.turn_of_ahead {cnt : Nat} {mtx : Option Side} {t : Side} {l o : Local}
    (h : SideOk n cnt mtx t l o) (hahead : 0 < l.ahead) : cnt % 2 = t.parity := by
  obtain ⟨i, pc⟩ := l
  cases pc with
  | add => exact h.turn rfl
  | _ => exact absurd hahead (Nat.lt_irrefl 0)

/-- The output is no longer than that of all rounds. -/
theorem Inv.output_le (h : Inv n s) :
    s.cnt + ((s.thread .foo).ahead + (s.thread .bar).ahead) ≤ 2 * n := by
  have hfoo := (h.sides .foo).done_le
  have hbar := (h.sides .bar).done_le
  have hturn := (h.sides .foo).turn_of_ahead
  have hturn' := (h.sides .bar).turn_of_ahead
  have hdone := (h.sides .foo).done
  have hdone' := (h.sides .bar).done
  simp only [FooBar.Side.parity] at hturn hturn' hdone hdone'
  omega

/-- The class `FooBar_2` with a loop bound below 2^30, in every interleaving and with any spurious
wake-ups: the output alternates, and is never longer than that of `n` rounds; apart from spurious wake-ups
there are no more than `16 * n + 16` steps to come at the start, and none is missing: when neither thread
can go on, both have returned and the output is complete.  So no wake-up is lost, and the `int` does not
overflow. -/
theorem fooBar_2_alternates (hn : n < 2 ^ 30) {es : List Event} (hrun : Run (step n) start es s) :
    (∃ k, k ≤ 2 * n ∧ s.printed = alternating k) ∧
      (∀ ts s', Run (move n) s ts s' → ts.length + s'.rank n ≤ s.rank n) ∧
      State.rank n start = 16 * n + 16 ∧
      ((∀ t, move n s t = none) → (∀ t, s.thread t = ⟨n, .lock⟩) ∧ s.printed = alternating (2 * n)) := by
  have h : Inv n s := hrun.invariant (fun _ _ _ hs hstep => step_inv hs hstep) (start_inv n)
  refine ⟨⟨_, h.output_le, h.printed⟩, ?_, ?_, stuck_done hn h⟩
  · intro ts s' hrun'
    exact hrun'.length_add_le (fun _ _ _ hs hmove => ⟨move_inv hs hmove, move_rank hs hmove⟩) h
  · simp only [State.rank, start, Local.rank, Pc.rank]
    omega

/-- `bar` comes first and sleeps; `foo` wakes it, and both return. -/
theorem fooBar_2_alternates_one :
    ∃ s, Run (step 1) start
        ([.bar, .bar, .foo, .foo, .foo, .foo, .foo, .foo, .bar, .bar, .bar, .bar, .bar, .bar].map .move) s ∧
      s.printed = alternating (2 * 1) := by
  obtain ⟨s, hexec, hstuck⟩ : ∃ s, exec (step 1) start
      ([.bar, .bar, .foo, .foo, .foo, .foo, .foo, .foo, .bar, .bar, .bar, .bar, .bar, .bar].map .move) =
        some s ∧ ∀ t, move 1 s t = none := by
    refine ⟨_, rfl, ?_⟩
    intro t
    cases t <;> rfl
  have hrun := run_of_exec hexec
  exact ⟨s, hrun, ((fooBar_2_alternates (by decide) hrun).2.2.2 hstuck).2⟩

end FooBar_2

end Any
end MyCppCode
