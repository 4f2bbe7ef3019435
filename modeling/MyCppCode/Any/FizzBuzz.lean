import MyCppCode.Foundation.TransitionSystem
import Mathlib.Algebra.Group.Int.Defs
import Mathlib.Logic.Function.Basic

/-!
# FizzBuzz — the two classes of `any/concurrency/LT_1195_fizzbuzz.cpp`

Four threads share a counter and print the fizz-buzz words of `1..n` between them.  `FizzBuzz` guards
the counter by a mutex and a condition variable; `FizzBuzz_` has an atomic counter that each thread
polls, and acts on the value it has loaded before.

* `output k` is the sequential output for `1..k`;
* `FizzBuzz.step` and `FizzBuzz_.step` are the threads' steps, with the interleaving as events;
* `inv_step` of either class: the counter and what is printed belong together, and only the thread the
  counter value is for can be on its way to print it;
* `FizzBuzz.exists_step`: no wake-up is lost, so the four threads are never all blocked;
* `printed_of_run`: what either class prints, in every run.
-/

namespace MyCppCode
namespace Any
namespace Lt1195

open Foundation

/-! ## Words -/

inductive Thread
  | fizz
  | buzz
  | fizzbuzz
  | number
  deriving DecidableEq, Repr

def Thread.all : List Thread := [.fizz, .buzz, .fizzbuzz, .number]

theorem Thread.mem_all (t : Thread) : t ∈ Thread.all := by
  cases t <;> decide

/-- The state of a thread after another state was set: the new one, or what it was before. -/
theorem of_update_eq {α : Type} {pc : Thread → α} {t u : Thread} {v w : α}
    (h : Function.update pc t v u = w) : (u = t ∧ v = w) ∨ pc u = w := by
  by_cases hut : u = t
  · subst hut
    rw [Function.update_self] at h
    exact Or.inl ⟨rfl, h⟩
  · rw [Function.update_of_ne hut] at h
    exact Or.inr h

/-- What the four callbacks output. -/
inductive Word
  | fizz
  | buzz
  | fizzbuzz
  | number (x : Int)
  deriving DecidableEq, Repr

/-- The callback of a thread, called with the value `x` of the counter. -/
def Thread.print (x : Int) : Thread → Word
  | .fizz => .fizz
  | .buzz => .buzz
  | .fizzbuzz => .fizzbuzz
  | .number => .number x

/-- The word for `i` in a sequential program. -/
def word (i : Nat) : Word :=
  if i % 15 = 0 then .fizzbuzz
  else if i % 3 = 0 then .fizz
  else if i % 5 = 0 then .buzz
  else .number i

/-- The sequential output for `1..k`. -/
def output (k : Nat) : List Word :=
  (List.range k).map fun i => word (i + 1)

theorem output_succ (k : Nat) : output (k + 1) = output k ++ [word (k + 1)] := by
  simp [output, List.range_succ]

theorem output_beginning {j k : Nat} (h : j ≤ k) : output j <+: output k := by
  induction h with
  | refl => exact List.prefix_rfl
  | step _ ih =>
      rw [output_succ]
      exact ih.trans (List.prefix_append _ _)

/-! ## Whose turn it is -/

namespace FizzBuzz

/-- The conditions the threads wait for, beside `idx > n`. -/
def fizz (idx : Int) : Bool := idx.tmod 3 = 0 ∧ idx.tmod 5 ≠ 0
def buzz (idx : Int) : Bool := idx.tmod 3 ≠ 0 ∧ idx.tmod 5 = 0
def fizzbuzz (idx : Int) : Bool := idx.tmod 3 = 0 ∧ idx.tmod 5 = 0
def number (idx : Int) : Bool := idx.tmod 3 ≠ 0 ∧ idx.tmod 5 ≠ 0

def turn (idx : Int) : Thread → Bool
  | .fizz => fizz idx
  | .buzz => buzz idx
  | .fizzbuzz => fizzbuzz idx
  | .number => number idx

end FizzBuzz

namespace FizzBuzz_

/-- The conditions under which the threads print the value they have loaded. -/
def fizz (t2 : Int) : Bool := t2.tmod 3 = 0 ∧ t2.tmod 5 ≠ 0
def buzz (t2 : Int) : Bool := t2.tmod 3 ≠ 0 ∧ t2.tmod 5 = 0
def fizzbuzz (t2 : Int) : Bool := t2.tmod 15 = 0
def number (t2 : Int) : Bool := t2.tmod 3 ≠ 0 ∧ t2.tmod 5 ≠ 0

def turn (t2 : Int) : Thread → Bool
  | .fizz => fizz t2
  | .buzz => buzz t2
  | .fizzbuzz => fizzbuzz t2
  | .number => number t2

/-- The two classes agree on whose turn it is. -/
theorem turn_eq (t2 : Int) (t : Thread) : turn t2 t = FizzBuzz.turn t2 t := by
  cases t with
  | fizz => rfl
  | buzz => rfl
  | number => rfl
  | fizzbuzz =>
      have hiff : t2.tmod 15 = 0 ↔ t2.tmod 3 = 0 ∧ t2.tmod 5 = 0 := by
        rw [← Int.dvd_iff_tmod_eq_zero, ← Int.dvd_iff_tmod_eq_zero, ← Int.dvd_iff_tmod_eq_zero]
        omega
      simp [turn, FizzBuzz.turn, fizzbuzz, FizzBuzz.fizzbuzz, hiff]

end FizzBuzz_

namespace FizzBuzz

/-- At most one thread's turn. -/
theorem turn_unique {x : Int} {t u : Thread} (ht : turn x t) (hu : turn x u) : t = u := by
  cases t <;> cases u <;>
    simp_all [turn, fizz, buzz, fizzbuzz, number]

/-- Some thread's turn. -/
theorem exists_turn (x : Int) : ∃ t, turn x t := by
  by_cases h3 : x.tmod 3 = 0 <;> by_cases h5 : x.tmod 5 = 0
  · exact ⟨.fizzbuzz, by simp [turn, fizzbuzz, h3, h5]⟩
  · exact ⟨.fizz, by simp [turn, fizz, h3, h5]⟩
  · exact ⟨.buzz, by simp [turn, buzz, h3, h5]⟩
  · exact ⟨.number, by simp [turn, number, h3, h5]⟩

/-- The thread whose turn it is prints the word of the sequential program. -/
theorem print_of_turn {i : Nat} {t : Thread} (h : turn i t) : t.print i = word i := by
  have h3 : (i : Int).tmod 3 = 0 ↔ i % 3 = 0 := by
    rw [← Int.dvd_iff_tmod_eq_zero]
    omega
  have h5 : (i : Int).tmod 5 = 0 ↔ i % 5 = 0 := by
    rw [← Int.dvd_iff_tmod_eq_zero]
    omega
  cases t with
  | fizz =>
      have hi : i % 3 = 0 ∧ ¬ i % 5 = 0 := by simpa [turn, fizz, h3, h5] using h
      have h15 : ¬ i % 15 = 0 := by omega
      rw [word, if_neg h15, if_pos hi.1]
      rfl
  | buzz =>
      have hi : ¬ i % 3 = 0 ∧ i % 5 = 0 := by simpa [turn, buzz, h3, h5] using h
      have h15 : ¬ i % 15 = 0 := by omega
      rw [word, if_neg h15, if_neg hi.1, if_pos hi.2]
      rfl
  | fizzbuzz =>
      have hi : i % 3 = 0 ∧ i % 5 = 0 := by simpa [turn, fizzbuzz, h3, h5] using h
      have h15 : i % 15 = 0 := by omega
      rw [word, if_pos h15]
      rfl
  | number =>
      have hi : ¬ i % 3 = 0 ∧ ¬ i % 5 = 0 := by simpa [turn, number, h3, h5] using h
      have h15 : ¬ i % 15 = 0 := by omega
      rw [word, if_neg h15, if_neg hi.1, if_neg hi.2]
      rfl

/-! ## The class with the mutex -/

inductive Pc
  | ready
  | waiting
  | returned
  deriving DecidableEq, Repr

structure State where
  idx : Int
  pc : Thread → Pc
  printed : List Word

/-- What happens next: a thread takes the mutex, and `notify_one`, if it comes to that, wakes `woken`;
or a thread wakes up by itself. -/
inductive Event
  | enter (t : Thread) (woken : Option Thread)
  | spurious (t : Thread)
  deriving DecidableEq, Repr

def start : State := ⟨1, fun _ => .ready, []⟩

/-- `cv.notify_one()`: one of the waiting threads, if there are any. -/
def notify_one (pc : Thread → Pc) : Option Thread → Option (Thread → Pc)
  | some w => if pc w = .waiting then some (Function.update pc w .ready) else none
  | none => if Thread.all.any (pc · = .waiting) then none else some pc

def notify_all (pc : Thread → Pc) : Thread → Pc :=
  fun t => if pc t = .waiting then .ready else pc t

/-- One critical section: the predicate of `wait` is evaluated under the mutex; where it is false the
thread blocks, else the body of the loop runs to its end. -/
def step (n : Int) (s : State) : Event → Option State
  | .enter t woken =>
      if s.pc t = .ready then
        -- the thread leaves its loop, and wakes another one to do the same
        if s.idx > n then
          (notify_one s.pc woken).map fun pc => { s with pc := Function.update pc t .returned }
        else if turn s.idx t then
          some ⟨s.idx + 1, notify_all s.pc, s.printed ++ [t.print s.idx]⟩
        else
          some { s with pc := Function.update s.pc t .waiting }
      else
        none
  | .spurious t =>
      if s.pc t = .waiting then some { s with pc := Function.update s.pc t .ready } else none

/-- After `k` words the counter is at `k + 1`, and a thread that waits or has returned has reason to. -/
structure Inv (n : Int) (k : Nat) (s : State) : Prop where
  idx : s.idx = k + 1
  bound : (k : Int) ≤ max n 0
  printed : s.printed = output k
  returned : ∀ t, s.pc t = .returned → n < s.idx
  waiting : ∀ t, s.pc t = .waiting → ¬ n < s.idx ∧ turn s.idx t = false

theorem inv_start (n : Int) : Inv n 0 start where
  idx := rfl
  bound := Int.le_max_right _ _
  printed := rfl
  returned := fun t h => by cases h
  waiting := fun t h => by cases h

/-- What `notify_one` leaves waiting was waiting before, and what has returned had returned. -/
theorem notify_one_spec {pc pc' : Thread → Pc} {woken : Option Thread}
    (h : notify_one pc woken = some pc') (t : Thread) :
    (pc' t = .waiting → pc t = .waiting) ∧ (pc' t = .returned → pc t = .returned) := by
  cases woken with
  | none =>
      simp only [notify_one] at h
      split at h
      · cases h
      · cases h
        exact ⟨id, id⟩
  | some w =>
      simp only [notify_one] at h
      split at h
      · cases h
        by_cases htw : t = w
        · subst htw
          simp
        · simp [Function.update_of_ne htw]
      · cases h

theorem notify_all_spec (pc : Thread → Pc) (t : Thread) :
    notify_all pc t ≠ .waiting ∧ (notify_all pc t = .returned → pc t = .returned) := by
  unfold notify_all
  split
  · simp
  · rename_i hne
    exact ⟨hne, id⟩

/-- What a step can do: return, print and count, block, or wake up. -/
theorem step_cases {n : Int} {s s' : State} {e : Event} (h : step n s e = some s') :
    (∃ t woken pc, n < s.idx ∧ notify_one s.pc woken = some pc ∧
      s' = { s with pc := Function.update pc t .returned }) ∨
    (∃ t, ¬ n < s.idx ∧ turn s.idx t ∧
      s' = ⟨s.idx + 1, notify_all s.pc, s.printed ++ [t.print s.idx]⟩) ∨
    (∃ t, ¬ n < s.idx ∧ turn s.idx t = false ∧
      s' = { s with pc := Function.update s.pc t .waiting }) ∨
    (∃ t, s' = { s with pc := Function.update s.pc t .ready }) := by
  cases e with
  | enter t woken =>
      simp only [step] at h
      split at h
      · split at h
        · rename_i hgt
          obtain ⟨pc, hpc, hs'⟩ := Option.map_eq_some_iff.mp h
          exact Or.inl ⟨t, woken, pc, hgt, hpc, hs'.symm⟩
        · rename_i hle
          split at h
          · rename_i hturn
            exact Or.inr (Or.inl ⟨t, hle, hturn, (Option.some.inj h).symm⟩)
          · rename_i hturn
            exact Or.inr (Or.inr (Or.inl ⟨t, hle, by simpa using hturn, (Option.some.inj h).symm⟩))
      · cases h
  | spurious t =>
      simp only [step] at h
      split at h
      · exact Or.inr (Or.inr (Or.inr ⟨t, (Option.some.inj h).symm⟩))
      · cases h

/-- The invariant survives a change of who waits and who has returned, as long as each has reason to. -/
theorem Inv.setPc {n : Int} {k : Nat} {s : State} {pc : Thread → Pc} (hs : Inv n k s)
    (hreturned : ∀ t, pc t = .returned → s.pc t = .returned ∨ n < s.idx)
    (hwaiting : ∀ t, pc t = .waiting →
      s.pc t = .waiting ∨ (¬ n < s.idx ∧ turn s.idx t = false)) : Inv n k { s with pc := pc } where
  idx := hs.idx
  bound := hs.bound
  printed := hs.printed
  returned := fun t ht => (hreturned t ht).elim (hs.returned t) id
  waiting := fun t ht => (hwaiting t ht).elim (hs.waiting t) id

theorem inv_step {n : Int} {k : Nat} {s s' : State} {e : Event} (hs : Inv n k s)
    (h : step n s e = some s') : ∃ k', Inv n k' s' := by
  rcases step_cases h with ⟨t, woken, pc, hgt, hpc, rfl⟩ | ⟨t, hle, hturn, rfl⟩ |
    ⟨t, hle, hturn, rfl⟩ | ⟨t, rfl⟩
  · refine ⟨k, hs.setPc (fun _ _ => Or.inr hgt) fun u hu => ?_⟩
    rcases of_update_eq hu with ⟨-, hpc'⟩ | hold
    · cases hpc'
    · exact Or.inl ((notify_one_spec hpc u).1 hold)
  · have hidx := hs.idx
    refine ⟨k + 1, ?_, ?_, ?_, ?_, ?_⟩
    · dsimp only
      omega
    · omega
    · have hword : t.print ((k + 1 : Nat) : Int) = word (k + 1) :=
        print_of_turn (by rw [hidx] at hturn; exact hturn)
      dsimp only
      rw [hs.printed, output_succ, hidx, ← hword]
      rfl
    · intro u hu
      exact absurd (hs.returned u ((notify_all_spec s.pc u).2 hu)) hle
    · intro u hu
      exact absurd hu (notify_all_spec s.pc u).1
  · refine ⟨k, hs.setPc (fun u hu => ?_) fun u hu => ?_⟩
    · rcases of_update_eq hu with ⟨-, hpc⟩ | hold
      · cases hpc
      · exact Or.inl hold
    · rcases of_update_eq hu with ⟨rfl, -⟩ | hold
      · exact Or.inr ⟨hle, hturn⟩
      · exact Or.inl hold
  · refine ⟨k, hs.setPc (fun u hu => ?_) fun u hu => ?_⟩
    · rcases of_update_eq hu with ⟨-, hpc⟩ | hold
      · cases hpc
      · exact Or.inl hold
    · rcases of_update_eq hu with ⟨-, hpc⟩ | hold
      · cases hpc
      · exact Or.inl hold

theorem run_inv {n : Int} {es : List Event} {s : State} (h : Run (step n) start es s) :
    ∃ k, Inv n k s := by
  refine h.invariant (I := fun s => ∃ k, Inv n k s) ?_ ⟨0, inv_start n⟩
  rintro s e t ⟨k, hk⟩ hstep
  exact inv_step hk hstep

/-- No wake-up is lost: as long as a thread has not returned, some thread can take the mutex and go on,
without one waking up by itself. -/
theorem exists_step {n : Int} {es : List Event} {s : State} (h : Run (step n) start es s)
    (hleft : ∃ t, s.pc t ≠ .returned) :
    ∃ t woken s', step n s (.enter t woken) = some s' := by
  obtain ⟨k, hk⟩ := run_inv h
  by_cases hgt : n < s.idx
  · -- past `n` nobody waits: the last increment has woken all
    have hnone : ∀ t, s.pc t ≠ .waiting := fun t ht => (hk.waiting t ht).1 hgt
    obtain ⟨t, ht⟩ := hleft
    have hready : s.pc t = .ready := by
      cases hpc : s.pc t with
      | ready => rfl
      | waiting => exact absurd hpc (hnone t)
      | returned => exact absurd hpc ht
    refine ⟨t, none, { s with pc := Function.update s.pc t .returned }, ?_⟩
    simp [step, hready, hgt, notify_one, hnone]
  · -- the thread whose turn it is neither waits nor has returned
    obtain ⟨t, hturn⟩ := exists_turn s.idx
    have hready : s.pc t = .ready := by
      cases hpc : s.pc t with
      | ready => rfl
      | waiting =>
          have hfalse := (hk.waiting t hpc).2
          rw [hturn] at hfalse
          cases hfalse
      | returned => exact absurd (hk.returned t hpc) hgt
    refine ⟨t, none, ⟨s.idx + 1, notify_all s.pc, s.printed ++ [t.print s.idx]⟩, ?_⟩
    simp [step, hready, hgt, hturn]

/-- What the invariant says about the output. -/
theorem Inv.output {n : Int} {k : Nat} {s : State} (h : Inv n k s) :
    s.printed <+: output n.toNat ∧ ((∀ t, s.pc t = .returned) → s.printed = output n.toNat) := by
  have hle : k ≤ n.toNat := by
    have := h.bound
    omega
  rw [h.printed]
  refine ⟨output_beginning hle, fun hall => ?_⟩
  have hlt := h.returned .fizz (hall .fizz)
  have hidx := h.idx
  have heq : k = n.toNat := by omega
  rw [heq]

end FizzBuzz

/-! ## The class with the atomic counter -/

namespace FizzBuzz_

/-- Where a thread is in its loop, with the value `t2` it has loaded. -/
inductive Pc
  | load
  | print (t2 : Int)
  | add (t2 : Int)
  | returned
  deriving DecidableEq, Repr

structure State where
  ati : Int
  pc : Thread → Pc
  printed : List Word

def start : State := ⟨1, fun _ => .load, []⟩

/-- `ati += 1` on an `std::atomic_int`. -/
def addOne (ati : Int) : Int := (ati + 1).bmod (2 ^ 32)

/-- One step of thread `t`: the load with the tests on the loaded value, the print, or the increment. -/
def step (n : Int) (s : State) (t : Thread) : Option State :=
  match s.pc t with
  | .load =>
      if s.ati > n then some { s with pc := Function.update s.pc t .returned }
      else if turn s.ati t then some { s with pc := Function.update s.pc t (.print s.ati) }
      else some s
  | .print t2 =>
      some { s with pc := Function.update s.pc t (.add t2), printed := s.printed ++ [t.print t2] }
  | .add _ => some { s with ati := addOne s.ati, pc := Function.update s.pc t .load }
  | .returned => none

/-- The thread is past its tests with the value `t2`. -/
def Busy (s : State) (t : Thread) (t2 : Int) : Prop :=
  s.pc t = .print t2 ∨ s.pc t = .add t2

/-- After `k` increments: a thread past its tests has the current value and the turn, and the word for
it is printed once that thread is about to increment. -/
structure Inv (n : Int) (k : Nat) (s : State) : Prop where
  ati : s.ati = k + 1
  bound : (k : Int) ≤ max n 0
  busy : ∀ t t2, Busy s t t2 → t2 = s.ati ∧ s.ati ≤ n ∧ FizzBuzz.turn s.ati t
  returned : ∀ t, s.pc t = .returned → n < s.ati
  printed : ((∀ t t2, s.pc t ≠ .add t2) ∧ s.printed = output k) ∨
    ((∃ t t2, s.pc t = .add t2) ∧ s.printed = output (k + 1))

theorem inv_start (n : Int) : Inv n 0 start where
  ati := rfl
  bound := Int.le_max_right _ _
  busy := by
    rintro t t2 (h | h) <;> cases h
  returned := fun t h => by cases h
  printed := Or.inl ⟨fun t t2 h => (by cases h), rfl⟩

/-- A thread that does not move is where it was. -/
theorem busy_of_update {s s' : State} {t u : Thread} {pc : Pc} {u2 : Int}
    (hpc : s'.pc = Function.update s.pc t pc) (hut : u ≠ t) (hu : Busy s' u u2) : Busy s u u2 := by
  rwa [Busy, hpc, Function.update_of_ne hut] at hu

/-- Only one thread is past its tests. -/
theorem Inv.busy_unique {n : Int} {k : Nat} {s : State} (hs : Inv n k s) {t u : Thread}
    {t2 u2 : Int} (ht : Busy s t t2) (hu : Busy s u u2) : u = t :=
  FizzBuzz.turn_unique (hs.busy u u2 hu).2.2 (hs.busy t t2 ht).2.2

theorem addOne_of_lt {ati : Int} (hpos : 0 < ati) (h : ati < 2 ^ 31 - 1) : addOne ati = ati + 1 := by
  unfold addOne
  rw [Int.bmod_def]
  omega

/-- A thread that leaves `load` without having the turn to print anything. -/
theorem inv_load {n : Int} {k : Nat} {s : State} {t : Thread} {pc : Pc} (hs : Inv n k s)
    (hload : s.pc t = .load)
    (hpc : (pc = .returned ∧ n < s.ati) ∨ (pc = .print s.ati ∧ s.ati ≤ n ∧ FizzBuzz.turn s.ati t)) :
    Inv n k { s with pc := Function.update s.pc t pc } where
  ati := hs.ati
  bound := hs.bound
  busy := by
    intro u t2 hu
    by_cases hut : u = t
    · subst hut
      rcases hpc with ⟨rfl, -⟩ | ⟨rfl, hle, hturn⟩
      · rcases hu with hu | hu <;> simp at hu
      · rcases hu with hu | hu
        · exact ⟨by simpa using hu.symm, hle, hturn⟩
        · simp at hu
    · exact hs.busy u t2 (busy_of_update rfl hut hu)
  returned := by
    intro u hu
    rcases of_update_eq hu with ⟨-, rfl⟩ | hold
    · rcases hpc with ⟨-, hgt⟩ | ⟨hpc, -⟩
      · exact hgt
      · cases hpc
    · exact hs.returned u hold
  printed := by
    have hadd (u : Thread) (t2 : Int) :
        Function.update s.pc t pc u = .add t2 ↔ s.pc u = .add t2 := by
      by_cases hut : u = t
      · subst hut
        rcases hpc with ⟨rfl, -⟩ | ⟨rfl, -⟩ <;> simp [hload]
      · rw [Function.update_of_ne hut]
    simpa only [ne_eq, hadd] using hs.printed

theorem inv_print {n : Int} {k : Nat} {s : State} {t : Thread} {t2 : Int} (hs : Inv n k s)
    (hprint : s.pc t = .print t2) :
    Inv n k { s with pc := Function.update s.pc t (.add t2), printed := s.printed ++ [t.print t2] } := by
  have ht : Busy s t t2 := Or.inl hprint
  obtain ⟨rfl, hle, hturn⟩ := hs.busy t t2 ht
  -- the only thread past its tests is the one that prints
  have hnone : ∀ u u2, s.pc u ≠ .add u2 := by
    intro u u2 hu
    obtain rfl := hs.busy_unique ht (Or.inr hu)
    rw [hprint] at hu
    cases hu
  have hold : s.printed = output k := by
    rcases hs.printed with ⟨-, h⟩ | ⟨⟨u, u2, hu⟩, -⟩
    · exact h
    · exact absurd hu (hnone u u2)
  have hword : t.print ((k + 1 : Nat) : Int) = word (k + 1) :=
    FizzBuzz.print_of_turn (by rw [hs.ati] at hturn; exact hturn)
  refine ⟨hs.ati, hs.bound, ?_, ?_, Or.inr ⟨⟨t, s.ati, by simp⟩, ?_⟩⟩
  · intro u u2 hu
    by_cases hut : u = t
    · subst hut
      rcases hu with hu | hu
      · simp at hu
      · exact ⟨by simpa using hu.symm, hle, hturn⟩
    · exact hs.busy u u2 (busy_of_update rfl hut hu)
  · intro u hu
    rcases of_update_eq hu with ⟨-, hpc⟩ | hold
    · cases hpc
    · exact hs.returned u hold
  · dsimp only
    rw [hold, output_succ, ← hword, hs.ati]
    rfl

theorem inv_add {n : Int} {k : Nat} {s : State} {t : Thread} {t2 : Int} (hn : n < 2 ^ 31 - 1)
    (hs : Inv n k s) (hadd : s.pc t = .add t2) :
    Inv n (k + 1) { s with ati := addOne s.ati, pc := Function.update s.pc t .load } := by
  have ht : Busy s t t2 := Or.inr hadd
  obtain ⟨rfl, hle, hturn⟩ := hs.busy t t2 ht
  have hati := hs.ati
  have hone : addOne s.ati = s.ati + 1 := addOne_of_lt (by omega) (by omega)
  -- every other thread is at its load: none has the turn, and none has seen the end
  have hidle : ∀ u u2, ¬ Busy { s with ati := addOne s.ati, pc := Function.update s.pc t .load } u u2 := by
    intro u u2 hu
    by_cases hut : u = t
    · subst hut
      rcases hu with hu | hu <;> simp at hu
    · exact hut (hs.busy_unique ht (busy_of_update rfl hut hu))
  refine ⟨?_, ?_, fun u u2 hu => absurd hu (hidle u u2), ?_, Or.inl ⟨?_, ?_⟩⟩
  · dsimp only
    omega
  · omega
  · intro u hu
    rcases of_update_eq hu with ⟨-, hpc⟩ | hold
    · cases hpc
    · have := hs.returned u hold
      omega
  · intro u u2 hu
    exact hidle u u2 (Or.inr hu)
  · rcases hs.printed with ⟨hnone, -⟩ | ⟨-, h⟩
    · exact absurd hadd (hnone t _)
    · exact h

theorem inv_step {n : Int} {k : Nat} {s s' : State} {t : Thread} (hn : n < 2 ^ 31 - 1)
    (hs : Inv n k s) (h : step n s t = some s') : ∃ k', Inv n k' s' := by
  unfold step at h
  split at h
  · rename_i hload
    split at h
    · rename_i hgt
      cases h
      exact ⟨k, inv_load hs hload (Or.inl ⟨rfl, hgt⟩)⟩
    · rename_i hle
      split at h
      · rename_i hturn
        cases h
        rw [turn_eq] at hturn
        exact ⟨k, inv_load hs hload (Or.inr ⟨rfl, by omega, hturn⟩)⟩
      · cases h
        exact ⟨k, hs⟩
  · rename_i t2 hprint
    cases h
    exact ⟨k, inv_print hs hprint⟩
  · rename_i t2 hadd
    cases h
    exact ⟨k + 1, inv_add hn hs hadd⟩
  · cases h

theorem run_inv {n : Int} (hn : n < 2 ^ 31 - 1) {ts : List Thread} {s : State}
    (h : Run (step n) start ts s) : ∃ k, Inv n k s := by
  refine h.invariant (I := fun s => ∃ k, Inv n k s) ?_ ⟨0, inv_start n⟩
  rintro s t s' ⟨k, hk⟩ hstep
  exact inv_step hn hk hstep

/-- What the invariant says about the output. -/
theorem Inv.output {n : Int} {k : Nat} {s : State} (h : Inv n k s) :
    s.printed <+: output n.toNat ∧ ((∀ t, s.pc t = .returned) → s.printed = output n.toNat) := by
  have hati := h.ati
  have hbound := h.bound
  rcases h.printed with ⟨-, hk⟩ | ⟨⟨t, t2, ht⟩, hk⟩
  · rw [hk]
    refine ⟨output_beginning (by omega), fun hall => ?_⟩
    have hlt := h.returned .fizz (hall .fizz)
    have heq : k = n.toNat := by omega
    rw [heq]
  · -- printed, not yet counted: a thread is still about to increment
    rw [hk]
    have hle := (h.busy t t2 (Or.inr ht)).2.1
    refine ⟨output_beginning (by omega), fun hall => ?_⟩
    rw [hall t] at ht
    cases ht

end FizzBuzz_

/-! ## Every run -/

/-- In every run of the four threads, of either class, what is printed is a prefix of the sequential
output, and all of it once the four have returned. -/
theorem printed_of_run {n : Int} (hn : n < 2 ^ 31 - 1) :
    (∀ es s, Run (FizzBuzz.step n) FizzBuzz.start es s →
      s.idx ≤ 2 ^ 31 - 1 ∧ s.printed <+: output n.toNat ∧
        ((∀ t, s.pc t = .returned) → s.printed = output n.toNat)) ∧
    (∀ ts s, Run (FizzBuzz_.step n) FizzBuzz_.start ts s →
      s.printed <+: output n.toNat ∧
        ((∀ t, s.pc t = .returned) → s.printed = output n.toNat)) := by
  constructor
  · intro es s hrun
    obtain ⟨k, hk⟩ := FizzBuzz.run_inv hrun
    have hidx := hk.idx
    have hbound := hk.bound
    exact ⟨by omega, hk.output⟩
  · intro ts s hrun
    obtain ⟨k, hk⟩ := FizzBuzz_.run_inv hn hrun
    exact hk.output

/-- Runs to the end for `n = 3`: in the first, `fizz` waits and is woken; in the second, it loads a
value that is not its turn. -/
theorem printed_of_run_three :
    (∃ es s, Run (FizzBuzz.step 3) FizzBuzz.start es s ∧ (∀ t, s.pc t = .returned) ∧
      s.printed = output (3 : Int).toNat) ∧
    (∃ ts s, Run (FizzBuzz_.step 3) FizzBuzz_.start ts s ∧ (∀ t, s.pc t = .returned) ∧
      s.printed = output (3 : Int).toNat) := by
  have hmain := printed_of_run (n := 3) (by decide)
  constructor
  · have hexec : (exec (FizzBuzz.step 3) FizzBuzz.start
        [.enter .fizz none, .enter .number none, .enter .number none, .enter .fizz none,
          .enter .fizz none, .enter .buzz none, .enter .number none, .enter .fizzbuzz none]).map
          (fun s => Thread.all.map s.pc) = some (Thread.all.map fun _ => .returned) := by
      decide +kernel
    obtain ⟨s, hs, hpc⟩ := Option.map_eq_some_iff.mp hexec
    have hall : ∀ t, s.pc t = .returned := fun t => List.map_inj_left.mp hpc t t.mem_all
    have hrun := run_of_exec hs
    exact ⟨_, s, hrun, hall, (hmain.1 _ s hrun).2.2 hall⟩
  · have hexec : (exec (FizzBuzz_.step 3) FizzBuzz_.start
        [.fizz, .number, .number, .fizz, .number, .number, .number, .number, .fizz, .fizz, .fizz,
          .buzz, .number, .fizzbuzz, .fizz]).map
          (fun s => Thread.all.map s.pc) = some (Thread.all.map fun _ => .returned) := by
      decide +kernel
    obtain ⟨s, hs, hpc⟩ := Option.map_eq_some_iff.mp hexec
    have hall : ∀ t, s.pc t = .returned := fun t => List.map_inj_left.mp hpc t t.mem_all
    have hrun := run_of_exec hs
    exact ⟨_, s, hrun, hall, (hmain.2 _ s hrun).2 hall⟩

end Lt1195
end Any
end MyCppCode
