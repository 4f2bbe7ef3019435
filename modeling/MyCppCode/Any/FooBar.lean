import MyCppCode.Foundation.TransitionSystem
import Mathlib.Logic.Function.Basic

/-!
# FooBar — the class `FooBar_1` of `any/concurrency/LT_1115_foobar.cpp`

Two threads take turns by the parity of an atomic counter that both increment: `foo` spins while the
counter modulo 2 is 1, `bar` while it is 0.  The counter is an `int` and wraps around; on a negative odd
value the remainder is -1, so that then neither of them waits.

* `step` gives the loads, prints and increments of the two threads, with the interleaving as events;
* `alternating k` is the beginning of `foo bar foo bar ...` of length `k`;
* `inv_step`: up to `n = 2 ^ 30 + 1` the thread that is past its spin loop is the one whose turn it is;
* `exists_run_rounds`: the run in strict rounds, up to the point where the counter has wrapped;
* `alternates_iff`: the values of `n` for which every run alternates.
-/

namespace MyCppCode
namespace Any
namespace FooBar

open Foundation

/-! ## The class -/

/-- The two threads, and what they print. -/
inductive Side
  | foo
  | bar
  deriving DecidableEq, Repr

inductive Pc
  | load
  | print
  | add
  deriving DecidableEq, Repr

/-- The loop variable of a thread and its place in the loop.  A thread has returned once `i` is `n`. -/
structure Local where
  i : Nat
  pc : Pc
  deriving DecidableEq, Repr

structure State where
  ati : Int
  thread : Side → Local
  printed : List Side

/-- The condition of the spin loop. -/
def waits (ati : Int) : Side → Bool
  | .foo => ati.tmod 2 = 1
  | .bar => ati.tmod 2 = 0

/-- `fetch_add(1)` and `+= 1` on an `std::atomic_int`. -/
def addOne (ati : Int) : Int := (ati + 1).bmod (2 ^ 32)

def start : State := ⟨0, fun _ => ⟨0, .load⟩, []⟩

def State.set (s : State) (t : Side) (l : Local) : State :=
  { s with thread := Function.update s.thread t l }

/-- One step of thread `t`: a load with the test of the spin loop, the print, or the increment. -/
def step (n : Int) (s : State) (t : Side) : Option State :=
  match (s.thread t).pc with
  | .load =>
      if ((s.thread t).i : Int) < n then
        if waits s.ati t then some s else some (s.set t ⟨(s.thread t).i, .print⟩)
      else
        none
  | .print => some { s.set t ⟨(s.thread t).i, .add⟩ with printed := s.printed ++ [t] }
  | .add => some { s.set t ⟨(s.thread t).i + 1, .load⟩ with ati := addOne s.ati }

/-- `foo bar foo bar ...`, the first `k` of it. -/
def alternating (k : Nat) : List Side :=
  (List.range k).map fun j => if j % 2 = 0 then .foo else .bar

/-- What the class is for: the output alternates, and is complete when both have returned. -/
def Alternates (n : Nat) (s : State) : Prop :=
  (∃ k, s.printed = alternating k) ∧
    ((∀ t, (s.thread t).i = n) → s.printed.count .foo = n ∧ s.printed.count .bar = n)

/-! ## Turns -/

def Side.parity : Side → Nat
  | .foo => 0
  | .bar => 1

theorem alternating_succ (k : Nat) (t : Side) (h : k % 2 = t.parity) :
    alternating (k + 1) = alternating k ++ [t] := by
  have hside : (if k % 2 = 0 then Side.foo else Side.bar) = t := by
    cases t with
    | foo => exact if_pos h
    | bar => exact if_neg (by rw [h]; decide)
  simp [alternating, List.range_succ, hside]

theorem parity_even (k : Nat) : (2 * k) % 2 = Side.foo.parity :=
  Nat.mul_mod_right 2 k

theorem parity_odd (k : Nat) : (2 * k + 1) % 2 = Side.bar.parity := by
  rw [Side.parity]
  omega

theorem length_alternating (k : Nat) : (alternating k).length = k := by
  simp [alternating]

theorem count_alternating (k : Nat) (t : Side) : (alternating (2 * k)).count t = k := by
  induction k with
  | zero => rfl
  | succ k ih =>
      have htwo : 2 * (k + 1) = 2 * k + 1 + 1 := by omega
      rw [htwo, alternating_succ _ _ (parity_odd k), alternating_succ _ _ (parity_even k),
        List.count_append, List.count_append, ih]
      cases t <;> rfl

/-- The number of increments. -/
def State.total (s : State) : Nat := (s.thread .foo).i + (s.thread .bar).i

theorem addOne_bmod (r : Nat) : addOne ((r : Int).bmod (2 ^ 32)) = ((r + 1 : Nat) : Int).bmod (2 ^ 32) := by
  unfold addOne
  rw [Int.bmod_add_bmod]
  rfl

/-- On a value with the other thread's parity a thread waits; `foo` as long as the counter has not
wrapped. -/
theorem waits_of_parity {r : Nat} {t : Side} (hparity : r % 2 ≠ t.parity)
    (hfoo : t = .foo → r < 2 ^ 31) : waits ((r : Int).bmod (2 ^ 32)) t = true := by
  cases t with
  | foo =>
      have hr : r < 2 ^ 31 := hfoo rfl
      have hodd : r % 2 = 1 := by
        rw [Side.parity] at hparity
        omega
      have hbmod : (r : Int).bmod (2 ^ 32) = r := by
        rw [Int.bmod_def]
        omega
      have htmod : (r : Int).tmod 2 = 1 := by
        rw [Int.tmod_eq_emod_of_nonneg (Int.natCast_nonneg r)]
        omega
      rw [hbmod, waits, htmod]
      rfl
  | bar =>
      have heven : r % 2 = 0 := by
        rw [Side.parity] at hparity
        omega
      have hdvd : (2 : Int) ∣ (r : Int).bmod (2 ^ 32) := by
        rw [Int.bmod_def]
        omega
      rw [waits, Int.dvd_iff_tmod_eq_zero.mp hdvd]
      rfl

/-- On a value with its own parity a thread never waits. -/
theorem not_waits_of_parity {r : Nat} {t : Side} (hparity : r % 2 = t.parity) :
    waits ((r : Int).bmod (2 ^ 32)) t = false := by
  have hdvd : (2 : Int) ∣ (r : Int).bmod (2 ^ 32) ↔ t = .foo := by
    rw [Int.bmod_def]
    cases t with
    | foo =>
        rw [Side.parity] at hparity
        simp only [iff_true]
        omega
    | bar =>
        rw [Side.parity] at hparity
        simp only [reduceCtorEq, iff_false]
        omega
  rw [Int.dvd_iff_tmod_eq_zero] at hdvd
  cases t with
  | foo =>
      rw [waits, hdvd.mpr rfl]
      rfl
  | bar =>
      rw [waits, decide_eq_false_iff_not]
      intro h
      cases hdvd.mp h

/-! ## Frame -/

theorem set_thread_self (s : State) (t : Side) (l : Local) : (s.set t l).thread t = l := by
  simp [State.set]

theorem set_thread_of_ne (s : State) {t u : Side} (h : u ≠ t) (l : Local) :
    (s.set t l).thread u = s.thread u := by
  simp [State.set, Function.update_of_ne h]

theorem set_printed (s : State) (t : Side) (l : Local) : (s.set t l).printed = s.printed := rfl

theorem set_i (s : State) (t u : Side) (pc : Pc) :
    ((s.set t ⟨(s.thread t).i, pc⟩).thread u).i = (s.thread u).i := by
  by_cases hut : u = t
  · subst hut
    rw [set_thread_self]
  · rw [set_thread_of_ne s hut]

theorem total_set (s : State) (t : Side) (pc : Pc) :
    (s.set t ⟨(s.thread t).i, pc⟩).total = s.total := by
  simp only [State.total, set_i]

theorem total_set_succ (s : State) (t : Side) (pc : Pc) :
    (s.set t ⟨(s.thread t).i + 1, pc⟩).total = s.total + 1 := by
  cases t <;> simp [State.total, State.set] <;> omega

/-! ## The invariant -/

/-- The counter counts the increments, `foo` is ahead by at most one, a thread past its spin loop has
the turn, and the output alternates, one ahead of the counter between a print and its increment. -/
structure Inv (n : Nat) (s : State) : Prop where
  ati : s.ati = (s.total : Int).bmod (2 ^ 32)
  order : (s.thread .foo).i = (s.thread .bar).i ∨ (s.thread .foo).i = (s.thread .bar).i + 1
  le : ∀ t, (s.thread t).i ≤ n
  turn : ∀ t, (s.thread t).pc ≠ .load → s.total % 2 = t.parity ∧ (s.thread t).i < n
  printed : ((∀ t, (s.thread t).pc ≠ .add) ∧ s.printed = alternating s.total) ∨
    ((∃ t, (s.thread t).pc = .add) ∧ s.printed = alternating (s.total + 1))

theorem inv_start (n : Nat) : Inv n start where
  ati := by simp [start, State.total]
  order := Or.inl rfl
  le := fun _ => Nat.zero_le n
  turn := fun _ h => absurd rfl h
  printed := Or.inl ⟨fun t h => (by cases h), rfl⟩

theorem Side.parity_inj {t u : Side} (h : t.parity = u.parity) : t = u := by
  cases t <;> cases u <;> first | rfl | cases h

/-- The other thread is at its load while one is past its own. -/
theorem Inv.load_of_ne {n : Nat} {s : State} (hs : Inv n s) {t u : Side}
    (ht : (s.thread t).pc ≠ .load) (hut : u ≠ t) : (s.thread u).pc = .load := by
  by_contra hu
  exact hut (Side.parity_inj ((hs.turn u hu).1.symm.trans (hs.turn t ht).1))

/-- A thread that gets past its spin loop has the turn. -/
theorem Inv.turn_of_not_waits {n : Nat} {s : State} (hn : n ≤ 2 ^ 30 + 1) (hs : Inv n s) {t : Side}
    (hi : (s.thread t).i < n) (h : waits s.ati t = false) : s.total % 2 = t.parity := by
  by_contra hparity
  have hwait : waits s.ati t = true := by
    rw [hs.ati]
    refine waits_of_parity hparity ?_
    rintro rfl
    -- on an odd total `foo` is one ahead, so the counter is still positive
    have horder := hs.order
    simp only [State.total, Side.parity] at hparity ⊢
    omega
  rw [h] at hwait
  cases hwait

/-- A thread that has the turn may change its place. -/
theorem Inv.turn_set {n : Nat} {s : State} {t u : Side} {pc : Pc} (hs : Inv n s)
    (hi : (s.thread t).i < n) (hturn : s.total % 2 = t.parity)
    (hu : ((s.set t ⟨(s.thread t).i, pc⟩).thread u).pc ≠ .load) :
    s.total % 2 = u.parity ∧ (s.thread u).i < n := by
  by_cases hut : u = t
  · subst hut
    exact ⟨hturn, hi⟩
  · rw [set_thread_of_ne s hut] at hu
    exact hs.turn u hu

theorem inv_load {n : Nat} {s : State} {t : Side} (hs : Inv n s) (hload : (s.thread t).pc = .load)
    (hi : (s.thread t).i < n) (hturn : s.total % 2 = t.parity) :
    Inv n (s.set t ⟨(s.thread t).i, .print⟩) where
  ati := by
    rw [total_set]
    exact hs.ati
  order := by
    rw [set_i, set_i]
    exact hs.order
  le := fun u => by
    rw [set_i]
    exact hs.le u
  turn := fun u hu => by
    rw [total_set, set_i]
    exact hs.turn_set hi hturn hu
  printed := by
    have hadd (u : Side) : ((s.set t ⟨(s.thread t).i, .print⟩).thread u).pc = .add ↔
        (s.thread u).pc = .add := by
      by_cases hut : u = t
      · subst hut
        simp [set_thread_self, hload]
      · rw [set_thread_of_ne s hut]
    rw [total_set]
    simpa only [ne_eq, hadd, set_printed] using hs.printed

theorem inv_print {n : Nat} {s : State} {t : Side} (hs : Inv n s)
    (hprint : (s.thread t).pc = .print) :
    Inv n { s.set t ⟨(s.thread t).i, .add⟩ with printed := s.printed ++ [t] } := by
  have hbusy : (s.thread t).pc ≠ .load := by
    rw [hprint]
    decide
  obtain ⟨hturn, hi⟩ := hs.turn t hbusy
  have htotal : State.total { s.set t ⟨(s.thread t).i, .add⟩ with printed := s.printed ++ [t] }
      = s.total := total_set s t .add
  have hold : s.printed = alternating s.total := by
    rcases hs.printed with ⟨-, h⟩ | ⟨⟨u, hu⟩, -⟩
    · exact h
    · by_cases hut : u = t
      · subst hut
        rw [hprint] at hu
        cases hu
      · rw [hs.load_of_ne hbusy hut] at hu
        cases hu
  refine ⟨?_, ?_, ?_, ?_, Or.inr ⟨⟨t, ?_⟩, ?_⟩⟩
  · rw [htotal]
    exact hs.ati
  · dsimp only
    rw [set_i, set_i]
    exact hs.order
  · intro u
    dsimp only
    rw [set_i]
    exact hs.le u
  · intro u hu
    dsimp only at hu ⊢
    rw [htotal, set_i]
    exact hs.turn_set hi hturn hu
  · dsimp only
    rw [set_thread_self]
  · rw [htotal, alternating_succ _ _ hturn, hold]

theorem inv_add {n : Nat} {s : State} {t : Side} (hs : Inv n s) (hadd : (s.thread t).pc = .add) :
    Inv n { s.set t ⟨(s.thread t).i + 1, .load⟩ with ati := addOne s.ati } := by
  have hbusy : (s.thread t).pc ≠ .load := by
    rw [hadd]
    decide
  obtain ⟨hturn, hi⟩ := hs.turn t hbusy
  have htotal : State.total { s.set t ⟨(s.thread t).i + 1, .load⟩ with ati := addOne s.ati }
      = s.total + 1 := total_set_succ s t .load
  -- after the increment both threads are at their loads
  have hload : ∀ u, ((s.set t ⟨(s.thread t).i + 1, .load⟩).thread u).pc = .load := by
    intro u
    by_cases hut : u = t
    · subst hut
      rw [set_thread_self]
    · rw [set_thread_of_ne s hut]
      exact hs.load_of_ne hbusy hut
  refine ⟨?_, ?_, ?_, ?_, Or.inl ⟨?_, ?_⟩⟩
  · rw [htotal, ← addOne_bmod, ← hs.ati]
  · have horder := hs.order
    rw [State.total] at hturn
    dsimp only
    cases t with
    | foo =>
        rw [Side.parity] at hturn
        rw [set_thread_self, set_thread_of_ne s (by decide)]
        dsimp only
        omega
    | bar =>
        rw [Side.parity] at hturn
        rw [set_thread_self, set_thread_of_ne s (by decide)]
        dsimp only
        omega
  · intro u
    by_cases hut : u = t
    · subst hut
      dsimp only
      rw [set_thread_self]
      exact hi
    · dsimp only
      rw [set_thread_of_ne s hut]
      exact hs.le u
  · intro u hu
    exact absurd (hload u) hu
  · intro u hu
    rw [hload u] at hu
    cases hu
  · rw [htotal]
    rcases hs.printed with ⟨hnone, -⟩ | ⟨-, h⟩
    · exact absurd hadd (hnone t)
    · exact h

theorem inv_step {n : Nat} (hn : n ≤ 2 ^ 30 + 1) {s s' : State} {t : Side} (hs : Inv n s)
    (h : step n s t = some s') : Inv n s' := by
  unfold step at h
  split at h
  · rename_i hload
    split at h
    · rename_i hi
      split at h
      · cases h
        exact hs
      · rename_i hwaits
        cases h
        have hlt : (s.thread t).i < n := by omega
        exact inv_load hs hload hlt (hs.turn_of_not_waits hn hlt (by simpa using hwaits))
    · cases h
  · rename_i hprint
    cases h
    exact inv_print hs hprint
  · rename_i hadd
    cases h
    exact inv_add hs hadd

theorem Inv.alternates {n : Nat} {s : State} (hs : Inv n s) : Alternates n s := by
  have hturn := hs.turn
  rcases hs.printed with ⟨-, h⟩ | ⟨⟨t, ht⟩, h⟩
  · refine ⟨⟨_, h⟩, fun hall => ?_⟩
    have htotal : s.total = 2 * n := by
      rw [State.total, hall, hall]
      omega
    rw [h, htotal]
    exact ⟨count_alternating n .foo, count_alternating n .bar⟩
  · refine ⟨⟨_, h⟩, fun hall => ?_⟩
    have hlt := (hs.turn t (by rw [ht]; decide)).2
    rw [hall t] at hlt
    exact absurd hlt (Nat.lt_irrefl n)

/-! ## The counter past the end of the range -/

/-- What one iteration of a thread leaves. -/
def iterate (s : State) (t : Side) : State :=
  { s.set t ⟨(s.thread t).i + 1, .load⟩ with ati := addOne s.ati, printed := s.printed ++ [t] }

theorem iterate_ati {s : State} {r : Nat} (h : s.ati = (r : Int).bmod (2 ^ 32)) (t : Side) :
    (iterate s t).ati = ((r + 1 : Nat) : Int).bmod (2 ^ 32) :=
  (congrArg addOne h).trans (addOne_bmod r)

theorem iterate_thread_self (s : State) (t : Side) :
    (iterate s t).thread t = ⟨(s.thread t).i + 1, .load⟩ :=
  set_thread_self s t ⟨(s.thread t).i + 1, .load⟩

theorem iterate_thread_of_ne (s : State) {t u : Side} (h : u ≠ t) :
    (iterate s t).thread u = s.thread u :=
  set_thread_of_ne s h ⟨(s.thread t).i + 1, .load⟩

theorem iterate_printed (s : State) (t : Side) : (iterate s t).printed = s.printed ++ [t] := rfl

/-- A thread that does not have to wait can do an iteration alone. -/
theorem run_iterate {n r : Nat} {s : State} {t : Side} (hthread : s.thread t = ⟨r, .load⟩)
    (hr : r < n) (hgo : waits s.ati t = false) : Run (step n) s [t, t, t] (iterate s t) := by
  have hload : (s.thread t).pc = .load := by rw [hthread]
  have hi : (s.thread t).i < n := by
    rw [hthread]
    exact hr
  refine Run.cons (t := s.set t ⟨(s.thread t).i, .print⟩) ?_ (Run.cons
    (t := { s.set t ⟨(s.thread t).i, .add⟩ with printed := s.printed ++ [t] }) ?_ (Run.cons ?_ (Run.nil _)))
  · simp [step, hload, hi, hgo]
  · simp [step, State.set]
  · simp [step, State.set, iterate]

/-- The threads after `r` full rounds. -/
structure AfterRounds (r : Nat) (s : State) : Prop where
  ati : s.ati = ((2 * r : Nat) : Int).bmod (2 ^ 32)
  thread : ∀ t, s.thread t = ⟨r, .load⟩
  printed : s.printed = alternating (2 * r)

/-- `foo` and `bar` can go round by round. -/
theorem exists_run_rounds {n r : Nat} (hr : r ≤ n) :
    ∃ ts s, Run (step n) start ts s ∧ AfterRounds r s := by
  induction r with
  | zero => exact ⟨[], start, Run.nil start, by simp [start], fun _ => rfl, rfl⟩
  | succ r ih =>
      obtain ⟨ts, s, hrun, hs⟩ := ih (by omega)
      have hati := iterate_ati hs.ati .foo
      have hthread : (iterate s .foo).thread .bar = ⟨r, .load⟩ := by
        rw [iterate_thread_of_ne s (by decide), hs.thread]
      have hrunFoo : Run (step n) s [.foo, .foo, .foo] (iterate s .foo) := by
        refine run_iterate (hs.thread .foo) hr ?_
        rw [hs.ati]
        exact not_waits_of_parity (parity_even r)
      have hrunBar : Run (step n) (iterate s .foo) [.bar, .bar, .bar] (iterate (iterate s .foo) .bar) := by
        refine run_iterate hthread hr ?_
        rw [hati]
        exact not_waits_of_parity (parity_odd r)
      refine ⟨_, _, hrun.append (hrunFoo.append hrunBar), ?_, ?_, ?_⟩
      · exact iterate_ati hati .bar
      · intro t
        cases t with
        | foo => rw [iterate_thread_of_ne _ (by decide), iterate_thread_self, hs.thread]
        | bar => rw [iterate_thread_self, hthread]
      · have htwo : 2 * (r + 1) = 2 * r + 1 + 1 := by omega
        rw [htwo, alternating_succ _ _ (parity_odd r), alternating_succ _ _ (parity_even r),
          iterate_printed, iterate_printed, hs.printed]

theorem ne_alternating (r k : Nat) : alternating (2 * r) ++ [.foo] ++ [.foo] ≠ alternating k := by
  intro h
  have hlength : 2 * r + 1 + 1 = k := by
    simpa [length_alternating] using congrArg List.length h
  rw [← hlength, alternating_succ _ _ (parity_odd r)] at h
  cases (List.append_inj' h rfl).2

/-- Once the counter has wrapped to an odd negative value, `foo` does not wait for `bar`. -/
theorem exists_run_foo_foo {n : Nat} (hn : 2 ^ 30 + 1 < n) :
    ∃ ts s, Run (step n) start ts s ∧ ∀ k, s.printed ≠ alternating k := by
  -- `r` is kept a variable, so that nothing unfolds the power
  obtain ⟨r, hr⟩ : ∃ r, r = 2 ^ 30 := ⟨_, rfl⟩
  obtain ⟨ts, s, hrun, hs⟩ := exists_run_rounds (n := n) (r := r) (by omega)
  have hati := iterate_ati hs.ati .foo
  have hthread : (iterate s .foo).thread .foo = ⟨r + 1, .load⟩ := by
    rw [iterate_thread_self, hs.thread]
  have hwrapped : ((2 * r + 1 : Nat) : Int).bmod (2 ^ 32) = -(2 ^ 31 - 1) := by
    rw [hr]
    decide
  have hfirst : Run (step n) s [.foo, .foo, .foo] (iterate s .foo) := by
    refine run_iterate (hs.thread .foo) (by omega) ?_
    rw [hs.ati]
    exact not_waits_of_parity (parity_even r)
  -- the remainder of the negative counter is -1, which is not the 1 that `foo` waits on
  have hsecond : Run (step n) (iterate s .foo) [.foo, .foo, .foo] (iterate (iterate s .foo) .foo) := by
    refine run_iterate hthread (by omega) ?_
    rw [hati, hwrapped]
    decide
  refine ⟨_, _, hrun.append (hfirst.append hsecond), fun k hk => ?_⟩
  apply ne_alternating r k
  rw [← hk, iterate_printed, iterate_printed, hs.printed]

/-- Every run alternates, and is complete at the end, exactly for `n` up to `2 ^ 30 + 1`. -/
theorem alternates_iff (n : Nat) :
    (∀ ts s, Run (step n) start ts s → Alternates n s) ↔ n ≤ 2 ^ 30 + 1 := by
  constructor
  · intro hall
    by_contra hgt
    obtain ⟨ts, s, hrun, hbad⟩ := exists_run_foo_foo (Nat.lt_of_not_le hgt)
    obtain ⟨k, hk⟩ := (hall ts s hrun).1
    exact hbad k hk
  · intro hn ts s hrun
    have hs : Inv n s := hrun.invariant (fun _ _ _ hs hstep => inv_step hn hs hstep) (inv_start n)
    exact hs.alternates

/-- For `n = 2 ^ 30 + 2`, an `int`, a run prints `foo` twice in a row. -/
theorem not_alternates_large :
    ¬ ∀ ts s, Run (step ((2 ^ 30 + 2 : Nat) : Int)) start ts s → Alternates (2 ^ 30 + 2) s := by
  intro hall
  obtain ⟨ts, s, hrun, hbad⟩ := exists_run_foo_foo (n := 2 ^ 30 + 2) (by decide)
  obtain ⟨k, hk⟩ := (hall ts s hrun).1
  exact hbad k hk

end FooBar
end Any
end MyCppCode
