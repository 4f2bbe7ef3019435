import Mathlib.Algebra.Group.Nat.Defs
import Mathlib.Data.List.Basic
import Mathlib.Logic.Function.Basic
import MyCppCode.Foundation.TransitionSystem

/-!
# TimerQueue — timers ordered by expiration, and the timerfd that is armed for the first of them

A `Timestamp` is its number of microseconds.  `m_timers` is a `std::set` of pairs of an expiration and
a `Timer*`; here it is the list of its elements in order.  A timer lives at an address; the addresses
in use are those that `new` has given out and `delete` has not taken back.

`Timestamp::now()` reads the wall clock.  Nothing is assumed about the values it returns: `clock` is
any sequence, and each call takes the next element of it.  The timerfd is a one-shot timer of another
clock, so it may fire whatever `now()` says.
-/

namespace MyCppCode
namespace MyServer
namespace TimerQueue

open Foundation

/-- The address of a `Timer`. -/
abbrev Ptr := Nat

/-- `std::pair<Timestamp, Timer*>`. -/
abbrev Entry := Int × Nat

/-- Two's complement reduction to 64 bits. -/
def wrap64 (i : Int) : Int := i.bmod (2 ^ 64)

structure Timer where
  expiration : Int
  /-- `m_interval` in microseconds, as `addTime` computes it from the `double`. -/
  interval : Int
  /-- `m_repeat`, that is `m_interval > 0.0`. -/
  repeats : Bool
  /-- History: the number of this timer among all that were created. -/
  serial : Nat
  deriving DecidableEq, Repr

/-- `struct timespec`, as the relative `it_value` of an armed timerfd. -/
structure Timespec where
  sec : Int
  nsec : Int
  deriving DecidableEq, Repr

structure State where
  timers : List Entry
  heap : Ptr → Timer
  live : List Ptr
  /-- The value the timerfd is armed with; `none` once it has expired and was read. -/
  timerfd : Option Timespec
  clock : Nat → Int
  ticks : Nat
  /-- History: the number of timers created. -/
  created : Nat
  /-- History: the timers whose callback was run, with the expiration they were run for. -/
  ran : List (Nat × Int)

/-- The arguments of `addTimer`, and the address that `new Timer` returns. -/
structure AddRequest where
  ptr : Ptr
  when : Int
  interval : Int
  repeats : Bool
  deriving DecidableEq, Repr

/-! ## The set of entries -/

/-- `operator<` of `std::pair`. -/
def entryLt (a b : Entry) : Prop :=
  a.1 < b.1 ∨ (¬ b.1 < a.1 ∧ a.2 < b.2)

instance (a b : Entry) : Decidable (entryLt a b) :=
  inferInstanceAs (Decidable (_ ∨ (_ ∧ _)))

/-- `std::set::insert`: at its place in the order, unless an equal element is there. -/
def insertEntry (e : Entry) : List Entry → List Entry
  | [] => [e]
  | x :: xs =>
      if entryLt e x then e :: x :: xs
      else if entryLt x e then x :: insertEntry e xs
      else x :: xs

/-- `UINTPTR_MAX`, the greatest pointer value, which is not the address of an object. -/
def uintptrMax : Nat := 0xFFFFFFFFFFFFFFFF

/-! ## Operations -/

def now (s : State) : Int × State :=
  (s.clock s.ticks, { s with ticks := s.ticks + 1 })

def kMicroSecondsPerSecond : Int := 1000 * 1000

/-- The relative time that `resetTimerfd` computes for `expiration` when `now()` returns `now`. -/
def timespecFor (expiration now : Int) : Timespec :=
  let microSecDiff := wrap64 (expiration - now)
  let microSecDiff := if microSecDiff < 100 then 100 else microSecDiff
  { sec := microSecDiff.tdiv kMicroSecondsPerSecond
    nsec := microSecDiff.tmod kMicroSecondsPerSecond * 1000 }

def resetTimerfd (s : State) (expiration : Int) : State :=
  let (now, s) := now s
  { s with timerfd := some (timespecFor expiration now) }

/-- `insert(timer)`: whether the timer is the new earliest one, and the queue with it. -/
def insert (s : State) (ptr : Ptr) : Bool × State :=
  let when := (s.heap ptr).expiration
  let earliestChanged :=
    match s.timers with
    | [] => true
    | first :: _ => decide (when < first.1)
  (earliestChanged, { s with timers := insertEntry (when, ptr) s.timers })

def addTimerInLoop (s : State) (ptr : Ptr) : State :=
  match insert s ptr with
  | (true, s') => resetTimerfd s' (s'.heap ptr).expiration
  | (false, s') => s'

/-- `addTimer` on the loop thread.  `new` returns an address that is not in use. -/
def addTimer (s : State) (r : AddRequest) : Option State :=
  if r.ptr ∉ s.live ∧ r.ptr < uintptrMax then
    let timer : Timer :=
      { expiration := r.when
        interval := r.interval
        repeats := r.repeats
        serial := s.created }
    some
      (addTimerInLoop
        { s with
          heap := Function.update s.heap r.ptr timer
          live := r.ptr :: s.live
          created := s.created + 1 }
        r.ptr)
  else none

/-- `readTimerFd`: the expiration is consumed, if there is one; otherwise `read` fails with `EAGAIN`
(the timerfd may have been armed anew since it was reported). -/
def readTimerFd (s : State) (fired : Bool) : State :=
  if fired then { s with timerfd := none } else s

/-- `getExpired(now)`: the entries before `lower_bound((now, UINTPTR_MAX))` leave the set. -/
def getExpired (s : State) (now : Int) : List Entry × State :=
  let sentry : Entry := (now, uintptrMax)
  (s.timers.takeWhile (fun e => decide (entryLt e sentry)),
    { s with timers := s.timers.dropWhile (fun e => decide (entryLt e sentry)) })

def addTimers : State → List AddRequest → Option State
  | s, [] => some s
  | s, r :: rs => do addTimers (← addTimer s r) rs

/-- The loop over `expired` in `handleRead`: each callback runs and may add timers. -/
def runCallbacks (callback : Ptr → List AddRequest) : State → List Entry → Option State
  | s, [] => some s
  | s, it :: rest => do
      let timer := s.heap it.2
      let s' ← addTimers { s with ran := s.ran ++ [(timer.serial, timer.expiration)] }
        (callback it.2)
      runCallbacks callback s' rest

/-- `Timer::restart(now)` for a repeating timer. -/
def restart (s : State) (ptr : Ptr) (now : Int) : State :=
  let timer := s.heap ptr
  { s with
    heap := Function.update s.heap ptr
      { timer with expiration := if timer.repeats then wrap64 (now + timer.interval) else 0 } }

/-- The body of the loop in `reset`: restart and insert the timer or delete it, then arm the timerfd
for the first timer. -/
def resetOne (s : State) (it : Entry) : State :=
  let s :=
    if (s.heap it.2).repeats then
      let (now, s) := now s
      (insert (restart s it.2 now) it.2).2
    else
      { s with live := s.live.erase it.2 }
  match s.timers with
  | [] => s
  | first :: _ => resetTimerfd s (s.heap first.2).expiration

def reset (s : State) (expired : List Entry) : State :=
  expired.foldl resetOne s

def handleRead (s : State) (fired : Bool) (callback : Ptr → List AddRequest) : Option State := do
  let (now, s) := now s
  let s := readTimerFd s fired
  let (expired, s) := getExpired s now
  let s ← runCallbacks callback s expired
  return reset s expired

/-! ## Runs -/

inductive Event
  | addTimer (r : AddRequest)
  /-- `handleRead`, with whether the timerfd has expired and what each callback does if it runs. -/
  | handleRead (fired : Bool) (callback : Ptr → List AddRequest)

def step (s : State) : Event → Option State
  | .addTimer r => addTimer s r
  | .handleRead fired callback => handleRead s fired callback

/-- The queue after its constructor, on a given clock. -/
def constructed (clock : Nat → Int) : State :=
  { timers := []
    heap := fun _ => { expiration := 0, interval := 0, repeats := false, serial := 0 }
    live := []
    timerfd := none
    clock := clock
    ticks := 0
    created := 0
    ran := [] }

end TimerQueue
end MyServer
end MyCppCode
