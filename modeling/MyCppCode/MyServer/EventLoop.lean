import Mathlib.Algebra.Group.Nat.Defs
import Mathlib.Logic.Function.Basic
import MyCppCode.Foundation.TransitionSystem

/-!
# EventLoop — the loop thread and the threads that hand work to it

One step is one access to shared state: the locked push of `queueInLoop`, its test of
`m_callPendingFunctors`, the `write` of `wakeup`, the store of `m_quit`, the return of `poll`, the
`read` of the eventfd, the locked swap of `doPendingFunctors`.  The events of different threads may
come in any order.

The loop thread itself calls `queueInLoop` and `quit` only from user code, that is from a channel
handler or from a running functor; what a handler or functor does otherwise is not restricted, so
the handlers of an iteration are any sequence of calls and of eventfd reads.
-/

namespace MyCppCode
namespace MyServer
namespace EventLoop

open Foundation

universe u

/-- The thread that runs `loop()`, and all others. -/
inductive Thread
  | loop
  | other (id : Nat)
  deriving DecidableEq, Repr

/-- Where a thread stands inside `queueInLoop` or `quit`. -/
inductive Call
  | idle
  | pushed
  | waking
  | quitStored
  | quitWaking
  deriving DecidableEq, Repr

/-- Where the loop thread stands inside `loop()` and `doPendingFunctors()`. -/
inductive LoopPc
  | start
  | resetQuit
  | whileTest
  | poll
  | dispatch
  | setCalling
  | swap
  | runFunctors
  | leave
  | exited
  deriving DecidableEq, Repr

structure State (F : Type u) where
  pc : LoopPc
  looping : Bool
  quit : Bool
  callPendingFunctors : Bool
  wakeupCounter : Nat
  pendingFunctors : List F
  /-- The functors swapped out by `doPendingFunctors` and not started yet. -/
  functors : List F
  running : Option F
  calls : Thread → Call
  /-- History: the number of swaps so far, which is the number of the running batch. -/
  batch : Nat
  /-- History: every functor pushed, with the batch that was the last one at that moment. -/
  pushed : List (F × Nat)
  /-- History: every functor executed by `doPendingFunctors`, with the batch it was part of. -/
  executed : List (F × Nat)
  quitReturned : Bool

inductive Event (F : Type u)
  | push (t : Thread) (f : F)
  | testWakeup (t : Thread)
  | storeQuit (t : Thread)
  | testQuit (t : Thread)
  | wakeup (t : Thread)
  | enter
  | resetQuit
  | whileTest
  | pollReturn
  | handleRead
  | endDispatch
  | setCalling
  | swap
  | runFunctor
  | functorDone
  | clearCalling
  | leave
  deriving DecidableEq, Repr

variable {F : Type u}

/-- The loop thread is in a channel handler or in a functor. -/
def State.inUserCode (s : State F) : Prop :=
  s.pc = .dispatch ∨ (s.pc = .runFunctors ∧ s.running.isSome)

instance (s : State F) : Decidable s.inUserCode :=
  inferInstanceAs (Decidable (_ ∨ (_ ∧ _)))

/-- Thread `t` may start a call of `queueInLoop` or `quit`. -/
def State.mayCall (s : State F) (t : Thread) : Prop :=
  s.calls t = .idle ∧ (t = .loop → s.inUserCode)

instance (s : State F) (t : Thread) : Decidable (s.mayCall t) :=
  inferInstanceAs (Decidable (_ ∧ (_ → _)))

/-- The loop thread stands at `pc`, outside any call. -/
def State.loopAt (s : State F) (pc : LoopPc) : Prop :=
  s.pc = pc ∧ s.calls .loop = .idle

instance (s : State F) (pc : LoopPc) : Decidable (s.loopAt pc) :=
  inferInstanceAs (Decidable (_ ∧ _))

def State.setCall (s : State F) (t : Thread) (c : Call) : State F :=
  { s with calls := Function.update s.calls t c }

/-- The largest value of an eventfd counter; a `write` that would pass it fails with `EAGAIN`. -/
def maxCounter : Nat := 2 ^ 64 - 2

/-- `write(m_wakeupFd, 1)` on the counter of the eventfd. -/
def eventfdWrite (c : Nat) : Nat :=
  if c < maxCounter then c + 1 else c

/-- One step of `loop()`, `queueInLoop()`, `quit()` or `wakeup()`. -/
def step (s : State F) : Event F → Option (State F)
  | .push t f =>
      if s.mayCall t then
        some
          { s.setCall t .pushed with
            pendingFunctors := s.pendingFunctors ++ [f]
            pushed := s.pushed ++ [(f, s.batch)] }
      else none
  | .testWakeup t =>
      if s.calls t = .pushed then
        if t ≠ .loop ∨ s.callPendingFunctors = true then some (s.setCall t .waking)
        else some (s.setCall t .idle)
      else none
  | .storeQuit t =>
      if s.mayCall t then some { s.setCall t .quitStored with quit := true }
      else none
  | .testQuit t =>
      if s.calls t = .quitStored then
        -- The source tests `isInLoopThread()`, not its negation.
        if t = .loop then some (s.setCall t .quitWaking)
        else some { s.setCall t .idle with quitReturned := true }
      else none
  | .wakeup t =>
      if s.calls t = .waking then
        some { s.setCall t .idle with wakeupCounter := eventfdWrite s.wakeupCounter }
      else if s.calls t = .quitWaking then
        some
          { s.setCall t .idle with
            wakeupCounter := eventfdWrite s.wakeupCounter
            quitReturned := true }
      else none
  | .enter =>
      if s.loopAt .start then some { s with pc := .resetQuit, looping := true }
      else none
  | .resetQuit =>
      if s.loopAt .resetQuit then some { s with pc := .whileTest, quit := false }
      else none
  | .whileTest =>
      if s.loopAt .whileTest then
        some { s with pc := if s.quit then .leave else .poll }
      else none
  | .pollReturn =>
      if s.loopAt .poll then some { s with pc := .dispatch }
      else none
  | .handleRead =>
      if s.loopAt .dispatch then some { s with wakeupCounter := 0 }
      else none
  | .endDispatch =>
      if s.loopAt .dispatch then some { s with pc := .setCalling }
      else none
  | .setCalling =>
      if s.loopAt .setCalling then some { s with pc := .swap, callPendingFunctors := true }
      else none
  | .swap =>
      if s.loopAt .swap then
        some
          { s with
            pc := .runFunctors
            functors := s.pendingFunctors
            pendingFunctors := []
            batch := s.batch + 1 }
      else none
  | .runFunctor =>
      match s.functors with
      | [] => none
      | f :: rest =>
          if s.loopAt .runFunctors ∧ s.running.isNone then
            some
              { s with
                functors := rest
                running := some f
                executed := s.executed ++ [(f, s.batch)] }
          else none
  | .functorDone =>
      if s.loopAt .runFunctors ∧ s.running.isSome then some { s with running := none }
      else none
  | .clearCalling =>
      if s.loopAt .runFunctors ∧ s.running.isNone ∧ s.functors = [] then
        some { s with pc := .whileTest, callPendingFunctors := false }
      else none
  | .leave =>
      if s.loopAt .leave then some { s with pc := .exited, looping := false }
      else none

/-- `loop()` is about to run on the loop thread.  The flags and the eventfd may have any value, other
threads may be anywhere in their calls, and functors may be pending already. -/
structure Entered (s : State F) : Prop where
  pc : s.pc = .start
  loopIdle : s.calls .loop = .idle
  functors : s.functors = []
  pushed : s.pushed = s.pendingFunctors.map (fun f => (f, s.batch))
  executed : s.executed = []

/-- The state in which `EventLoop::EventLoop()` leaves the object. -/
def constructed : State F :=
  { pc := .start
    looping := false
    quit := false
    callPendingFunctors := false
    wakeupCounter := 0
    pendingFunctors := []
    functors := []
    running := none
    calls := fun _ => .idle
    batch := 0
    pushed := []
    executed := []
    quitReturned := false }

theorem entered_constructed : Entered (constructed : State F) :=
  ⟨rfl, rfl, rfl, rfl, rfl⟩

/-! ## Small facts about the state -/

@[simp] theorem setCall_calls_self (s : State F) (t : Thread) (c : Call) :
    (s.setCall t c).calls t = c := by
  simp [State.setCall]

theorem setCall_calls_ne (s : State F) {t u : Thread} (c : Call) (h : u ≠ t) :
    (s.setCall t c).calls u = s.calls u := by
  simp [State.setCall, h]

theorem le_eventfdWrite (c : Nat) : c ≤ eventfdWrite c := by
  unfold eventfdWrite
  split <;> omega

theorem eventfdWrite_pos (c : Nat) : 0 < eventfdWrite c := by
  unfold eventfdWrite maxCounter
  split <;> omega

end EventLoop
end MyServer
end MyCppCode
