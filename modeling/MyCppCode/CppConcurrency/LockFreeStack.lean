import MyCppCode.Foundation.Lifo
import MyCppCode.Foundation.TransitionSystem

/-!
# LockFreeStack — `lock_free_stack_2` under any number of threads

Nodes are allocated in a heap and never freed; a pointer is an index into it.  The steps of a thread are
the loads and compare-exchanges of `head` and the reads of a node, and an event says which thread makes
its next one, or begins an operation.  A weak compare-exchange may also fail when the values agree.

A node is written by the thread that allocated it until its compare-exchange publishes it, and by nobody
afterwards.  So the `next` that `pop` has read is still the right one when its compare-exchange finds
the node at the head, however much has happened in between.
-/

namespace MyCppCode
namespace CppConcurrency

open Foundation
open History (effects)
open Lifo

universe u

namespace LockFreeStack

/-! ## The state -/

structure Node (α : Type u) where
  data : α
  next : Option Nat
  deriving DecidableEq, Repr

/-- The program points of `push` and `pop`, with the local variables. -/
inductive Pc
  | idle
  | pushLoad (nd : Nat)
  | pushCas (nd : Nat)
  | pushReturn
  | popLoad
  | popLoop (old : Option Nat)
  | popCas (old : Nat) (next : Option Nat)
  | popReturn (old : Option Nat)
  deriving DecidableEq, Repr

/-- The heap, the atomic `head` and the threads.  The log is not in the code: it records the calls, the
effects and the returns in the order in which they happen. -/
structure State (α : Type u) where
  heap : List (Node α)
  head : Option Nat
  pc : Nat → Pc
  log : List (Entry α)

inductive Event (α : Type u)
  | call (thread : Nat) (op : Operation α)
  | move (thread : Nat) (spurious : Bool)
  deriving DecidableEq, Repr

variable {α : Type u}

/-- An empty stack and no operation under way. -/
def start : State α :=
  { heap := []
    head := none
    pc := fun _ => .idle
    log := [] }

/-- `nd->next = next`. -/
def setNext (heap : List (Node α)) (nd : Nat) (next : Option Nat) : List (Node α) :=
  heap.modify nd fun node => { node with next := next }

/-! ## Steps -/

/-- The thread goes on to `pc`, with these acts on the way. -/
def State.goto (s : State α) (thread : Nat) (pc : Pc) (acts : List (Act α)) : State α :=
  { s with
    pc := Function.update s.pc thread pc
    log := s.log ++ acts.map fun act => ⟨thread, act⟩ }

/-- `pop` has got this value of `head`.  If it is null the operation is decided: the stack is empty
now. -/
def State.gotHead (s : State α) (thread : Nat) : State α :=
  match s.head with
  | none => s.goto thread (.popLoop none) [.effect .popEmpty]
  | some old => s.goto thread (.popLoop (some old)) []

def call (s : State α) (thread : Nat) : Operation α → State α
  | .push data =>
      State.goto { s with heap := s.heap ++ [{ data := data, next := none }] } thread
        (.pushLoad s.heap.length) [.call (.push data)]
  | .pop => s.goto thread .popLoad [.call .pop]

/-- The next step of the thread. -/
def move (s : State α) (thread : Nat) (spurious : Bool) : Option (State α) :=
  match s.pc thread with
  | .idle => none
  | .pushLoad nd =>
      some (State.goto { s with heap := setNext s.heap nd s.head } thread (.pushCas nd) [])
  | .pushCas nd =>
      match s.heap[nd]? with
      | some node =>
          -- `head.compare_exchange_weak(nd->next, nd)`; on failure `nd->next` gets the value of `head`
          if s.head = node.next ∧ spurious = false then
            some (State.goto { s with head := some nd } thread .pushReturn
              [.effect (.push (nd, node.data))])
          else
            some (State.goto { s with heap := setNext s.heap nd s.head } thread (.pushCas nd) [])
      | none => none
  | .pushReturn => some (s.goto thread .idle [.ret none])
  | .popLoad => some (s.gotHead thread)
  | .popLoop none => some (s.goto thread (.popReturn none) [])
  | .popLoop (some old) =>
      match s.heap[old]? with
      | some node => some (s.goto thread (.popCas old node.next) [])
      | none => none
  | .popCas old next =>
      match s.heap[old]? with
      | some node =>
          -- `head.compare_exchange_weak(old, old->next)`, with `old->next` as it was read before
          if s.head = some old ∧ spurious = false then
            some (State.goto { s with head := next } thread (.popReturn (some old))
              [.effect (.pop (old, node.data))])
          else
            some (s.gotHead thread)
      | none => none
  | .popReturn none => some (s.goto thread .idle [.ret none])
  | .popReturn (some old) =>
      match s.heap[old]? with
      | some node => some (s.goto thread .idle [.ret (some node.data)])
      | none => none

def step (s : State α) : Event α → Option (State α)
  | .call thread op => if s.pc thread = .idle then some (call s thread op) else none
  | .move thread spurious => move s thread spurious

/-! ## What a step can do -/

/-- The moves of a thread: where it was, what it read, and the state it leaves. -/
inductive Moves (s : State α) (thread : Nat) : State α → Prop where
  | callPush (data : α) : s.pc thread = .idle →
      Moves s thread (State.goto { s with heap := s.heap ++ [{ data := data, next := none }] } thread
        (.pushLoad s.heap.length) [.call (.push data)])
  | callPop : s.pc thread = .idle → Moves s thread (s.goto thread .popLoad [.call .pop])
  | link {nd : Nat} : s.pc thread = .pushLoad nd ∨ s.pc thread = .pushCas nd →
      Moves s thread
        (State.goto { s with heap := setNext s.heap nd s.head } thread (.pushCas nd) [])
  | publish {nd : Nat} {node : Node α} : s.pc thread = .pushCas nd → s.heap[nd]? = some node →
      s.head = node.next →
      Moves s thread
        (State.goto { s with head := some nd } thread .pushReturn [.effect (.push (nd, node.data))])
  | pushReturn : s.pc thread = .pushReturn → Moves s thread (s.goto thread .idle [.ret none])
  | sawEmpty : s.pc thread = .popLoad ∨ (∃ old next, s.pc thread = .popCas old next) →
      s.head = none → Moves s thread (s.goto thread (.popLoop none) [.effect .popEmpty])
  | sawTop {top : Nat} : s.pc thread = .popLoad ∨ (∃ old next, s.pc thread = .popCas old next) →
      s.head = some top → Moves s thread (s.goto thread (.popLoop (some top)) [])
  | leave : s.pc thread = .popLoop none → Moves s thread (s.goto thread (.popReturn none) [])
  | readNext {old : Nat} {node : Node α} : s.pc thread = .popLoop (some old) →
      s.heap[old]? = some node → Moves s thread (s.goto thread (.popCas old node.next) [])
  | unlink {old : Nat} {next : Option Nat} {node : Node α} : s.pc thread = .popCas old next →
      s.heap[old]? = some node → s.head = some old →
      Moves s thread (State.goto { s with head := next } thread (.popReturn (some old))
        [.effect (.pop (old, node.data))])
  | returnNull : s.pc thread = .popReturn none → Moves s thread (s.goto thread .idle [.ret none])
  | returnData {old : Nat} {node : Node α} : s.pc thread = .popReturn (some old) →
      s.heap[old]? = some node → Moves s thread (s.goto thread .idle [.ret (some node.data)])

theorem gotHead_moves {s : State α} {thread : Nat}
    (hpc : s.pc thread = .popLoad ∨ ∃ old next, s.pc thread = .popCas old next) :
    Moves s thread (s.gotHead thread) := by
  unfold State.gotHead
  cases hhead : s.head with
  | none => exact .sawEmpty hpc hhead
  | some top => exact .sawTop hpc hhead

theorem move_moves {s t : State α} {thread : Nat} {spurious : Bool}
    (h : move s thread spurious = some t) : Moves s thread t := by
  unfold move at h
  cases hpc : s.pc thread with
  | idle =>
      simp [hpc] at h
  | pushLoad nd =>
      simp only [hpc] at h
      cases h
      exact .link (Or.inl hpc)
  | pushCas nd =>
      simp only [hpc] at h
      split at h
      · rename_i node hnode
        split at h
        · rename_i heq
          cases h
          exact .publish hpc hnode heq.1
        · cases h
          exact .link (Or.inr hpc)
      · cases h
  | pushReturn =>
      simp only [hpc] at h
      cases h
      exact .pushReturn hpc
  | popLoad =>
      simp only [hpc] at h
      cases h
      exact gotHead_moves (Or.inl hpc)
  | popLoop old =>
      cases old with
      | none =>
          simp only [hpc] at h
          cases h
          exact .leave hpc
      | some old =>
          simp only [hpc] at h
          split at h
          · rename_i node hnode
            cases h
            exact .readNext hpc hnode
          · cases h
  | popCas old next =>
      simp only [hpc] at h
      split at h
      · rename_i node hnode
        split at h
        · rename_i heq
          cases h
          exact .unlink hpc hnode heq.1
        · cases h
          exact gotHead_moves (Or.inr ⟨old, next, hpc⟩)
      · cases h
  | popReturn old =>
      cases old with
      | none =>
          simp only [hpc] at h
          cases h
          exact .returnNull hpc
      | some old =>
          simp only [hpc] at h
          split at h
          · rename_i node hnode
            cases h
            exact .returnData hpc hnode
          · cases h

theorem step_moves {s t : State α} {e : Event α} (h : step s e = some t) :
    ∃ thread, Moves s thread t := by
  cases e with
  | call thread op =>
      simp only [step] at h
      split at h
      · rename_i hidle
        cases h
        cases op with
        | push data => exact ⟨thread, .callPush data hidle⟩
        | pop => exact ⟨thread, .callPop hidle⟩
      · cases h
  | move thread spurious => exact ⟨thread, move_moves h⟩

end LockFreeStack

end CppConcurrency
end MyCppCode
