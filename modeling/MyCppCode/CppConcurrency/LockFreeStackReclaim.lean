import Mathlib.Data.List.Basic
import MyCppCode.Foundation.HeapList
import MyCppCode.Foundation.Lifo
import MyCppCode.Foundation.TransitionSystem

/-!
# LockFreeStackReclaim — the lock-free stack that deletes its nodes

The source gives the stack in parts: `node` and `push` are those of `lock_free_stack_2`, `pop` is that
of `lock_free_stack_3`, and what it calls to give a node back is `lock_free_stack_4`, with
`to_be_deleted` and `delete_nodes`.  `th_in_pop` and `threads_in_pop` are one counter.

* `new node` returns any address that is not in use, so a deleted address may come back as another
  node while threads still compare pointers with it;
* a step that dereferences a null pointer or an address where nothing is allocated, or deletes such an
  address, is undefined: the run ends there, with the `fault` saying what happened;
* each load, store and compare-exchange of a shared location is a step of its own, and so is each access
  to a node.  A weak compare-exchange may fail when the values agree;
* the plain reads and writes of `next` and `data` are single, sequentially consistent steps as well.  A race
  on them, as of a `pop` that reads the `next` of a node with a thread that chains it, is outside the model.
-/

namespace MyCppCode
namespace CppConcurrency

open Foundation
open History (effects)
open Lifo

universe u

namespace LockFreeStackReclaim

/-! ## The state -/

/-- `data` is a `shared_ptr`, null once it has been swapped out. -/
structure Node (α : Type u) where
  data : Option α
  next : Option Nat
  deriving DecidableEq, Repr

/-- What `try_recliam` does after a call of `chain_pending_nodes` or `chain_pending_node`. -/
inductive After
  | deleteOld (old : Option Nat)
  | leavePop
  deriving DecidableEq, Repr

/-- The program points, with the pointers among the local variables. -/
inductive Pc
  | idle
  | pushLoad (nd : Nat)
  | pushCas (nd : Nat)
  | pushReturn
  | popEnter
  | popLoad
  | popLoop (old : Option Nat)
  | popCas (old : Nat) (next : Option Nat)
  | swapData (old : Nat)
  | tryReclaim (old : Option Nat)
  | takePending (old : Option Nat)
  | leaveAlone (old nodes : Option Nat)
  | deleteLoop (old nodes : Option Nat)
  | deleteNode (old : Option Nat) (nodes : Nat) (nxt : Option Nat)
  | findLast (old : Option Nat) (nodes lst : Nat)
  | chainLoad (first last : Option Nat) (after : After)
  | chainCas (first : Option Nat) (last : Nat) (after : After)
  | deleteOld (old : Option Nat)
  | leavePop
  | popReturn
  deriving DecidableEq, Repr

def After.pc : After → Pc
  | .deleteOld old => .deleteOld old
  | .leavePop => .leavePop

/-- A thread, with the `res` of its `pop`. -/
structure Thread (α : Type u) where
  pc : Pc
  res : Option α
  deriving DecidableEq, Repr

/-- What an undefined step has done. -/
inductive Fault
  | null
  | dangling (a : Nat)
  deriving DecidableEq, Repr

/-- The heap, the three atomics and the threads.  The log is not in the code: it records the calls, the
effects and the returns in the order in which they happen. -/
structure State (α : Type u) where
  heap : Nat → Option (Node α)
  head : Option Nat
  toBeDeleted : Option Nat
  threadsInPop : Nat
  threads : List (Thread α)
  fault : Option Fault
  log : List (Entry α)

inductive Event (α : Type u)
  | callPush (i : Nat) (data : α) (nd : Nat)
  | callPop (i : Nat)
  | move (i : Nat) (spurious : Bool)
  deriving DecidableEq, Repr

variable {α : Type u}

/-- `n` threads, an empty stack and no operation under way. -/
def start (n : Nat) : State α :=
  { heap := fun _ => none
    head := none
    toBeDeleted := none
    threadsInPop := 0
    threads := List.replicate n ⟨.idle, none⟩
    fault := none
    log := [] }

/-! ## Steps -/

/-- The greatest value of the `std::atomic<unsigned>`; one more is 0. -/
def unsignedMax : Nat := 2 ^ 32 - 1

def State.write (s : State α) (a : Nat) (node : Option (Node α)) : State α :=
  { s with heap := Function.update s.heap a node }

/-- The thread goes on to `pc`, with these acts on the way. -/
def State.goto (s : State α) (i : Nat) (pc : Pc) (res : Option α) (acts : List (Act α)) : State α :=
  { s with
    threads := s.threads.set i ⟨pc, res⟩
    log := s.log ++ acts.map fun act => ⟨i, act⟩ }

/-- The pointer `p` is followed, and there is no node. -/
def State.faultAt (s : State α) (p : Option Nat) : State α :=
  { s with fault := some (p.elim .null .dangling) }

/-- Follow the pointer `p`, and go on with the node that is there. -/
def State.access (s : State α) (p : Option Nat) (go : Nat → Node α → State α) : State α :=
  match p with
  | none => s.faultAt none
  | some a =>
      match s.heap a with
      | none => s.faultAt (some a)
      | some node => go a node

/-- The act of a successful compare-exchange on a node, by what it holds. -/
def effectOn (effect : Nat × α → Effect (Nat × α)) (a : Nat) (node : Option (Node α)) :
    List (Act α) :=
  match node.bind Node.data with
  | none => []
  | some data => [.effect (effect (a, data))]

/-- `pop` has got this value of `head`.  If it is null the operation is decided: the stack is empty
now. -/
def State.gotHead (s : State α) (i : Nat) : State α :=
  match s.head with
  | none => s.goto i (.popLoop none) none [.effect .popEmpty]
  | some old => s.goto i (.popLoop (some old)) none []

/-- `++th_in_pop`. -/
def State.increment (s : State α) : State α :=
  { s with threadsInPop := if s.threadsInPop = unsignedMax then 0 else s.threadsInPop + 1 }

/-- `--threads_in_pop`. -/
def State.decrement (s : State α) : State α :=
  { s with threadsInPop := if s.threadsInPop = 0 then unsignedMax else s.threadsInPop - 1 }

/-- The next step of thread `i`. -/
def move (s : State α) (i : Nat) (spurious : Bool) (th : Thread α) : Option (State α) :=
  match th.pc with
  | .idle => none
  | .pushLoad nd =>
      some (s.access (some nd) fun nd node =>
        (s.write nd (some { node with next := s.head })).goto i (.pushCas nd) none [])
  | .pushCas nd =>
      some (s.access (some nd) fun nd node =>
        -- `head.compare_exchange_weak(nd->next, nd)`; on failure `nd->next` gets the value of `head`
        if s.head = node.next ∧ spurious = false then
          State.goto { s with head := some nd } i .pushReturn none (effectOn .push nd (some node))
        else
          (s.write nd (some { node with next := s.head })).goto i (.pushCas nd) none [])
  | .pushReturn => some (s.goto i .idle none [.ret none])
  | .popEnter => some (s.increment.goto i .popLoad none [])
  | .popLoad => some (s.gotHead i)
  | .popLoop none => some (s.goto i (.tryReclaim none) none [])
  | .popLoop (some old) =>
      some (s.access (some old) fun old node => s.goto i (.popCas old node.next) none [])
  | .popCas old next =>
      -- `head.compare_exchange_weak(old, old->next)`, with `old->next` as it was read before
      if s.head = some old ∧ spurious = false then
        some (State.goto { s with head := next } i (.swapData old) none
          (effectOn .pop old (s.heap old)))
      else
        some (s.gotHead i)
  | .swapData old =>
      some (s.access (some old) fun old node =>
        (s.write old (some { node with data := th.res })).goto i (.tryReclaim (some old))
          node.data [])
  | .tryReclaim old =>
      if s.threadsInPop = 1 then
        some (s.goto i (.takePending old) th.res [])
      else
        some (s.goto i (.chainLoad old old .leavePop) th.res [])
  | .takePending old =>
      some (State.goto { s with toBeDeleted := none } i (.leaveAlone old s.toBeDeleted) th.res [])
  | .leaveAlone old nodes =>
      if s.decrement.threadsInPop = 0 then
        some (s.decrement.goto i (.deleteLoop old nodes) th.res [])
      else
        match nodes with
        | some nodes => some (s.decrement.goto i (.findLast old nodes nodes) th.res [])
        | none => some (s.decrement.goto i (.deleteOld old) th.res [])
  | .deleteLoop old none => some (s.goto i (.deleteOld old) th.res [])
  | .deleteLoop old (some nodes) =>
      some (s.access (some nodes) fun nodes node =>
        s.goto i (.deleteNode old nodes node.next) th.res [])
  | .deleteNode old nodes nxt =>
      some (s.access (some nodes) fun nodes _ =>
        (s.write nodes none).goto i (.deleteLoop old nxt) th.res [])
  | .findLast old nodes lst =>
      some (s.access (some lst) fun lst node =>
        match node.next with
        | some nxt => s.goto i (.findLast old nodes nxt) th.res []
        | none => s.goto i (.chainLoad (some nodes) (some lst) (.deleteOld old)) th.res [])
  | .chainLoad first last after =>
      some (s.access last fun last node =>
        (s.write last (some { node with next := s.toBeDeleted })).goto i
          (.chainCas first last after) th.res [])
  | .chainCas first last after =>
      some (s.access (some last) fun last node =>
        -- `to_be_deleted.compare_exchange_weak(last->next, first)`
        if s.toBeDeleted = node.next ∧ spurious = false then
          State.goto { s with toBeDeleted := first } i after.pc th.res []
        else
          (s.write last (some { node with next := s.toBeDeleted })).goto i
            (.chainCas first last after) th.res [])
  | .deleteOld none => some (s.goto i .popReturn th.res [])
  | .deleteOld (some old) =>
      some (s.access (some old) fun old _ => (s.write old none).goto i .popReturn th.res [])
  | .leavePop => some (s.decrement.goto i .popReturn th.res [])
  | .popReturn => some (s.goto i .idle none [.ret th.res])

def step (s : State α) (e : Event α) : Option (State α) :=
  if s.fault = none then
    match e with
    | .callPush i data nd =>
        match s.threads[i]? with
        | some ⟨.idle, _⟩ =>
            if (s.heap nd).isNone then
              some ((s.write nd (some ⟨some data, none⟩)).goto i (.pushLoad nd) none
                [.call (.push data)])
            else none
        | _ => none
    | .callPop i =>
        match s.threads[i]? with
        | some ⟨.idle, _⟩ => some (s.goto i .popEnter none [.call .pop])
        | _ => none
    | .move i spurious =>
        match s.threads[i]? with
        | some th => move s i spurious th
        | none => none
  else none

/-! ## What a step can do -/

/-- The pointer that the next step of the thread follows. -/
def Pc.access? : Pc → Option (Option Nat)
  | .pushLoad nd => some (some nd)
  | .pushCas nd => some (some nd)
  | .popLoop (some old) => some (some old)
  | .swapData old => some (some old)
  | .deleteLoop _ (some nodes) => some (some nodes)
  | .deleteNode _ nodes _ => some (some nodes)
  | .findLast _ _ lst => some (some lst)
  | .chainLoad _ last _ => some last
  | .chainCas _ last _ => some (some last)
  | .deleteOld (some old) => some (some old)
  | _ => none

/-- The defined moves of thread `i`: where it was, what it read, and the state it leaves. -/
inductive Moves (s : State α) (i : Nat) (th : Thread α) : State α → Prop where
  | callPush (data : α) {nd : Nat} : th.pc = .idle → s.heap nd = none →
      Moves s i th ((s.write nd (some ⟨some data, none⟩)).goto i (.pushLoad nd) none
        [.call (.push data)])
  | callPop : th.pc = .idle → Moves s i th (s.goto i .popEnter none [.call .pop])
  | link {nd : Nat} {node : Node α} : th.pc = .pushLoad nd ∨ th.pc = .pushCas nd →
      s.heap nd = some node →
      Moves s i th ((s.write nd (some { node with next := s.head })).goto i (.pushCas nd) none [])
  | publish {nd : Nat} {node : Node α} : th.pc = .pushCas nd → s.heap nd = some node →
      s.head = node.next →
      Moves s i th (State.goto { s with head := some nd } i .pushReturn none
        (effectOn .push nd (some node)))
  | pushReturn : th.pc = .pushReturn → Moves s i th (s.goto i .idle none [.ret none])
  | enter : th.pc = .popEnter →
      Moves s i th (s.increment.goto i .popLoad none [])
  | sawEmpty : th.pc = .popLoad ∨ (∃ old next, th.pc = .popCas old next) → s.head = none →
      Moves s i th (s.goto i (.popLoop none) none [.effect .popEmpty])
  | sawTop {top : Nat} : th.pc = .popLoad ∨ (∃ old next, th.pc = .popCas old next) →
      s.head = some top → Moves s i th (s.goto i (.popLoop (some top)) none [])
  | leaveLoop : th.pc = .popLoop none → Moves s i th (s.goto i (.tryReclaim none) none [])
  | readNext {old : Nat} {node : Node α} : th.pc = .popLoop (some old) → s.heap old = some node →
      Moves s i th (s.goto i (.popCas old node.next) none [])
  | unlink {old : Nat} {next : Option Nat} : th.pc = .popCas old next → s.head = some old →
      Moves s i th (State.goto { s with head := next } i (.swapData old) none
        (effectOn .pop old (s.heap old)))
  | swap {old : Nat} {node : Node α} : th.pc = .swapData old → s.heap old = some node →
      Moves s i th ((s.write old (some { node with data := th.res })).goto i
        (.tryReclaim (some old)) node.data [])
  | alone {old : Option Nat} : th.pc = .tryReclaim old → s.threadsInPop = 1 →
      Moves s i th (s.goto i (.takePending old) th.res [])
  | notAlone {old : Option Nat} : th.pc = .tryReclaim old → s.threadsInPop ≠ 1 →
      Moves s i th (s.goto i (.chainLoad old old .leavePop) th.res [])
  | takePending {old : Option Nat} : th.pc = .takePending old →
      Moves s i th (State.goto { s with toBeDeleted := none } i (.leaveAlone old s.toBeDeleted)
        th.res [])
  | leaveLast {old nodes : Option Nat} : th.pc = .leaveAlone old nodes →
      s.decrement.threadsInPop = 0 →
      Moves s i th (s.decrement.goto i (.deleteLoop old nodes) th.res [])
  | leaveOthers {old : Option Nat} {nodes : Nat} : th.pc = .leaveAlone old (some nodes) →
      Moves s i th (s.decrement.goto i (.findLast old nodes nodes) th.res [])
  | leaveNothing {old : Option Nat} : th.pc = .leaveAlone old none →
      Moves s i th (s.decrement.goto i (.deleteOld old) th.res [])
  | deletedAll {old : Option Nat} : th.pc = .deleteLoop old none →
      Moves s i th (s.goto i (.deleteOld old) th.res [])
  | readNxt {old : Option Nat} {nodes : Nat} {node : Node α} : th.pc = .deleteLoop old (some nodes) →
      s.heap nodes = some node →
      Moves s i th (s.goto i (.deleteNode old nodes node.next) th.res [])
  | deleteNode {old nxt : Option Nat} {nodes : Nat} : th.pc = .deleteNode old nodes nxt →
      Moves s i th ((s.write nodes none).goto i (.deleteLoop old nxt) th.res [])
  | walk {old : Option Nat} {nodes lst nxt : Nat} {node : Node α} : th.pc = .findLast old nodes lst →
      s.heap lst = some node → node.next = some nxt →
      Moves s i th (s.goto i (.findLast old nodes nxt) th.res [])
  | foundLast {old : Option Nat} {nodes lst : Nat} {node : Node α} :
      th.pc = .findLast old nodes lst → s.heap lst = some node → node.next = none →
      Moves s i th (s.goto i (.chainLoad (some nodes) (some lst) (.deleteOld old)) th.res [])
  | chainLink {first : Option Nat} {last : Nat} {after : After} {node : Node α} :
      th.pc = .chainLoad first (some last) after ∨ th.pc = .chainCas first last after →
      s.heap last = some node →
      Moves s i th ((s.write last (some { node with next := s.toBeDeleted })).goto i
        (.chainCas first last after) th.res [])
  | chain {first : Option Nat} {last : Nat} {after : After} {node : Node α} :
      th.pc = .chainCas first last after → s.heap last = some node → s.toBeDeleted = node.next →
      Moves s i th (State.goto { s with toBeDeleted := first } i after.pc th.res [])
  | deleteNull : th.pc = .deleteOld none → Moves s i th (s.goto i .popReturn th.res [])
  | deleteOld {old : Nat} : th.pc = .deleteOld (some old) →
      Moves s i th ((s.write old none).goto i .popReturn th.res [])
  | leavePop : th.pc = .leavePop → Moves s i th (s.decrement.goto i .popReturn th.res [])
  | popReturn : th.pc = .popReturn → Moves s i th (s.goto i .idle none [.ret th.res])

/-- The thread follows a pointer to where no node is. -/
structure Faults (s : State α) (th : Thread α) (p : Option Nat) : Prop where
  access : th.pc.access? = some p
  nothing : p.bind s.heap = none

theorem access_cases {s t : State α} {p : Option Nat} {go : Nat → Node α → State α}
    (h : some (s.access p go) = some t) :
    (∃ a node, p = some a ∧ s.heap a = some node ∧ go a node = t) ∨
      p.bind s.heap = none ∧ t = s.faultAt p := by
  cases h
  cases p with
  | none =>
      exact Or.inr ⟨rfl, rfl⟩
  | some a =>
      cases hnode : s.heap a with
      | none =>
          refine Or.inr ⟨hnode, ?_⟩
          simp [State.access, hnode]
      | some node =>
          refine Or.inl ⟨a, node, rfl, hnode, ?_⟩
          simp [State.access, hnode]

theorem gotHead_moves {s : State α} {i : Nat} {th : Thread α}
    (hpc : th.pc = .popLoad ∨ ∃ old next, th.pc = .popCas old next) :
    Moves s i th (s.gotHead i) := by
  unfold State.gotHead
  cases hhead : s.head with
  | none => exact .sawEmpty hpc hhead
  | some top => exact .sawTop hpc hhead

theorem move_moves {s t : State α} {i : Nat} {spurious : Bool} {th : Thread α}
    (h : move s i spurious th = some t) :
    Moves s i th t ∨ ∃ p, Faults s th p ∧ t = s.faultAt p := by
  unfold move at h
  cases hpc : th.pc with
  | idle =>
      simp [hpc] at h
  | pushLoad nd =>
      simp only [hpc] at h
      rcases access_cases h with ⟨a, node, hp, hnode, rfl⟩ | ⟨hnone, rfl⟩
      · cases hp
        exact Or.inl (.link (Or.inl hpc) hnode)
      · exact Or.inr ⟨some nd, ⟨by rw [hpc]; rfl, hnone⟩, rfl⟩
  | pushCas nd =>
      simp only [hpc] at h
      rcases access_cases h with ⟨a, node, hp, hnode, rfl⟩ | ⟨hnone, rfl⟩
      · cases hp
        split
        · rename_i heq
          exact Or.inl (.publish hpc hnode heq.1)
        · exact Or.inl (.link (Or.inr hpc) hnode)
      · exact Or.inr ⟨some nd, ⟨by rw [hpc]; rfl, hnone⟩, rfl⟩
  | pushReturn =>
      simp only [hpc] at h
      cases h
      exact Or.inl (.pushReturn hpc)
  | popEnter =>
      simp only [hpc] at h
      cases h
      exact Or.inl (.enter hpc)
  | popLoad =>
      simp only [hpc] at h
      cases h
      exact Or.inl (gotHead_moves (Or.inl hpc))
  | popLoop old =>
      cases old with
      | none =>
          simp only [hpc] at h
          cases h
          exact Or.inl (.leaveLoop hpc)
      | some old =>
          simp only [hpc] at h
          rcases access_cases h with ⟨a, node, hp, hnode, rfl⟩ | ⟨hnone, rfl⟩
          · cases hp
            exact Or.inl (.readNext hpc hnode)
          · exact Or.inr ⟨some old, ⟨by rw [hpc]; rfl, hnone⟩, rfl⟩
  | popCas old next =>
      simp only [hpc] at h
      split at h
      · rename_i heq
        cases h
        exact Or.inl (.unlink hpc heq.1)
      · cases h
        exact Or.inl (gotHead_moves (Or.inr ⟨old, next, hpc⟩))
  | swapData old =>
      simp only [hpc] at h
      rcases access_cases h with ⟨a, node, hp, hnode, rfl⟩ | ⟨hnone, rfl⟩
      · cases hp
        exact Or.inl (.swap hpc hnode)
      · exact Or.inr ⟨some old, ⟨by rw [hpc]; rfl, hnone⟩, rfl⟩
  | tryReclaim old =>
      simp only [hpc] at h
      split at h
      · rename_i hone
        cases h
        exact Or.inl (.alone hpc hone)
      · rename_i hone
        cases h
        exact Or.inl (.notAlone hpc hone)
  | takePending old =>
      simp only [hpc] at h
      cases h
      exact Or.inl (.takePending hpc)
  | leaveAlone old nodes =>
      simp only [hpc] at h
      split at h
      · rename_i hzero
        cases h
        exact Or.inl (.leaveLast hpc hzero)
      · cases nodes with
        | none =>
            cases h
            exact Or.inl (.leaveNothing hpc)
        | some nodes =>
            cases h
            exact Or.inl (.leaveOthers hpc)
  | deleteLoop old nodes =>
      cases nodes with
      | none =>
          simp only [hpc] at h
          cases h
          exact Or.inl (.deletedAll hpc)
      | some nodes =>
          simp only [hpc] at h
          rcases access_cases h with ⟨a, node, hp, hnode, rfl⟩ | ⟨hnone, rfl⟩
          · cases hp
            exact Or.inl (.readNxt hpc hnode)
          · exact Or.inr ⟨some nodes, ⟨by rw [hpc]; rfl, hnone⟩, rfl⟩
  | deleteNode old nodes nxt =>
      simp only [hpc] at h
      rcases access_cases h with ⟨a, node, hp, hnode, rfl⟩ | ⟨hnone, rfl⟩
      · cases hp
        exact Or.inl (.deleteNode hpc)
      · exact Or.inr ⟨some nodes, ⟨by rw [hpc]; rfl, hnone⟩, rfl⟩
  | findLast old nodes lst =>
      simp only [hpc] at h
      rcases access_cases h with ⟨a, node, hp, hnode, rfl⟩ | ⟨hnone, rfl⟩
      · cases hp
        split
        · rename_i nxt hnext
          exact Or.inl (.walk hpc hnode hnext)
        · rename_i hnext
          exact Or.inl (.foundLast hpc hnode hnext)
      · exact Or.inr ⟨some lst, ⟨by rw [hpc]; rfl, hnone⟩, rfl⟩
  | chainLoad first last after =>
      simp only [hpc] at h
      rcases access_cases h with ⟨a, node, rfl, hnode, rfl⟩ | ⟨hnone, rfl⟩
      · exact Or.inl (.chainLink (Or.inl hpc) hnode)
      · exact Or.inr ⟨last, ⟨by rw [hpc]; rfl, hnone⟩, rfl⟩
  | chainCas first last after =>
      simp only [hpc] at h
      rcases access_cases h with ⟨a, node, hp, hnode, rfl⟩ | ⟨hnone, rfl⟩
      · cases hp
        split
        · rename_i heq
          exact Or.inl (.chain hpc hnode heq.1)
        · exact Or.inl (.chainLink (Or.inr hpc) hnode)
      · exact Or.inr ⟨some last, ⟨by rw [hpc]; rfl, hnone⟩, rfl⟩
  | deleteOld old =>
      cases old with
      | none =>
          simp only [hpc] at h
          cases h
          exact Or.inl (.deleteNull hpc)
      | some old =>
          simp only [hpc] at h
          rcases access_cases h with ⟨a, node, hp, hnode, rfl⟩ | ⟨hnone, rfl⟩
          · cases hp
            exact Or.inl (.deleteOld hpc)
          · exact Or.inr ⟨some old, ⟨by rw [hpc]; rfl, hnone⟩, rfl⟩
  | leavePop =>
      simp only [hpc] at h
      cases h
      exact Or.inl (.leavePop hpc)
  | popReturn =>
      simp only [hpc] at h
      cases h
      exact Or.inl (.popReturn hpc)

theorem step_moves {s t : State α} {e : Event α} (h : step s e = some t) :
    s.fault = none ∧ ∃ i th, s.threads[i]? = some th ∧
      (Moves s i th t ∨
        (∃ spurious, e = .move i spurious) ∧ ∃ p, Faults s th p ∧ t = s.faultAt p) := by
  unfold step at h
  split at h
  · rename_i hfault
    refine ⟨hfault, ?_⟩
    cases e with
    | callPush i data nd =>
        simp only at h
        split at h
        · rename_i res hth
          split at h
          · rename_i hfree
            cases h
            exact ⟨i, _, hth, Or.inl (.callPush data rfl (Option.isNone_iff_eq_none.1 hfree))⟩
          · cases h
        · cases h
    | callPop i =>
        simp only at h
        split at h
        · rename_i res hth
          cases h
          exact ⟨i, _, hth, Or.inl (.callPop rfl)⟩
        · cases h
    | move i spurious =>
        simp only at h
        split at h
        · rename_i th hth
          exact ⟨i, th, hth, (move_moves h).imp_right fun hfaults => ⟨⟨spurious, rfl⟩, hfaults⟩⟩
        · cases h
  · cases h

end LockFreeStackReclaim

end CppConcurrency
end MyCppCode
