import Mathlib.Data.List.Perm.Basic
import MyCppCode.Foundation.History

/-!
# Lifo — histories of a stack that several threads work on

A history is that of a last-in first-out stack if

* the effects, in their order, are those of a sequential stack (`Sequential`);
* each thread calls, takes one effect that answers its call, and returns the answer (`Follows`).

The effect stands between the call and the return, so an operation that returned before another was
called comes before it in the sequential order, too.
-/

namespace MyCppCode
namespace Foundation
namespace Lifo

open History

universe u

/-- What an operation does to the stack. -/
inductive Effect (β : Type u)
  | push (x : β)
  | pop (x : β)
  | popEmpty
  deriving DecidableEq, Repr

variable {β : Type u}

/-- What the effects do to a stack, the top first. -/
inductive Changes : List β → Effect β → List β → Prop where
  | push (st : List β) (x : β) : Changes st (.push x) (x :: st)
  | pop (st : List β) (x : β) : Changes (x :: st) (.pop x) st
  | popEmpty : Changes [] .popEmpty []

/-- `Sequential es st`: a stack, empty at first, can have these effects one after the other, and holds
`st` after them, the top first. -/
abbrev Sequential (es : List (Effect β)) (st : List β) : Prop := Replays Changes [] es st

theorem Sequential.push {es : List (Effect β)} {st : List β} (h : Sequential es st) (x : β) :
    Sequential (es ++ [.push x]) (x :: st) :=
  .snoc h (.push st x)

theorem Sequential.pop {es : List (Effect β)} {x : β} {st : List β} (h : Sequential es (x :: st)) :
    Sequential (es ++ [.pop x]) st :=
  .snoc h (.pop st x)

theorem Sequential.popEmpty {es : List (Effect β)} (h : Sequential es []) :
    Sequential (es ++ [.popEmpty]) [] :=
  .snoc h .popEmpty

def Effect.pushed : Effect β → Option β
  | .push x => some x
  | _ => none

def Effect.popped : Effect β → Option β
  | .pop x => some x
  | _ => none

/-- Everything that was pushed, in order. -/
def pushed (es : List (Effect β)) : List β := es.filterMap Effect.pushed

/-- Everything that was popped, in order. -/
def popped (es : List (Effect β)) : List β := es.filterMap Effect.popped

@[simp] theorem pushed_append (es es' : List (Effect β)) :
    pushed (es ++ es') = pushed es ++ pushed es' :=
  List.filterMap_append

@[simp] theorem popped_append (es es' : List (Effect β)) :
    popped (es ++ es') = popped es ++ popped es' :=
  List.filterMap_append

@[simp] theorem pushed_nil : pushed ([] : List (Effect β)) = [] := rfl

@[simp] theorem pushed_push (x : β) : pushed [Effect.push x] = [x] := rfl

@[simp] theorem pushed_pop (x : β) : pushed [Effect.pop x] = [] := rfl

@[simp] theorem pushed_popEmpty : pushed [(Effect.popEmpty : Effect β)] = [] := rfl

@[simp] theorem popped_push (x : β) : popped [Effect.push x] = [] := rfl

@[simp] theorem popped_pop (x : β) : popped [Effect.pop x] = [x] := rfl

@[simp] theorem popped_popEmpty : popped [(Effect.popEmpty : Effect β)] = [] := rfl

/-- What was pushed has been popped or is on the stack, and nothing else is. -/
theorem Sequential.perm {es : List (Effect β)} {st : List β} (h : Sequential es st) :
    (pushed es).Perm (popped es ++ st) := by
  induction h with
  | nil =>
      exact List.Perm.refl _
  | @snoc es st st' e _ hchanges ih =>
      cases hchanges with
      | push _ x =>
          rw [pushed_append, popped_append, pushed_push, popped_push, List.append_nil]
          have hlast : (pushed es ++ [x]).Perm (popped es ++ st ++ [x]) := ih.append_right [x]
          have hfront : (popped es ++ st ++ [x]).Perm (x :: (popped es ++ st)) :=
            List.perm_append_singleton x _
          exact (hlast.trans hfront).trans List.perm_middle.symm
      | pop _ x =>
          simpa using ih
      | popEmpty =>
          simpa using ih

/-! ## Calls and returns -/

variable {α : Type u}

inductive Operation (α : Type u)
  | push (data : α)
  | pop
  deriving DecidableEq, Repr

/-- Which effect answers which call, and what the call returns then.  The effects are on elements that carry
an identity besides their value, so that two pushes of one value are told apart. -/
inductive Answers : Operation α → Effect (Nat × α) → Option α → Prop where
  | push (id : Nat) (data : α) : Answers (.push data) (.push (id, data)) none
  | pop (id : Nat) (data : α) : Answers .pop (.pop (id, data)) (some data)
  | popEmpty : Answers .pop .popEmpty none

/-- What is seen of an operation. -/
abbrev Act (α : Type u) := History.Act (Operation α) (Effect (Nat × α)) (Option α)

abbrev Entry (α : Type u) := History.Entry (Operation α) (Effect (Nat × α)) (Option α)

/-- Where a thread is between its calls and returns. -/
abbrev Phase (α : Type u) := History.Phase (Operation α) (Option α)

/-- The acts of the thread in the history are operations one after the other, the last of them perhaps
not finished. -/
abbrev Follows (thread : Nat) (log : List (Entry α)) (p : Phase α) : Prop :=
  History.Follows Answers thread log p

end Lifo
end Foundation
end MyCppCode
