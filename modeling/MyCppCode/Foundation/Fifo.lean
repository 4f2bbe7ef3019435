import Mathlib.Data.List.Basic

/-!
# Fifo — a first-in first-out queue together with its history

The queue keeps everything that ever arrived and how much of it has been taken from the front, so
that "the contents are what arrived minus what was taken" is the definition of the contents and not
a theorem about it.
-/

namespace MyCppCode
namespace Foundation

universe u

/-- A queue: all elements that ever arrived, in order, and how many have left at the front. -/
structure Fifo (α : Type u) where
  arrived : List α
  taken : Nat
  taken_le : taken ≤ arrived.length

namespace Fifo

variable {α : Type u}

/-- The elements still in the queue, front first. -/
def contents (q : Fifo α) : List α :=
  q.arrived.drop q.taken

def empty : Fifo α :=
  { arrived := []
    taken := 0
    taken_le := Nat.le_refl 0 }

/-- `xs` arrive at the back. -/
def push (q : Fifo α) (xs : List α) : Fifo α :=
  { arrived := q.arrived ++ xs
    taken := q.taken
    taken_le := by
      have h := q.taken_le
      simp only [List.length_append]
      omega }

/-- `n` elements leave at the front, or all of them when there are fewer. -/
def pop (q : Fifo α) (n : Nat) : Fifo α :=
  { arrived := q.arrived
    taken := q.taken + min n q.contents.length
    taken_le := by
      have h := q.taken_le
      simp only [contents, List.length_drop]
      omega }

@[simp] theorem contents_empty : (empty : Fifo α).contents = [] := rfl

@[simp] theorem contents_push (q : Fifo α) (xs : List α) :
    (q.push xs).contents = q.contents ++ xs := by
  simp [contents, push, List.drop_append_of_le_length q.taken_le]

@[simp] theorem contents_pop (q : Fifo α) (n : Nat) :
    (q.pop n).contents = q.contents.drop n := by
  have h : (q.pop n).contents = q.contents.drop (min n q.contents.length) := by
    simp [contents, pop, List.drop_drop]
  rcases Nat.le_total n q.contents.length with hle | hle
  · simpa [Nat.min_eq_left hle] using h
  · rw [h, Nat.min_eq_right hle, List.drop_length, List.drop_eq_nil_of_le hle]

end Fifo

end Foundation
end MyCppCode
