import Mathlib.Data.Int.DivMod
import Mathlib.Data.List.Basic
import Mathlib.Tactic.Linarith

/-!
# Machine — the part of the C++ abstract machine that the models rely on

* `size_t` arithmetic on `Nat` with explicit reduction modulo `2 ^ 64`, and the conversions between
  `size_t` and a 32-bit `int`;
* the ways in which a call may fail to return (`Halt`), and `Completes`, the postcondition of a call
  that returns unless it throws `std::length_error`;
* `++` on an `int` and indexing a `std::string`, where they are defined;
* the primitives of `std::vector` and `std::copy` that can go wrong: `resize`, `readRange`, `writeAt`;
* `snprintf` into a buffer of limited size.
-/

namespace MyCppCode
namespace Foundation

universe u

/-! ## `size_t` and `int` -/

namespace SizeT

/-- Addition of two `size_t` values. -/
def add (a b : Nat) : Nat := (a + b) % 2 ^ 64

/-- Subtraction of two `size_t` values. -/
def sub (a b : Nat) : Nat := (a + (2 ^ 64 - b)) % 2 ^ 64

/-- A signed value converted to `size_t`. -/
def ofInt (i : Int) : Nat := (i % 2 ^ 64).toNat

/-- A `size_t` value converted to a 32-bit `int`. -/
def toInt (n : Nat) : Int := (n : Int).bmod (2 ^ 32)

theorem add_of_lt {a b : Nat} (h : a + b < 2 ^ 64) : add a b = a + b :=
  Nat.mod_eq_of_lt h

theorem add_le (a b : Nat) : add a b ≤ a + b :=
  Nat.mod_le _ _

theorem sub_of_le {a b : Nat} (hab : b ≤ a) (ha : a < 2 ^ 64) : sub a b = a - b := by
  unfold sub
  omega

theorem toInt_of_lt {n : Nat} (h : n < 2 ^ 31) : toInt n = n := by
  unfold toInt
  rw [Int.bmod_def]
  omega

theorem toInt_two_pow : toInt (2 ^ 32) = 0 :=
  Int.bmod_self

theorem ofInt_natCast {n : Nat} (h : n < 2 ^ 64) : ofInt (n : Int) = n := by
  unfold ofInt
  omega

end SizeT

/-! ## Calls that do not return -/

/-- Why a call does not return normally. -/
inductive Halt
  | lengthError
  | undefinedBehaviour
  | diverges
  deriving DecidableEq, Repr

/-- A sequence of two calls returns only if both do. -/
theorem bind_eq_ok {α β : Type u} {x : Except Halt α} {f : α → Except Halt β} {b : β}
    (h : x >>= f = .ok b) : ∃ a, x = .ok a ∧ f a = .ok b := by
  cases x with
  | error e => cases h
  | ok a => exact ⟨a, rfl, h⟩

theorem ok_bind {α β : Type u} (a : α) (f : α → Except Halt β) : (.ok a >>= f) = f a := rfl

/-- It halts in a way only if one of them does. -/
theorem bind_ne_error {α β : Type u} {x : Except Halt α} {f : α → Except Halt β} {e : Halt}
    (hx : x ≠ .error e) (hf : ∀ a, x = .ok a → f a ≠ .error e) : x >>= f ≠ .error e := by
  cases x with
  | error e' =>
      intro heq
      cases heq
      exact hx rfl
  | ok a => exact hf a rfl

/-- The call returns a value in `P`, or throws `std::length_error` where `Q` holds. -/
inductive Completes {α : Type u} (P : α → Prop) (Q : Prop) : Except Halt α → Prop where
  | ok {a : α} : P a → Completes P Q (.ok a)
  | lengthError : Q → Completes P Q (.error .lengthError)

namespace Completes

variable {α β : Type u} {x : Except Halt α} {P P' : α → Prop} {Q Q' : Prop}

theorem mono (h : Completes P Q x) (hP : ∀ a, P a → P' a) (hQ : Q → Q') : Completes P' Q' x := by
  cases h with
  | ok ha =>
      exact Completes.ok (hP _ ha)
  | lengthError hq =>
      exact Completes.lengthError (hQ hq)

theorem bind {f : α → Except Halt β} {R : β → Prop} (h : Completes P Q x)
    (hf : ∀ a, P a → Completes R Q (f a)) : Completes R Q (x >>= f) := by
  cases h with
  | ok ha =>
      exact hf _ ha
  | lengthError hq =>
      exact Completes.lengthError hq

theorem exists_ok (h : Completes P Q x) (hQ : ¬ Q) : ∃ a, x = .ok a ∧ P a := by
  cases h with
  | ok ha => exact ⟨_, rfl, ha⟩
  | lengthError hq => exact absurd hq hQ

theorem of_ok {a : α} (h : Completes P Q (.ok a)) : P a := by
  cases h with
  | ok ha => exact ha

end Completes

/-! ## `++` on an `int`, and `std::string` -/

/-- `INT_MAX`. -/
def intMax : Nat := 2 ^ 31 - 1

/-- `++i` on an `int` that is not negative. -/
def increment (i : Nat) : Except Halt Nat :=
  if i < intMax then .ok (i + 1) else .error .undefinedBehaviour

/-- `str[i]`: at `str.size()` the terminating NUL, behind it undefined. -/
def charAt (str : List UInt8) (i : Nat) : Except Halt UInt8 :=
  if i < str.length then .ok (str.getD i 0)
  else if i = str.length then .ok 0
  else .error .undefinedBehaviour

theorem increment_eq_ok {i j : Nat} : increment i = .ok j ↔ i < intMax ∧ j = i + 1 := by
  unfold increment
  split <;> simp_all [eq_comm]

theorem charAt_of_le {str : List UInt8} {i : Nat} (h : i ≤ str.length) :
    charAt str i = .ok (str.getD i 0) := by
  unfold charAt
  split
  · rfl
  · rename_i hge
    have heq : i = str.length := by omega
    rw [if_pos heq, List.getD_eq_getElem?_getD, List.getElem?_eq_none (Nat.le_of_not_lt hge)]
    rfl

theorem le_of_charAt {str : List UInt8} {i : Nat} {ch : UInt8} (h : charAt str i = .ok ch) :
    i ≤ str.length := by
  unfold charAt at h
  split at h
  · omega
  · split at h
    · omega
    · cases h

/-! ## `std::vector` and `std::copy` -/

/-- `std::vector<char>::max_size()`. -/
def maxSize : Nat := 2 ^ 63 - 1

variable {α : Type u}

/-- `std::vector<T>::resize(n)`: cut, or fill up with `d`; `std::length_error` past `max_size()`. -/
def resize (v : List α) (n : Nat) (d : α) : Except Halt (List α) :=
  if maxSize < n then
    .error .lengthError
  else
    .ok (v.take n ++ List.replicate (n - v.length) d)

/-- The elements of `v` from position `first` up to `last`; outside `v` there is nothing to read. -/
def readRange (v : List α) (first last : Nat) : Except Halt (List α) :=
  if first ≤ last ∧ last ≤ v.length then
    .ok ((v.drop first).take (last - first))
  else
    .error .undefinedBehaviour

/-- Copy `data` over the elements of `v` from position `pos` on; outside `v` there is nothing to
write to. -/
def writeAt (v : List α) (pos : Nat) (data : List α) : Except Halt (List α) :=
  if pos + data.length ≤ v.length then
    .ok (v.take pos ++ data ++ v.drop (pos + data.length))
  else
    .error .undefinedBehaviour

theorem resize_completes (v : List α) (n : Nat) (d : α) :
    Completes (fun w => n ≤ maxSize ∧ w = v.take n ++ List.replicate (n - v.length) d)
      (maxSize < n) (resize v n d) := by
  unfold resize
  split
  · exact Completes.lengthError (by assumption)
  · exact Completes.ok ⟨by omega, rfl⟩

theorem readRange_eq_ok {v : List α} {first last : Nat} (h₁ : first ≤ last) (h₂ : last ≤ v.length) :
    readRange v first last = .ok ((v.drop first).take (last - first)) :=
  if_pos ⟨h₁, h₂⟩

theorem writeAt_eq_ok {v data : List α} {pos : Nat} (h : pos + data.length ≤ v.length) :
    writeAt v pos data = .ok (v.take pos ++ data ++ v.drop (pos + data.length)) :=
  if_pos h

/-! ## Formatting -/

/-- `%d` of a non-negative value. -/
def decimal (n : Nat) : List Char := Nat.toDigits 10 n

/-- `%d`. -/
def formatInt (i : Int) : List Char :=
  if i < 0 then '-' :: decimal i.natAbs else decimal i.natAbs

theorem formatInt_natCast (n : Nat) : formatInt n = decimal n := by
  simp [formatInt]

/-- `snprintf(buf, size, …)`: the text is cut to leave room for the final `'\0'`. -/
def snprintf (size : Nat) (text : List Char) : List Char := text.take (size - 1)

theorem snprintf_of_length_lt {size : Nat} {text : List Char} (h : text.length < size) :
    snprintf size text = text :=
  List.take_of_length_le (by omega)

end Foundation
end MyCppCode
