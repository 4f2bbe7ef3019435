import Mathlib.Order.Bounds.Defs
import MyCppCode.Any.Kmp

/-!
# KmpBorders — what `checkPrefixSuffix` promises, and for which strings

The table that `checkPrefixSuffix` returns has, for every `j`, the length of the longest proper prefix of
`str[0..j]` that is also a suffix of it.  `str[str.size()]` is the terminating NUL and may be read, so a
call that returns could still have read behind the last character; here the indices are written down.

* `checkPrefixSuffixIndices` lists the indices into `str` and into `nxt`, in the order of their use;
* `FillsBorders`: the loops end, every index is inside, and the table has the longest borders.

The size of the table is an `int`, so a string of `2 ^ 31` bytes has none.
-/

namespace MyCppCode
namespace Any
namespace Kmp

open Foundation

universe u

/-! ## The indices -/

/-- An index into `str`, or into `nxt`. -/
inductive Index
  | str (i : Nat)
  | nxt (i : Nat)
  deriving DecidableEq, Repr

/-- The index is smaller than the size of what it is an index of. -/
def Index.Inside (strSize nxtSize : Nat) : Index → Prop
  | .str i => i < strSize
  | .nxt i => i < nxtSize

/-- The indices used after `x`, if it returns. -/
def after {α : Type u} (x : Except Halt α) (indices : α → List Index) : List Index :=
  match x with
  | .ok a => indices a
  | .error _ => []

/-- `while (str[i] != str[j] && i > 0) i = nxt[i - 1];` -/
def fallBackIndices (str : List UInt8) (nxt : List Nat) (j : Nat) : Nat → Nat → List Index
  | 0, _ => []
  | fuel + 1, i =>
      .str i :: .str j :: after (charAt str i) fun a => after (charAt str j) fun b =>
        if a ≠ b ∧ 0 < i then
          .nxt (i - 1) :: after (nxtAt nxt (i - 1)) fun i => fallBackIndices str nxt j fuel i
        else
          []

/-- One iteration of the outer loop: both branches write `nxt[j]`. -/
def roundIndices (fuel : Nat) (str : List UInt8) (s : Nat × List Nat) (j : Nat) : List Index :=
  fallBackIndices str s.2 j fuel s.1 ++
    after (fallBack (fun i => i - 1) str s.2 j fuel s.1) fun i => [.str i, .str j, .nxt j]

/-- `count` iterations, from `j` on. -/
def roundsIndices (fuel : Nat) (str : List UInt8) : Nat → Nat → Nat × List Nat → List Index
  | 0, _, _ => []
  | count + 1, j, s =>
      roundIndices fuel str s j ++
        after (round (fun i => i - 1) (fun nxt j => setAt nxt j 0) fuel str s j) fun s =>
          roundsIndices fuel str count (j + 1) s

/-- All the indices of a call of `checkPrefixSuffix`. -/
def checkPrefixSuffixIndices (fuel : Nat) (str : List UInt8) : List Index :=
  after (zeros (SizeT.toInt str.length)) fun nxt =>
    roundsIndices fuel str (str.length - 1) 1 (0, nxt)

theorem after_ok {α : Type u} (a : α) (indices : α → List Index) : after (.ok a) indices = indices a :=
  rfl

/-! ## The list is complete

Where all the indices in the list are inside, nothing in the call is undefined: the list misses none. -/

theorem fallBack_defined {str : List UInt8} {nxt : List Nat} {j i fuel : Nat}
    (h : ∀ x ∈ fallBackIndices str nxt j fuel i, x.Inside str.length nxt.length) :
    fallBack (fun i => i - 1) str nxt j fuel i ≠ .error .undefinedBehaviour := by
  induction fuel generalizing i with
  | zero =>
      intro heq
      cases heq
  | succ fuel ih =>
      rw [fallBackIndices] at h
      obtain ⟨hi, h⟩ := List.forall_mem_cons.1 h
      obtain ⟨hj, h⟩ := List.forall_mem_cons.1 h
      have hi : i < str.length := hi
      have hj : j < str.length := hj
      rw [charAt_of_le hi.le, after_ok, charAt_of_le hj.le, after_ok] at h
      rw [fallBack, charAt_of_le hi.le, ok_bind, charAt_of_le hj.le, ok_bind]
      split at h
      · obtain ⟨hentry, h⟩ := List.forall_mem_cons.1 h
        have hv : nxtAt nxt (i - 1) = .ok (nxt.get ⟨i - 1, hentry⟩) := by
          rw [nxtAt, List.getElem?_eq_getElem hentry]
          rfl
        rw [hv, after_ok] at h
        rw [if_pos ‹_›, hv, ok_bind]
        exact ih h
      · rw [if_neg ‹_›]
        intro heq
        cases heq

theorem round_defined {str : List UInt8} {fuel j : Nat} {s : Nat × List Nat}
    (h : ∀ x ∈ roundIndices fuel str s j, x.Inside str.length s.2.length) :
    round (fun i => i - 1) (fun nxt j => setAt nxt j 0) fuel str s j ≠ .error .undefinedBehaviour := by
  obtain ⟨hinner, h⟩ := List.forall_mem_append.1 h
  rw [round]
  refine bind_ne_error (fallBack_defined hinner) ?_
  intro k hk
  rw [hk, after_ok] at h
  simp only [List.forall_mem_cons] at h
  obtain ⟨hlt, hj, hwrite, -⟩ := h
  have hset : ∀ v, setAt s.2 j v = .ok (s.2.set j v) := fun v => if_pos hwrite
  rw [charAt_of_le (Nat.le_of_lt hlt), ok_bind, charAt_of_le (Nat.le_of_lt hj), ok_bind]
  split
  · rw [hset, ok_bind]
    intro heq
    cases heq
  · rw [hset, ok_bind]
    intro heq
    cases heq

theorem rounds_defined {str : List UInt8} {fuel count j : Nat} {s : Nat × List Nat}
    (h : ∀ x ∈ roundsIndices fuel str count j s, x.Inside str.length s.2.length) :
    rounds (fun i => i - 1) (fun nxt j => setAt nxt j 0) fuel str count j s
      ≠ .error .undefinedBehaviour := by
  induction count generalizing j s with
  | zero =>
      intro heq
      cases heq
  | succ count ih =>
      obtain ⟨hfirst, h⟩ := List.forall_mem_append.1 h
      rw [rounds]
      refine bind_ne_error (round_defined hfirst) ?_
      intro s' hs
      -- the table keeps its size
      rw [hs, after_ok, ← (length_of_round hs).2] at h
      exact ih h

theorem checkPrefixSuffix_defined {str : List UInt8} {fuel : Nat} {nxt : List Nat}
    (hnxt : zeros (SizeT.toInt str.length) = .ok nxt)
    (h : ∀ x ∈ checkPrefixSuffixIndices fuel str, x.Inside str.length nxt.length) :
    checkPrefixSuffix fuel str ≠ .error .undefinedBehaviour := by
  rw [checkPrefixSuffixIndices, hnxt, after_ok] at h
  rw [checkPrefixSuffix, hnxt, ok_bind]
  refine bind_ne_error (rounds_defined h) ?_
  intro s hs heq
  cases heq

/-! ## No index is outside -/

/-- The inner loop uses the borders of the prefix before `j`, and the entries for them. -/
theorem fallBackIndices_inside {str : List UInt8} {nxt : List Nat} {j i : Nat} (hj : j < str.length)
    (hnxt : Filled (fun k => border str (k + 1)) str.length j nxt) (hi : BordersBelow str j i)
    (fuel : Nat) :
    ∀ x ∈ fallBackIndices str nxt j fuel i, x.Inside str.length str.length := by
  induction fuel generalizing i with
  | zero =>
      intro x hx
      cases hx
  | succ fuel ih =>
      have hij : i < j := hi.isBorder.1
      have hlt : i < str.length := by omega
      rw [fallBackIndices, charAt_of_le hlt.le, after_ok, charAt_of_le hj.le, after_ok]
      refine List.forall_mem_cons.2 ⟨hlt, List.forall_mem_cons.2 ⟨hj, ?_⟩⟩
      by_cases hcond : str.getD i 0 ≠ str.getD j 0 ∧ 0 < i
      · rw [if_pos hcond]
        obtain ⟨hne, hpos⟩ := hcond
        rw [Ne, getD_eq_iff hlt hj] at hne
        -- `nxt[i - 1]` is the longest border of the prefix of length `i`
        have hentry : nxtAt nxt (i - 1) = .ok (border str i) := by
          rw [nxtAt, hnxt.entry (i - 1) (by omega), if_pos (by omega), Nat.sub_add_cancel hpos]
        have hinside : (Index.nxt (i - 1)).Inside str.length str.length := by
          change i - 1 < str.length
          omega
        rw [hentry, after_ok]
        exact List.forall_mem_cons.2 ⟨hinside, ih (hi.next hpos hne)⟩
      · rw [if_neg hcond]
        exact List.forall_mem_nil _

theorem roundIndices_inside {str : List UInt8} {fuel j : Nat} {s : Nat × List Nat}
    (hj : j < str.length) (hpos : 0 < j) (hfuel : str.length ≤ fuel) (hs : BorderInv str j s) :
    ∀ x ∈ roundIndices fuel str s j, x.Inside str.length str.length := by
  obtain ⟨k, hback, hk, -⟩ := hs.fallBack_ok hj hpos hfuel
  have hkj : k < j := hk.isBorder.1
  have hinside : (Index.str k).Inside str.length str.length := lt_trans hkj hj
  rw [roundIndices, hback, after_ok]
  refine List.forall_mem_append.2 ⟨?_, ?_⟩
  · exact fallBackIndices_inside hj hs.filled (hs.bordersBelow hpos) fuel
  · simp only [List.forall_mem_cons]
    exact ⟨hinside, hj, hj, List.forall_mem_nil _⟩

/-- From iteration to iteration the table has the longest borders before `j`. -/
theorem roundsIndices_inside {str : List UInt8} {fuel count j : Nat} {s : Nat × List Nat}
    (hcount : count = 0 ∨ j + count ≤ str.length) (hpos : 0 < j) (hfuel : str.length ≤ fuel)
    (hs : BorderInv str j s) :
    ∀ x ∈ roundsIndices fuel str count j s, x.Inside str.length str.length := by
  induction count generalizing j s with
  | zero =>
      intro x hx
      cases hx
  | succ count ih =>
      have hj : j < str.length := by omega
      obtain ⟨s', hround, hs'⟩ := round_borders hj hpos hfuel hs
      rw [roundsIndices, hround, after_ok]
      refine List.forall_mem_append.2 ⟨roundIndices_inside hj hpos hfuel hs, ?_⟩
      exact ih (by omega) (Nat.succ_pos j) hs'

theorem checkPrefixSuffixIndices_inside {str : List UInt8} {fuel : Nat} (hlength : str.length < 2 ^ 31)
    (hfuel : str.length ≤ fuel) :
    ∀ x ∈ checkPrefixSuffixIndices fuel str, x.Inside str.length str.length := by
  rw [checkPrefixSuffixIndices, zeros_of_lt hlength, after_ok]
  exact roundsIndices_inside (by omega) Nat.one_pos hfuel (borderInv_start str)

/-! ## The table -/

/-- Every entry is the length of the longest proper prefix of `str[0..j]` that is also a suffix of it. -/
structure LongestBorders (str : List UInt8) (nxt : List Nat) : Prop where
  length : nxt.length = str.length
  entry : ∀ j < str.length, ∃ k, nxt[j]? = some k ∧ IsGreatest {k | IsBorder str (j + 1) k} k

theorem longestBorders_borderTable (str : List UInt8) : LongestBorders str (borderTable str) where
  length := by
    rw [borderTable, List.length_map, List.length_range]
  entry := by
    intro j hj
    refine ⟨border str (j + 1), ?_, isBorder_border str (Nat.succ_pos j), ?_⟩
    · rw [borderTable, List.getElem?_map, List.getElem?_range hj]
      rfl
    · intro k hk
      exact IsBorder.le_border hk

/-- `checkPrefixSuffix` returns such a table, and uses no index outside `str` or `nxt` on the way. -/
def FillsBorders (str : List UInt8) : Prop :=
  ∃ nxt, LongestBorders str nxt ∧ ∃ n, ∀ fuel, n ≤ fuel →
    checkPrefixSuffix fuel str = .ok nxt ∧
      ∀ x ∈ checkPrefixSuffixIndices fuel str, x.Inside str.length nxt.length

theorem FillsBorders.length_lt {str : List UInt8} (h : FillsBorders str) : str.length < 2 ^ 31 := by
  obtain ⟨nxt, -, n, hreturns⟩ := h
  exact length_of_checkPrefixSuffix (hreturns n le_rfl).1

/-- The strings whose length is an `int` are those that `checkPrefixSuffix` has a table for. -/
theorem fillsBorders_iff (str : List UInt8) : FillsBorders str ↔ str.length < 2 ^ 31 := by
  constructor
  · exact FillsBorders.length_lt
  · intro hlength
    have htable := longestBorders_borderTable str
    refine ⟨borderTable str, htable, str.length, ?_⟩
    intro fuel hfuel
    rw [htable.length]
    exact ⟨checkPrefixSuffix_eq hlength hfuel, checkPrefixSuffixIndices_inside hlength hfuel⟩

/-- A string of `2 ^ 31` bytes: the size of the vector is negative. -/
theorem not_fillsBorders_large : ¬ FillsBorders (List.replicate (2 ^ 31) 97) := by
  intro h
  have hlt := h.length_lt
  rw [List.length_replicate] at hlt
  exact absurd hlt (lt_irrefl _)

end Kmp
end Any
end MyCppCode
