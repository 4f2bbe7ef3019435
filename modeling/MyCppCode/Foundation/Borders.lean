import Mathlib.Data.List.Basic
import Mathlib.Data.Nat.Find

/-!
# Borders — the prefixes of a list that are also suffixes of its prefixes

`IsBorder p l k`: the prefix of `p` of length `k` is a suffix of the prefix of length `l`, and shorter.
`border p l` is the greatest such `k`.

* the borders of a border are borders, and every shorter border is one (`IsBorder.trans`,
  `IsBorder.of_lt`), so going from `l` to `border p l` visits all borders in decreasing order;
* `isBorder_succ_iff`: a longer prefix has a border for each border that the next element extends;
* `BordersBelow`: the state of a search for the longest border that can be extended, with a lemma for
  each way it goes on (`BordersBelow.found`, `BordersBelow.next`, `BordersBelow.none`).
-/

namespace MyCppCode
namespace Foundation

universe u

variable {α : Type u} {p : List α} {j k l m : Nat}

/-! ## Borders -/

/-- The prefix of length `k` is a proper suffix of the prefix of length `l`. -/
def IsBorder (p : List α) (l k : Nat) : Prop :=
  k < l ∧ p.take k <:+ p.take l

instance [DecidableEq α] (p : List α) (l k : Nat) : Decidable (IsBorder p l k) :=
  inferInstanceAs (Decidable (_ ∧ _))

theorem isBorder_zero (p : List α) (h : 0 < l) : IsBorder p l 0 :=
  ⟨h, List.nil_suffix⟩

theorem IsBorder.trans (hk : IsBorder p l k) (hm : IsBorder p k m) : IsBorder p l m :=
  ⟨Nat.lt_trans hm.1 hk.1, hm.2.trans hk.2⟩

/-- Of two borders the shorter is a border of the longer. -/
theorem IsBorder.of_lt (hk : IsBorder p l k) (hm : IsBorder p l m) (h : m < k) : IsBorder p k m := by
  refine ⟨h, List.suffix_of_suffix_length_le hm.2 hk.2 ?_⟩
  rw [List.length_take, List.length_take]
  omega

theorem concat_suffix_concat_iff {a b : List α} {x y : α} :
    a ++ [x] <:+ b ++ [y] ↔ a <:+ b ∧ x = y := by
  constructor
  · rintro ⟨t, ht⟩
    rw [← List.append_assoc] at ht
    obtain ⟨hinit, hlast⟩ := List.append_inj' ht rfl
    exact ⟨⟨t, hinit⟩, List.singleton_inj.mp hlast⟩
  · rintro ⟨⟨t, rfl⟩, rfl⟩
    exact ⟨t, by rw [List.append_assoc]⟩

/-- A border is extended by an element that follows both. -/
theorem isBorder_succ_iff (hj : j < p.length) :
    IsBorder p (j + 1) (k + 1) ↔ IsBorder p j k ∧ p[k]? = p[j]? := by
  unfold IsBorder
  by_cases hk : k < j
  · have hlt : k < p.length := Nat.lt_trans hk hj
    rw [List.take_succ_eq_append_getElem hj, List.take_succ_eq_append_getElem hlt,
      concat_suffix_concat_iff, List.getElem?_eq_getElem hj, List.getElem?_eq_getElem hlt,
      Option.some.injEq]
    constructor
    · rintro ⟨-, hsuffix, heq⟩
      exact ⟨⟨hk, hsuffix⟩, heq⟩
    · rintro ⟨⟨-, hsuffix⟩, heq⟩
      exact ⟨by omega, hsuffix, heq⟩
  · constructor
    · rintro ⟨hlt, -⟩
      omega
    · rintro ⟨⟨hlt, -⟩, -⟩
      omega

/-! ## The longest border -/

section Longest

variable [DecidableEq α]

/-- The length of the longest border of the prefix of length `l`. -/
def border (p : List α) (l : Nat) : Nat :=
  Nat.findGreatest (IsBorder p l) (l - 1)

theorem isBorder_border (p : List α) (h : 0 < l) : IsBorder p l (border p l) :=
  Nat.findGreatest_spec (Nat.zero_le _) (isBorder_zero p h)

theorem border_lt (p : List α) (h : 0 < l) : border p l < l :=
  (isBorder_border p h).1

theorem IsBorder.le_border (h : IsBorder p l k) : k ≤ border p l := by
  have hlt := h.1
  exact Nat.le_findGreatest (by omega) h

theorem border_eq_zero (h : ∀ k, ¬ IsBorder p l (k + 1)) : border p l = 0 := by
  by_contra hne
  obtain ⟨k, hk⟩ := Nat.exists_eq_succ_of_ne_zero hne
  have hborder : IsBorder p l (border p l) := Nat.findGreatest_of_ne_zero rfl hne
  rw [hk] at hborder
  exact h k hborder

/-- A search among the borders of the prefix of length `j` has come down to `i`: no longer one can be
extended by the element at `j`. -/
structure BordersBelow (p : List α) (j i : Nat) : Prop where
  isBorder : IsBorder p j i
  none_above : ∀ k, IsBorder p j k → p[k]? = p[j]? → k ≤ i

theorem BordersBelow.start (p : List α) (h : 0 < j) : BordersBelow p j (border p j) where
  isBorder := isBorder_border p h
  none_above := fun _ hk _ => hk.le_border

/-- Where the element extends the border, this is the longest border of the longer prefix. -/
theorem BordersBelow.found {i : Nat} (h : BordersBelow p j i) (hj : j < p.length)
    (heq : p[i]? = p[j]?) : border p (j + 1) = i + 1 := by
  apply Nat.le_antisymm
  · cases hb : border p (j + 1) with
    | zero => exact Nat.zero_le _
    | succ k =>
        have hborder : IsBorder p (j + 1) (border p (j + 1)) := isBorder_border p (Nat.succ_pos j)
        rw [hb, isBorder_succ_iff hj] at hborder
        exact Nat.succ_le_succ (h.none_above k hborder.1 hborder.2)
  · exact ((isBorder_succ_iff hj).mpr ⟨h.isBorder, heq⟩).le_border

/-- Where it does not, the next border to look at is the longest one of this border. -/
theorem BordersBelow.next {i : Nat} (h : BordersBelow p j i) (hi : 0 < i) (hne : p[i]? ≠ p[j]?) :
    BordersBelow p j (border p i) where
  isBorder := h.isBorder.trans (isBorder_border p hi)
  none_above := by
    intro k hk heq
    have hle := h.none_above k hk heq
    have hki : k ≠ i := by
      rintro rfl
      exact hne heq
    exact (h.isBorder.of_lt hk (by omega)).le_border

/-- Where not even the empty border is extended, there is none. -/
theorem BordersBelow.none (h : BordersBelow p j 0) (hj : j < p.length) (hne : p[0]? ≠ p[j]?) :
    border p (j + 1) = 0 := by
  apply border_eq_zero
  intro k hk
  obtain ⟨hborder, heq⟩ := (isBorder_succ_iff hj).mp hk
  obtain rfl : k = 0 := Nat.le_zero.mp (h.none_above k hborder heq)
  exact hne heq

end Longest

end Foundation
end MyCppCode
