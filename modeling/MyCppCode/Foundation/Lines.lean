import Mathlib.Data.List.Basic

/-!
# Lines — a stream cut into lines by a two-element terminator

`splitLines a b` cuts a list at every `a` that is directly followed by `b`, from the left: the complete
lines without their terminators, and the rest that has no terminator in it.  `joinLines` is the
inverse.  For `a ≠ b` the cut is unique, so a prefix of a joined list is a number of whole lines and
a beginning of the next one (`splitLines_prefix`).
-/

namespace MyCppCode
namespace Foundation

universe u

/-! ## Cutting and joining -/

/-- The complete lines of a list, and what follows the last of them. -/
def splitLines {α : Type u} [DecidableEq α] (a b : α) : List α → List (List α) × List α
  | [] => ([], [])
  | [c] => ([], [c])
  | c :: d :: rest =>
      if c = a ∧ d = b then
        ([] :: (splitLines a b rest).1, (splitLines a b rest).2)
      else
        match splitLines a b (d :: rest) with
        | (l :: ls, t) => ((c :: l) :: ls, t)
        | ([], t) => ([], c :: t)

/-- Lines with their terminators. -/
def joinLines {α : Type u} (a b : α) (ls : List (List α)) : List α :=
  ls.flatMap (· ++ [a, b])

section Join

variable {α : Type u} {a b : α}

@[simp] theorem joinLines_nil : joinLines a b [] = [] := rfl

@[simp] theorem joinLines_cons (l : List α) (ls : List (List α)) :
    joinLines a b (l :: ls) = l ++ a :: b :: joinLines a b ls := by
  simp [joinLines]

@[simp] theorem joinLines_append (ls ls' : List (List α)) :
    joinLines a b (ls ++ ls') = joinLines a b ls ++ joinLines a b ls' := by
  simp [joinLines]

end Join

variable {α : Type u} [DecidableEq α] {a b : α}

/-- There is no terminator in the list. -/
def Unterminated (a b : α) (l : List α) : Prop :=
  splitLines a b l = ([], l)

instance (a b : α) (l : List α) : Decidable (Unterminated a b l) :=
  inferInstanceAs (Decidable (splitLines a b l = ([], l)))

theorem unterminated_nil : Unterminated a b [] := rfl

/-- Nothing is lost by cutting. -/
theorem join_splitLines (l : List α) :
    joinLines a b (splitLines a b l).1 ++ (splitLines a b l).2 = l := by
  fun_induction splitLines a b l with
  | case1 => rfl
  | case2 c => rfl
  | case3 c d rest h ih =>
      obtain ⟨rfl, rfl⟩ := h
      simpa using ih
  | case4 c d rest h l ls t heq ih => simpa [heq] using ih
  | case5 c d rest h t heq ih => simpa [heq] using ih

/-- A list that is cut nowhere is its own rest. -/
theorem unterminated_of_fst_eq_nil {l : List α} (h : (splitLines a b l).1 = []) :
    Unterminated a b l := by
  have hjoin := join_splitLines (a := a) (b := b) l
  rw [h] at hjoin
  exact Prod.ext h (by simpa using hjoin)

theorem Unterminated.tail {c : α} {l : List α} (h : Unterminated a b (c :: l)) :
    Unterminated a b l := by
  cases l with
  | nil => exact unterminated_nil
  | cons d rest =>
      apply unterminated_of_fst_eq_nil
      unfold Unterminated at h
      simp only [splitLines] at h
      split at h
      · simp at h
      · split at h
        · simp at h
        · rename_i t heq
          rw [heq]

/-- The first line of a list that begins with one. -/
theorem splitLines_line (hab : a ≠ b) {l : List α} (hl : Unterminated a b l) (rest : List α) :
    splitLines a b (l ++ a :: b :: rest) =
      (l :: (splitLines a b rest).1, (splitLines a b rest).2) := by
  induction l with
  | nil => simp [splitLines]
  | cons c l ih =>
      have ih := ih hl.tail
      cases l with
      | nil =>
          -- The terminator does not begin with the last element of the line.
          have hnot : ¬ (c = a ∧ a = b) := fun h => hab h.2
          simp only [List.nil_append, List.cons_append] at ih ⊢
          simp only [splitLines, if_neg hnot]
          simp
      | cons d l =>
          have hnot : ¬ (c = a ∧ d = b) := by
            intro h
            unfold Unterminated at hl
            simp [splitLines, h] at hl
          simp only [List.cons_append] at ih ⊢
          rw [splitLines, if_neg hnot, ih]

theorem Unterminated.cons {c d : α} {l : List α} (h : ¬ (c = a ∧ d = b))
    (hl : Unterminated a b (d :: l)) : Unterminated a b (c :: d :: l) := by
  unfold Unterminated at hl ⊢
  rw [splitLines, if_neg h, hl]

/-- Without its first element there is no terminator. -/
theorem unterminated_of_not_mem {l : List α} (h : a ∉ l) : Unterminated a b l := by
  induction l with
  | nil => rfl
  | cons c l ih =>
      rw [List.mem_cons, not_or] at h
      cases l with
      | nil => rfl
      | cons d l => exact (ih h.2).cons fun hcd => h.1 hcd.1.symm

/-- An element that is no part of the terminator may stand between two lists without one. -/
theorem Unterminated.append_cons {u v : List α} {c : α} (hca : c ≠ a) (hcb : c ≠ b)
    (hu : Unterminated a b u) (hv : Unterminated a b v) : Unterminated a b (u ++ c :: v) := by
  have hcv : Unterminated a b (c :: v) := by
    cases v with
    | nil => rfl
    | cons d v => exact hv.cons fun h => hca h.1
  induction u with
  | nil => exact hcv
  | cons x u ih =>
      have ih := ih hu.tail
      cases u with
      | nil => exact Unterminated.cons (fun h => hcb h.2) ih
      | cons d u =>
          -- The first two elements are those of `u`, which has no terminator in front.
          refine Unterminated.cons (fun h => ?_) ih
          unfold Unterminated at hu
          simp [splitLines, h] at hu

/-- The first complete line, its terminator, and the lines behind it. -/
theorem splitLines_eq_cons {u l t : List α} {ls : List (List α)}
    (h : splitLines a b u = (l :: ls, t)) :
    Unterminated a b l ∧ ∃ rest, u = l ++ a :: b :: rest ∧ splitLines a b rest = (ls, t) := by
  fun_induction splitLines a b u generalizing l ls t with
  | case1 => simp at h
  | case2 c => simp at h
  | case3 c d rest hcd ih =>
      obtain ⟨rfl, rfl⟩ := hcd
      simp only [Prod.mk.injEq, List.cons.injEq] at h
      obtain ⟨⟨rfl, rfl⟩, rfl⟩ := h
      exact ⟨unterminated_nil, rest, rfl, rfl⟩
  | case4 c d rest hcd l' ls' t' heq ih =>
      simp only [Prod.mk.injEq, List.cons.injEq] at h
      obtain ⟨⟨rfl, rfl⟩, rfl⟩ := h
      obtain ⟨hl, rest', hrest, hsplit⟩ := ih heq
      refine ⟨?_, rest', by rw [hrest, List.cons_append], hsplit⟩
      cases l' with
      | nil => rfl
      | cons d' l' =>
          obtain ⟨rfl, -⟩ := List.cons.inj hrest
          exact hl.cons hcd
  | case5 c d rest hcd t' heq ih => simp at h

theorem splitLines_join (hab : a ≠ b) {ls : List (List α)} (hls : ∀ l ∈ ls, Unterminated a b l)
    (t : List α) :
    splitLines a b (joinLines a b ls ++ t) = (ls ++ (splitLines a b t).1, (splitLines a b t).2) := by
  induction ls with
  | nil => simp
  | cons l ls ih =>
      have hl : Unterminated a b l := hls l (by simp)
      have ih := ih fun l' hl' => hls l' (by simp [hl'])
      simp only [joinLines_cons, List.append_assoc, List.cons_append]
      rw [splitLines_line hab hl, ih]

/-- Cutting goes on where it stopped when more arrives. -/
theorem splitLines_append (u v : List α) :
    splitLines a b (u ++ v) =
      ((splitLines a b u).1 ++ (splitLines a b ((splitLines a b u).2 ++ v)).1,
        (splitLines a b ((splitLines a b u).2 ++ v)).2) := by
  fun_induction splitLines a b u with
  | case1 => rfl
  | case2 c => rfl
  | case3 c d rest h ih =>
      simp only [List.cons_append, splitLines, if_pos h, ih]
  | case4 c d rest h l ls t heq ih =>
      rw [heq] at ih
      simp only [List.cons_append] at ih ⊢
      rw [splitLines, if_neg h, ih]
  | case5 c d rest h t heq ih =>
      have ht : d :: rest = t := by
        have hun : Unterminated a b (d :: rest) := unterminated_of_fst_eq_nil (by rw [heq])
        have := hun.symm.trans heq
        simpa using this
      subst ht
      rfl

/-- A beginning of a joined list is a number of whole lines and a beginning of the next one. -/
theorem splitLines_prefix (hab : a ≠ b) {ls : List (List α)} (hls : ∀ l ∈ ls, Unterminated a b l)
    {u v : List α} (h : u ++ v = joinLines a b ls) :
    ∃ ls', ls = (splitLines a b u).1 ++ ls' ∧ (splitLines a b u).2 ++ v = joinLines a b ls' := by
  have hwhole : splitLines a b (u ++ v) = (ls, []) := by
    have := splitLines_join hab hls []
    simpa [h, splitLines] using this
  rw [splitLines_append] at hwhole
  obtain ⟨hlines, hrest⟩ := Prod.mk.inj hwhole
  refine ⟨_, hlines.symm, ?_⟩
  have hjoin := join_splitLines (a := a) (b := b) ((splitLines a b u).2 ++ v)
  rw [hrest, List.append_nil] at hjoin
  exact hjoin.symm

end Foundation
end MyCppCode
