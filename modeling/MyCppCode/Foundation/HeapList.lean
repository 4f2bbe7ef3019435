import Mathlib.Data.List.Nodup
import Mathlib.Data.Option.Basic

/-!
# HeapList — linked lists in a heap

A heap is seen only through its links: `next a` is `none` where nothing is allocated at `a`, and else
the pointer that the node at `a` holds, null or to another node.

* `Linked next p l`: from the pointer `p`, the nodes `l` follow one another up to a null pointer;
* `Segment next a l c`: from the node `a`, the nodes `l` lead to `c`, whatever `c` points to.

A list is determined by its pointer, and so it never comes back to a node.
-/

namespace MyCppCode
namespace Foundation

universe u

variable {A : Type u} {next next' : A → Option (Option A)}

inductive Linked (next : A → Option (Option A)) : Option A → List A → Prop where
  | nil : Linked next none []
  | cons {a : A} {q : Option A} {l : List A} : next a = some q → Linked next q l →
      Linked next (some a) (a :: l)

inductive Segment (next : A → Option (Option A)) : A → List A → A → Prop where
  | last (c : A) : Segment next c [c] c
  | cons {a b c : A} {l : List A} : a ≠ c → next a = some (some b) → Segment next b l c →
      Segment next a (a :: l) c

namespace Linked

theorem eq_nil {l : List A} (h : Linked next none l) : l = [] := by
  cases h
  rfl

theorem unique {p : Option A} {l l' : List A} (h : Linked next p l) (h' : Linked next p l') :
    l = l' := by
  induction h generalizing l' with
  | nil =>
      exact h'.eq_nil.symm
  | cons hnext _ ih =>
      cases h' with
      | cons hnext' hrest =>
          cases hnext.symm.trans hnext'
          rw [ih hrest]

/-- The list from one of its nodes on. -/
theorem suffix {p : Option A} {l : List A} (h : Linked next p l) {a : A} (ha : a ∈ l) :
    ∃ l₁ l₂, l = l₁ ++ a :: l₂ ∧ Linked next (some a) (a :: l₂) := by
  induction h with
  | nil =>
      cases ha
  | @cons b q l hnext hrest ih =>
      rcases List.mem_cons.1 ha with rfl | ha
      · exact ⟨[], l, rfl, .cons hnext hrest⟩
      · obtain ⟨l₁, l₂, rfl, hsuffix⟩ := ih ha
        exact ⟨b :: l₁, l₂, rfl, hsuffix⟩

/-- A list never comes back to a node: it would be as long as a proper part of itself. -/
theorem nodup {p : Option A} {l : List A} (h : Linked next p l) : l.Nodup := by
  induction h with
  | nil =>
      exact List.nodup_nil
  | @cons a q l hnext hrest ih =>
      refine List.nodup_cons.2 ⟨?_, ih⟩
      intro ha
      obtain ⟨l₁, l₂, hl, hsuffix⟩ := hrest.suffix ha
      have hsame : a :: l₂ = a :: l := hsuffix.unique (.cons hnext hrest)
      have hlength : l.length = l₁.length + (l₂.length + 1) := by
        rw [hl, List.length_append, List.length_cons]
      have hequal : l₂.length = l.length := by
        rw [List.tail_eq_of_cons_eq hsame]
      omega

/-- A list depends on its own nodes only. -/
theorem congr {p : Option A} {l : List A} (h : Linked next p l)
    (heq : ∀ a ∈ l, next' a = next a) : Linked next' p l := by
  induction h with
  | nil =>
      exact .nil
  | cons hnext _ ih =>
      refine .cons ?_ (ih fun b hb => heq b (List.mem_cons_of_mem _ hb))
      rw [heq _ (List.mem_cons_self ..), hnext]

theorem next_mem {p : Option A} {l : List A} (h : Linked next p l) {a b : A} (ha : a ∈ l)
    (hnext : next a = some (some b)) : b ∈ l := by
  obtain ⟨l₁, l₂, rfl, hsuffix⟩ := h.suffix ha
  cases hsuffix with
  | cons hnext' hrest =>
      cases hnext.symm.trans hnext'
      cases hrest with
      | cons _ _ =>
          simp

/-- The walk along a list ends at its last node. -/
theorem segment {f : A} {l : List A} (h : Linked next (some f) l) {c : A} (hc : c ∈ l)
    (hlast : next c = some none) : Segment next f l c := by
  induction l generalizing f with
  | nil =>
      cases hc
  | cons a l ih =>
      cases h with
      | cons hnext hrest =>
          by_cases hac : a = c
          · subst hac
            cases hnext.symm.trans hlast
            cases hrest
            exact .last a
          · have hcl : c ∈ l := (List.mem_cons.1 hc).resolve_left (Ne.symm hac)
            cases hrest with
            | nil =>
                cases hcl
            | cons hnext' hrest' =>
                exact .cons hac hnext (ih (.cons hnext' hrest') hcl)

end Linked

namespace Segment

theorem last_mem {a c : A} {l : List A} (h : Segment next a l c) : c ∈ l := by
  induction h with
  | last c =>
      exact List.mem_cons_self ..
  | cons _ _ _ ih =>
      exact List.mem_cons_of_mem _ ih

/-- A segment depends on its own nodes only, and not on what the last one points to. -/
theorem congr {a c : A} {l : List A} (h : Segment next a l c)
    (heq : ∀ b ∈ l, b ≠ c → next' b = next b) : Segment next' a l c := by
  induction h with
  | last c =>
      exact .last c
  | cons hne hnext _ ih =>
      refine .cons hne ?_ (ih fun b hb => heq b (List.mem_cons_of_mem _ hb))
      rw [heq _ (List.mem_cons_self ..) hne, hnext]

/-- A segment put before a list. -/
theorem linked {a c : A} {l l' : List A} {q : Option A} (h : Segment next a l c)
    (hlast : next c = some q) (hrest : Linked next q l') : Linked next (some a) (l ++ l') := by
  induction h with
  | last c =>
      exact .cons hlast hrest
  | cons _ hnext _ ih =>
      exact .cons hnext (ih hlast)

end Segment

end Foundation
end MyCppCode
