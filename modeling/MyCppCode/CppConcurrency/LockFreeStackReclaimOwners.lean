import Mathlib.Algebra.BigOperators.Group.List.Basic
import MyCppCode.CppConcurrency.LockFreeStackReclaim

/-!
# LockFreeStackReclaimOwners — who may write or delete a node

At every moment each allocated node has one owner: the stack, the list `to_be_deleted`, or a thread,
from its `new` to its publication and from its removal to where it is chained or deleted.  A thread in
`pop` may also have a pointer to a node that it does not own.  What makes this safe:

* only the owner writes a node, so the nodes of the stack keep their `next`;
* a node that its owner is about to delete is in nobody else's hands (`Pc.Shares` says which nodes may
  be), for nobody else was in `pop` when the owner looked, and who comes later cannot reach it;
* so no held node is deleted, and none comes back as a new one.
-/

namespace MyCppCode
namespace CppConcurrency

open Foundation
open History (effects)
open Lifo

universe u

namespace LockFreeStackReclaim

variable {α : Type u} {s t : State α} {i : Nat} {th : Thread α}

/-! ## Owners -/

inductive Owner
  | free
  | stack
  | pending
  | thread (i : Nat)
  deriving DecidableEq, Repr

/-- The `next` pointers of a heap. -/
def links (heap : Nat → Option (Node α)) (a : Nat) : Option (Option Nat) := (heap a).map Node.next

def After.old? : After → Option Nat
  | .deleteOld old => old
  | .leavePop => none

/-- The nodes that the thread owns are `l`. -/
def Pc.Keeps (next : Nat → Option (Option Nat)) : Pc → List Nat → Prop
  | .pushLoad nd, l => l = [nd]
  | .pushCas nd, l => l = [nd]
  | .swapData old, l => l = [old]
  | .tryReclaim old, l => l = old.toList
  | .takePending old, l => l = old.toList
  | .leaveAlone old nodes, l => ∃ m, Linked next nodes m ∧ l = old.toList ++ m
  | .deleteLoop old nodes, l => ∃ m, Linked next nodes m ∧ l = old.toList ++ m
  | .deleteNode old nodes nxt, l => ∃ m, Linked next nxt m ∧ l = old.toList ++ nodes :: m
  | .findLast old nodes lst, l =>
      ∃ m, Linked next (some nodes) m ∧ lst ∈ m ∧ l = old.toList ++ m
  | .chainLoad none none .leavePop, l => l = []
  | .chainLoad (some first) (some last) after, l =>
      ∃ m, Segment next first m last ∧ l = after.old?.toList ++ m
  | .chainLoad _ _ _, _ => False
  | .chainCas (some first) last after, l =>
      ∃ m, Segment next first m last ∧ l = after.old?.toList ++ m
  | .chainCas none _ _, _ => False
  | .deleteOld old, l => l = old.toList
  | _, l => l = []

/-- `pop` has a pointer to the node without owning it. -/
def Pc.Holds : Pc → Nat → Prop
  | .popLoop (some old), a => a = old
  | .popCas old _, a => a = old
  | _, _ => False

/-- The node may be held by others while it belongs to this thread. -/
def Pc.Shares : Pc → Nat → Prop
  | .swapData _, _ => True
  | .tryReclaim _, _ => True
  | .takePending old, a => old ≠ some a
  | .leaveAlone old _, a => old ≠ some a
  | .findLast old _ _, a => old ≠ some a
  | .chainLoad _ _ after, a => after.old? ≠ some a
  | .chainCas _ _ after, a => after.old? ≠ some a
  | _, _ => False

/-- 1 where the thread has been counted by `++th_in_pop` and not yet by `--threads_in_pop`. -/
def Pc.inPop : Pc → Nat
  | .popLoad => 1
  | .popLoop _ => 1
  | .popCas _ _ => 1
  | .swapData _ => 1
  | .tryReclaim _ => 1
  | .takePending _ => 1
  | .leaveAlone _ _ => 1
  | .chainLoad _ _ .leavePop => 1
  | .chainCas _ _ .leavePop => 1
  | .leavePop => 1
  | _ => 0

/-- Where the thread is in its operation. -/
def Thread.PhaseIs (heap : Nat → Option (Node α)) (p : Phase α) (th : Thread α) : Prop :=
  match th.pc with
  | .idle => p = .idle
  | .pushLoad nd => ∃ data, (heap nd).bind Node.data = some data ∧ p = .pending (.push data)
  | .pushCas nd => ∃ data, (heap nd).bind Node.data = some data ∧ p = .pending (.push data)
  | .pushReturn => p = .decided none
  | .popEnter => p = .pending .pop
  | .popLoad => p = .pending .pop
  | .popLoop none => p = .decided none
  | .popLoop (some _) => p = .pending .pop
  | .popCas _ _ => p = .pending .pop
  | .swapData old => ∃ data, (heap old).bind Node.data = some data ∧ p = .decided (some data)
  | _ => p = .decided th.res

theorem Pc.inPop_le_one (pc : Pc) : pc.inPop ≤ 1 := by
  unfold Pc.inPop
  split <;> omega

/-- Who holds a node is counted. -/
theorem Pc.inPop_of_holds {pc : Pc} {a : Nat} (h : pc.Holds a) : pc.inPop = 1 := by
  unfold Pc.Holds at h
  split at h
  · rfl
  · rfl
  · exact absurd h id

theorem Pc.not_shares_of_holds {pc : Pc} {a b : Nat} (h : pc.Holds a) : ¬ pc.Shares b := by
  unfold Pc.Holds at h
  split at h
  · exact id
  · exact id
  · exact absurd h id

/-! ## The invariant -/

/-- What is known about the thread: the nodes it owns, and how far its operation is. -/
structure ThreadOk (heap : Nat → Option (Node α)) (log : List (Entry α)) (owner : Nat → Owner)
    (i : Nat) (th : Thread α) : Prop where
  keeps : ∃ l, th.pc.Keeps (links heap) l ∧ l.Nodup ∧ ∀ a, owner a = .thread i ↔ a ∈ l
  phase : ∃ p, th.PhaseIs heap p ∧ Follows i log p

/-- The stack: its nodes with their data. -/
structure StackIs (heap : Nat → Option (Node α)) (head : Option Nat) (es : List (Effect (Nat × α)))
    (owner : Nat → Owner) (st : List (Nat × α)) : Prop where
  linked : Linked (links heap) head (st.map Prod.fst)
  data : ∀ x ∈ st, (heap x.1).bind Node.data = some x.2
  sequential : Sequential es st
  owned : ∀ a, owner a = .stack ↔ a ∈ st.map Prod.fst

/-- The list `to_be_deleted`. -/
structure PendingIs (heap : Nat → Option (Node α)) (toBeDeleted : Option Nat) (owner : Nat → Owner)
    (pd : List Nat) : Prop where
  linked : Linked (links heap) toBeDeleted pd
  owned : ∀ a, owner a = .pending ↔ a ∈ pd

/-- A node that a thread may hold without owning it: it is where its owner neither writes its data, nor
deletes it, nor publishes it. -/
def Shareable (threads : List (Thread α)) (owner : Nat → Owner) (a : Nat) : Prop :=
  owner a = .stack ∨ owner a = .pending ∨
    ∃ j th, threads[j]? = some th ∧ owner a = .thread j ∧ th.pc.Shares a

structure Owned (s : State α) (owner : Nat → Owner) : Prop where
  alloc : ∀ a, s.heap a = none ↔ owner a = .free
  stack : ∃ st, StackIs s.heap s.head (effects s.log) owner st
  pending : ∃ pd, PendingIs s.heap s.toBeDeleted owner pd
  threads : ∀ i th, s.threads[i]? = some th → ThreadOk s.heap s.log owner i th
  inside : ∀ i a, owner a = .thread i → i < s.threads.length
  held : ∀ (i : Nat) (th : Thread α) (a : Nat), s.threads[i]? = some th → th.pc.Holds a →
    Shareable s.threads owner a
  next_ok : ∀ (i : Nat) (th : Thread α) (a : Nat) (next : Option Nat), s.threads[i]? = some th →
    th.pc = .popCas a next → owner a = .stack → links s.heap a = some next
  count : s.threadsInPop = (s.threads.map fun th : Thread α => th.pc.inPop).sum

theorem start_owned (n : Nat) : Owned (start n : State α) fun _ => .free := by
  have hidle : ∀ (i : Nat) (th : Thread α), (start n : State α).threads[i]? = some th →
      th = ⟨.idle, none⟩ := by
    intro i th hth
    exact List.eq_of_mem_replicate (List.mem_of_getElem? hth)
  refine ⟨fun a => by simp [start], ⟨[], .nil, by simp, .nil, by simp⟩, ⟨[], .nil, by simp⟩, ?_, by simp,
    ?_, ?_, ?_⟩
  · intro i th hth
    rw [hidle i th hth]
    exact ⟨⟨[], rfl, List.nodup_nil, by simp⟩, ⟨.idle, rfl, .nil⟩⟩
  · intro i th a hth hholds
    rw [hidle i th hth] at hholds
    exact absurd hholds id
  · intro i th a next hth hpc
    rw [hidle i th hth] at hpc
    cases hpc
  · simp [start, Pc.inPop]

/-! ## What a thread knows depends on its own nodes only -/

theorem Pc.Keeps.congr {next next' : Nat → Option (Option Nat)} {pc : Pc} {l : List Nat}
    (h : pc.Keeps next l) (heq : ∀ a ∈ l, next' a = next a) : pc.Keeps next' l := by
  cases pc with
  | leaveAlone old nodes =>
      obtain ⟨m, hm, rfl⟩ := h
      exact ⟨m, hm.congr fun a ha => heq a (List.mem_append_right _ ha), rfl⟩
  | deleteLoop old nodes =>
      obtain ⟨m, hm, rfl⟩ := h
      exact ⟨m, hm.congr fun a ha => heq a (List.mem_append_right _ ha), rfl⟩
  | deleteNode old nodes nxt =>
      obtain ⟨m, hm, rfl⟩ := h
      refine ⟨m, hm.congr fun a ha => ?_, rfl⟩
      exact heq a (List.mem_append_right _ (List.mem_cons_of_mem _ ha))
  | findLast old nodes lst =>
      obtain ⟨m, hm, hlst, rfl⟩ := h
      exact ⟨m, hm.congr fun a ha => heq a (List.mem_append_right _ ha), hlst, rfl⟩
  | chainLoad first last after =>
      cases first with
      | none => cases last <;> cases after <;> exact h
      | some first =>
          cases last with
          | none => exact h
          | some last =>
              obtain ⟨m, hm, rfl⟩ := h
              exact ⟨m, hm.congr fun a ha _ => heq a (List.mem_append_right _ ha), rfl⟩
  | chainCas first last after =>
      cases first with
      | none => exact h
      | some first =>
          obtain ⟨m, hm, rfl⟩ := h
          exact ⟨m, hm.congr fun a ha _ => heq a (List.mem_append_right _ ha), rfl⟩
  | _ => exact h

theorem Thread.PhaseIs.congr {heap heap' : Nat → Option (Node α)} {p : Phase α} {l : List Nat}
    (h : th.PhaseIs heap p) (hkeeps : th.pc.Keeps (links heap) l)
    (heq : ∀ a ∈ l, heap' a = heap a) : th.PhaseIs heap' p := by
  obtain ⟨pc, res⟩ := th
  have hone : ∀ nd, l = [nd] → heap' nd = heap nd := by
    rintro nd rfl
    exact heq nd (List.mem_cons_self ..)
  cases pc with
  | pushLoad nd =>
      obtain ⟨data, hdata, hp⟩ := h
      exact ⟨data, by rw [hone nd hkeeps, hdata], hp⟩
  | pushCas nd =>
      obtain ⟨data, hdata, hp⟩ := h
      exact ⟨data, by rw [hone nd hkeeps, hdata], hp⟩
  | swapData old =>
      obtain ⟨data, hdata, hp⟩ := h
      exact ⟨data, by rw [hone old hkeeps, hdata], hp⟩
  | popLoop old => cases old <;> exact h
  | _ => exact h

theorem links_some {heap : Nat → Option (Node α)} {a : Nat} {node : Node α} (h : heap a = some node) :
    links heap a = some node.next := by
  rw [links, h]
  rfl

theorem links_congr {heap heap' : Nat → Option (Node α)} {a : Nat} (h : heap' a = heap a) :
    links heap' a = links heap a := by
  rw [links, h, links]

theorem StackIs.congr {heap : Nat → Option (Node α)} (heap' : Nat → Option (Node α))
    {head : Option Nat} {es : List (Effect (Nat × α))} {owner : Nat → Owner} {st : List (Nat × α)}
    (h : StackIs heap head es owner st) (heq : ∀ a, owner a = .stack → heap' a = heap a) :
    StackIs heap' head es owner st := by
  refine ⟨h.linked.congr fun a ha => links_congr (heq a ((h.owned a).2 ha)), ?_, h.sequential, h.owned⟩
  intro x hx
  rw [heq x.1 ((h.owned x.1).2 (List.mem_map_of_mem hx))]
  exact h.data x hx

theorem PendingIs.congr {heap heap' : Nat → Option (Node α)} {toBeDeleted : Option Nat}
    {owner : Nat → Owner} {pd : List Nat} (h : PendingIs heap toBeDeleted owner pd)
    (heq : ∀ a, owner a = .pending → heap' a = heap a) : PendingIs heap' toBeDeleted owner pd :=
  ⟨h.linked.congr fun a ha => links_congr (heq a ((h.owned a).2 ha)), h.owned⟩

/-! ## One move of one thread -/

/-- Nobody else holds what this thread owns and does not share. -/
theorem Owned.not_held {owner : Nat → Owner} (h : Owned s owner) (hth : s.threads[i]? = some th)
    {a : Nat} (ha : owner a = .thread i) (hshares : ¬ th.pc.Shares a) {k : Nat} {thk : Thread α}
    (hk : s.threads[k]? = some thk) : ¬ thk.pc.Holds a := by
  intro hholds
  rcases h.held k thk a hk hholds with hstack | hpending | ⟨j, thj, hj, howner, hsharesj⟩
  · cases ha.symm.trans hstack
  · cases ha.symm.trans hpending
  · cases ha.symm.trans howner
    cases hth.symm.trans hj
    exact hshares hsharesj

/-- Where a node may be while another thread than `i` holds it, when it is not with a third one. -/
def Loose (owner : Nat → Owner) (i : Nat) (pc : Pc) (a : Nat) : Prop :=
  owner a = .stack ∨ owner a = .pending ∨ owner a = .thread i ∧ pc.Shares a

/-- The others see of a move of thread `i` only what it takes from the stack or from `to_be_deleted`,
or adds there. -/
theorem Owned.goto {owner owner' : Nat → Owner} (h : Owned s owner)
    (hth : s.threads[i]? = some th) {heap : Nat → Option (Node α)} {head toBeDeleted : Option Nat}
    {count : Nat} {pc : Pc} {res : Option α} (acts : List (Act α))
    (hothers : ∀ j, j ≠ i → ∀ a, owner' a = .thread j ↔ owner a = .thread j)
    (hsame : ∀ a, owner a ≠ .thread i → owner a ≠ .free → heap a = s.heap a)
    (halloc : ∀ a, heap a = none ↔ owner' a = .free)
    (hstack : ∃ st, StackIs heap head (effects s.log ++ acts.filterMap History.Act.effect?) owner' st)
    (hpending : ∃ pd, PendingIs heap toBeDeleted owner' pd)
    (hthread : ThreadOk heap (s.log ++ acts.map fun act => ⟨i, act⟩) owner' i ⟨pc, res⟩)
    (hloose : ∀ (k : Nat) (thk : Thread α) (a : Nat), k ≠ i → s.threads[k]? = some thk →
      thk.pc.Holds a → Loose owner i th.pc a → Loose owner' i pc a)
    (hjoin : ∀ (k : Nat) (thk : Thread α) (a : Nat), k ≠ i → s.threads[k]? = some thk →
      thk.pc.Holds a → owner' a = .stack → owner a = .stack)
    (hheld : ∀ a, pc.Holds a → owner' a = .stack ∨ owner' = owner ∧ th.pc.Holds a)
    (hnext : ∀ a next, pc = .popCas a next → links heap a = some next)
    (hcount : count + th.pc.inPop = s.threadsInPop + pc.inPop) :
    Owned (State.goto { s with
      heap := heap, head := head, toBeDeleted := toBeDeleted, threadsInPop := count } i pc res acts)
      owner' := by
  have hi : i < s.threads.length := (List.getElem?_eq_some_iff.1 hth).1
  have hset : (s.threads.set i ⟨pc, res⟩)[i]? = some ⟨pc, res⟩ := List.getElem?_set_self hi
  have hget : ∀ j, j ≠ i → (s.threads.set i ⟨pc, res⟩)[j]? = s.threads[j]? := fun j hj =>
    List.getElem?_set_ne (Ne.symm hj)
  have hshareable : ∀ (k : Nat) (thk : Thread α) (a : Nat), k ≠ i → s.threads[k]? = some thk →
      thk.pc.Holds a → Shareable (s.threads.set i ⟨pc, res⟩) owner' a := by
    intro k thk a hk hthk hholds
    have hold : Loose owner i th.pc a ∨
        ∃ j thj, j ≠ i ∧ s.threads[j]? = some thj ∧ owner a = .thread j ∧ thj.pc.Shares a := by
      rcases h.held k thk a hthk hholds with hst | hpd | ⟨j, thj, hj, howner, hshares⟩
      · exact Or.inl (Or.inl hst)
      · exact Or.inl (Or.inr (Or.inl hpd))
      · by_cases hji : j = i
        · subst hji
          cases hth.symm.trans hj
          exact Or.inl (Or.inr (Or.inr ⟨howner, hshares⟩))
        · exact Or.inr ⟨j, thj, hji, hj, howner, hshares⟩
    rcases hold with hold | ⟨j, thj, hji, hj, howner, hshares⟩
    · rcases hloose k thk a hk hthk hholds hold with hst | hpd | ⟨howner, hshares⟩
      · exact Or.inl hst
      · exact Or.inr (Or.inl hpd)
      · exact Or.inr (Or.inr ⟨i, _, hset, howner, hshares⟩)
    · exact Or.inr (Or.inr ⟨j, thj, by rw [hget j hji]; exact hj, (hothers j hji a).2 howner, hshares⟩)
  refine ⟨halloc, ?_, hpending, ?_, ?_, ?_, ?_, ?_⟩
  · simpa [State.goto] using hstack
  · -- the others own what they owned, and it has not changed
    intro j thj hj
    by_cases hji : j = i
    · subst hji
      cases hset.symm.trans hj
      exact hthread
    · simp only [State.goto] at hj
      rw [hget j hji] at hj
      obtain ⟨⟨l, hkeeps, hnodup, howner⟩, ⟨p, hp, hfollows⟩⟩ := h.threads j thj hj
      have heq : ∀ a ∈ l, heap a = s.heap a := by
        intro a ha
        have hja : owner a = .thread j := (howner a).2 ha
        refine hsame a ?_ ?_
        · rw [hja]
          exact fun hsame => hji (Owner.thread.inj hsame)
        · rw [hja]
          exact fun hfree => by cases hfree
      refine ⟨⟨l, hkeeps.congr fun a ha => links_congr (heq a ha), hnodup, ?_⟩, p,
        hp.congr hkeeps heq, hfollows.others (Ne.symm hji) acts⟩
      exact fun a => (hothers j hji a).trans (howner a)
  · intro j a ha
    simp only [State.goto, List.length_set]
    by_cases hji : j = i
    · subst hji
      exact hi
    · exact h.inside j a ((hothers j hji a).1 ha)
  · intro k thk a hthk hholds
    by_cases hki : k = i
    · subst hki
      cases hset.symm.trans hthk
      rcases hheld a hholds with hst | ⟨rfl, hold⟩
      · exact Or.inl hst
      · -- a node that was held before: it belongs to another thread, or to none
        rcases h.held k th a hth hold with hst | hpd | ⟨j, thj, hj, howner, hshares⟩
        · exact Or.inl hst
        · exact Or.inr (Or.inl hpd)
        · by_cases hji : j = k
          · subst hji
            cases hth.symm.trans hj
            exact absurd hshares (Pc.not_shares_of_holds hold)
          · exact Or.inr (Or.inr ⟨j, thj, (hget j hji).trans hj, howner, hshares⟩)
    · simp only [State.goto] at hthk
      rw [hget k hki] at hthk
      exact hshareable k thk a hki hthk hholds
  · intro k thk a next hthk hpc hst
    by_cases hki : k = i
    · subst hki
      cases hset.symm.trans hthk
      exact hnext a next hpc
    · simp only [State.goto] at hthk ⊢
      rw [hget k hki] at hthk
      have hholds : thk.pc.Holds a := by
        rw [hpc]
        exact rfl
      have hold : owner a = .stack := hjoin k thk a hki hthk hholds hst
      have heq : heap a = s.heap a := by
        refine hsame a ?_ ?_ <;> rw [hold] <;> exact fun hne => by cases hne
      rw [links_congr heq]
      exact h.next_ok k thk a next hthk hpc hold
  · have hsum : ((s.threads.set i ⟨pc, res⟩).map fun th : Thread α => th.pc.inPop).sum + th.pc.inPop =
        (s.threads.map fun th : Thread α => th.pc.inPop).sum + pc.inPop :=
      sum_map_set (fun th : Thread α => th.pc.inPop) ⟨pc, res⟩ hth
    have hbefore := h.count
    simp only [State.goto]
    omega

/-- A move that gives no node to another owner: the thread may only have written nodes of its own. -/
theorem Owned.goto_same {owner : Nat → Owner} (h : Owned s owner) (hth : s.threads[i]? = some th)
    {heap : Nat → Option (Node α)} {count : Nat} {pc : Pc} {res : Option α} (acts : List (Act α))
    (hsame : ∀ a, owner a ≠ .thread i → heap a = s.heap a)
    (halloc : ∀ a, heap a = none ↔ s.heap a = none)
    (hseq : ∀ st, StackIs s.heap s.head (effects s.log) owner st →
      Sequential (effects s.log ++ acts.filterMap History.Act.effect?) st)
    (hkeeps : ∀ l, th.pc.Keeps (links s.heap) l → l.Nodup → pc.Keeps (links heap) l)
    (hphase : ∀ p, th.PhaseIs s.heap p → ∃ p', Thread.PhaseIs heap p' ⟨pc, res⟩ ∧
      (Follows i s.log p → Follows i (s.log ++ acts.map fun act => ⟨i, act⟩) p'))
    (hshares : ∀ (k : Nat) (thk : Thread α) (a : Nat), k ≠ i → s.threads[k]? = some thk →
      thk.pc.Holds a → owner a = .thread i → th.pc.Shares a → pc.Shares a)
    (hheld : ∀ a, pc.Holds a → owner a = .stack ∨ th.pc.Holds a)
    (hnext : ∀ a next, pc = .popCas a next → links heap a = some next)
    (hcount : count + th.pc.inPop = s.threadsInPop + pc.inPop) :
    Owned (State.goto { s with heap := heap, threadsInPop := count } i pc res acts) owner := by
  have hother : ∀ a x, owner a = x → x ≠ .thread i → heap a = s.heap a := by
    rintro a x rfl hne
    exact hsame a hne
  obtain ⟨st, hst⟩ := h.stack
  obtain ⟨pd, hpd⟩ := h.pending
  obtain ⟨⟨l, hl, hnodup, howner⟩, ⟨p, hp, hfollows⟩⟩ := h.threads i th hth
  obtain ⟨p', hp', hgo⟩ := hphase p hp
  refine h.goto hth acts (fun j _ a => Iff.rfl) (fun a ha _ => hsame a ha)
    (fun a => (halloc a).trans (h.alloc a)) ?_ ?_ ?_ ?_ ?_ ?_ hnext hcount
  · have hst' := hst.congr _ fun a ha => hother a _ ha nofun
    exact ⟨st, hst'.linked, hst'.data, hseq st hst, hst'.owned⟩
  · exact ⟨pd, hpd.congr fun a ha => hother a _ ha nofun⟩
  · exact ⟨⟨l, hkeeps l hl hnodup, hnodup, howner⟩, ⟨p', hp', hgo hfollows⟩⟩
  · intro k thk a hk hthk hholds hloose
    rcases hloose with hst | hpd | ⟨howner, hsh⟩
    · exact Or.inl hst
    · exact Or.inr (Or.inl hpd)
    · exact Or.inr (Or.inr ⟨howner, hshares k thk a hk hthk hholds howner hsh⟩)
  · exact fun k thk a _ _ _ hst => hst
  · intro a hholds
    rcases hheld a hholds with hst | hold
    · exact Or.inl hst
    · exact Or.inr ⟨rfl, hold⟩

/-- A move that changes nothing but where the thread is. -/
theorem Owned.goto_local {owner : Nat → Owner} (h : Owned s owner) (hth : s.threads[i]? = some th)
    {pc : Pc} {res : Option α} (hkeeps : ∀ l, th.pc.Keeps (links s.heap) l →
      pc.Keeps (links s.heap) l)
    (hphase : ∀ p, th.PhaseIs s.heap p → Thread.PhaseIs s.heap p ⟨pc, res⟩)
    (hshares : ∀ a, th.pc.Shares a → pc.Shares a)
    (hheld : ∀ a, pc.Holds a → th.pc.Holds a)
    (hnext : ∀ a next, pc = .popCas a next → links s.heap a = some next)
    (hcount : pc.inPop = th.pc.inPop) : Owned (s.goto i pc res []) owner := by
  refine h.goto_same hth [] (fun a _ => rfl) (fun a => Iff.rfl) ?_
    (fun l hl _ => hkeeps l hl) ?_ (fun k thk a _ _ _ _ => hshares a) (fun a ha => Or.inr (hheld a ha))
    hnext (by rw [hcount])
  · intro st hst
    simpa using hst.sequential
  · intro p hp
    exact ⟨p, hphase p hp, fun hfollows => by simpa using hfollows⟩

end LockFreeStackReclaim

end CppConcurrency
end MyCppCode
