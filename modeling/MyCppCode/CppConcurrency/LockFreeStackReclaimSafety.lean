import Mathlib.Algebra.Order.BigOperators.Group.List
import Mathlib.Algebra.Order.Group.Nat
import Mathlib.Data.List.Nodup
import MyCppCode.CppConcurrency.LockFreeStackReclaimOwners

/-!
# LockFreeStackReclaimSafety — no node is used after it is deleted

Every move keeps the owners in order, so no step of any run follows a pointer to a deleted node, or
deletes one again.  The one undefined step that is left is in `chain_pending_nodes`: a `pop` that found
the stack empty, and is not alone in `pop`, chains the null pointer it has.
-/

namespace MyCppCode
namespace CppConcurrency

open Foundation
open History (effects filterMap_call filterMap_effect)
open Lifo

universe u

namespace LockFreeStackReclaim

variable {α : Type u} {s t : State α} {i : Nat} {th : Thread α} {owner : Nat → Owner}

/-! ## The counter -/

/-- Two threads in `pop` are counted as two. -/
theorem add_le_sum {c : Type u} (f : c → Nat) {l : List c} {i k : Nat} {a b : c} (hi : l[i]? = some a)
    (hk : l[k]? = some b) (hne : k ≠ i) : f a + f b ≤ (l.map f).sum := by
  induction l generalizing i k with
  | nil =>
      simp at hi
  | cons x l ih =>
      have hmem : ∀ {j : Nat} {y : c}, l[j]? = some y → f y ≤ (l.map f).sum := fun hj =>
        List.single_le_sum (fun _ _ => Nat.zero_le _) _ (List.mem_map_of_mem (List.mem_of_getElem? hj))
      rw [List.map_cons, List.sum_cons]
      cases i with
      | zero =>
          obtain rfl : x = a := by simpa using hi
          cases k with
          | zero =>
              exact absurd rfl hne
          | succ k =>
              exact Nat.add_le_add_left (hmem (by simpa using hk)) _
      | succ i =>
          cases k with
          | zero =>
              obtain rfl : x = b := by simpa using hk
              have hle := hmem (j := i) (y := a) (by simpa using hi)
              omega
          | succ k =>
              have hle := ih (i := i) (k := k) (by simpa using hi) (by simpa using hk)
                (fun h => hne (by rw [h]))
              omega

theorem sum_inPop_le (l : List (Thread α)) :
    (l.map fun th : Thread α => th.pc.inPop).sum ≤ l.length := by
  have hle := List.sum_le_card_nsmul (l.map fun th : Thread α => th.pc.inPop) 1 (by
    intro x hx
    obtain ⟨th, -, rfl⟩ := List.mem_map.1 hx
    exact th.pc.inPop_le_one)
  simpa using hle

/-- Who is alone in `pop` is the only one with a node in hand. -/
theorem Owned.alone (h : Owned s owner) (hth : s.threads[i]? = some th) (hin : th.pc.inPop = 1)
    (hone : s.threadsInPop = 1) {k : Nat} {thk : Thread α} (hk : s.threads[k]? = some thk)
    (hne : k ≠ i) {a : Nat} : ¬ thk.pc.Holds a := by
  intro hholds
  have htwo := add_le_sum (fun th : Thread α => th.pc.inPop) hth hk hne
  have hin' := Pc.inPop_of_holds hholds
  have hcount := h.count
  omega

theorem Owned.decrement (h : Owned s owner) (hth : s.threads[i]? = some th) (hin : th.pc.inPop = 1) :
    s.decrement.threadsInPop + 1 = s.threadsInPop := by
  have hpos : 1 ≤ s.threadsInPop := by
    rw [h.count, ← hin]
    exact List.single_le_sum (fun _ _ => Nat.zero_le _) _
      (List.mem_map_of_mem (f := fun th : Thread α => th.pc.inPop) (List.mem_of_getElem? hth))
  have hne : s.threadsInPop ≠ 0 := by omega
  simp only [State.decrement, if_neg hne]
  omega

/-- The counter does not wrap, for it counts threads. -/
theorem Owned.increment (h : Owned s owner) (hth : s.threads[i]? = some th) (hin : th.pc.inPop = 0)
    (hsize : s.threads.length ≤ unsignedMax) : s.increment.threadsInPop = s.threadsInPop + 1 := by
  have hset : ((s.threads.set i ⟨.popLoad, none⟩).map fun th : Thread α => th.pc.inPop).sum +
      th.pc.inPop = (s.threads.map fun th : Thread α => th.pc.inPop).sum + 1 :=
    sum_map_set (fun th : Thread α => th.pc.inPop) ⟨.popLoad, none⟩ hth
  have hle := sum_inPop_le (s.threads.set i ⟨.popLoad, none⟩)
  rw [List.length_set] at hle
  have hcount := h.count
  have hne : s.threadsInPop ≠ unsignedMax := by omega
  simp only [State.increment, if_neg hne]

/-! ## Moves that give no node to another owner -/

/-- The nodes of the thread. -/
theorem Owned.mine (h : Owned s owner) (hth : s.threads[i]? = some th) {a : Nat}
    (hkeeps : ∀ l, th.pc.Keeps (links s.heap) l → a ∈ l) : owner a = .thread i := by
  obtain ⟨l, hl, -, howner⟩ := (h.threads i th hth).keeps
  exact (howner a).2 (hkeeps l hl)

theorem write_ne {heap : Nat → Option (Node α)} {a b : Nat} (node : Option (Node α))
    (ha : owner a = .thread i) (hb : owner b ≠ .thread i) :
    Function.update heap a node b = heap b := by
  refine Function.update_of_ne ?_ _ _
  rintro rfl
  exact hb ha

theorem write_none {heap : Nat → Option (Node α)} {a b : Nat} {node node' : Node α}
    (ha : heap a = some node) : Function.update heap a (some node') b = none ↔ heap b = none := by
  by_cases hb : b = a
  · subst hb
    simp [ha]
  · rw [Function.update_of_ne hb]

theorem owned_link (h : Owned s owner) (hth : s.threads[i]? = some th) {nd : Nat} {node : Node α}
    (hpc : th.pc = .pushLoad nd ∨ th.pc = .pushCas nd) (hnode : s.heap nd = some node) :
    Owned ((s.write nd (some { node with next := s.head })).goto i (.pushCas nd) none []) owner := by
  have hkeeps : ∀ l, th.pc.Keeps (links s.heap) l → l = [nd] := by
    rcases hpc with hpc | hpc <;> rw [hpc] <;> exact fun l => id
  have hmine : owner nd = .thread i := h.mine hth fun l hl => by
    rw [hkeeps l hl]
    exact List.mem_cons_self ..
  refine h.goto_same hth [] (fun a ha => write_ne _ hmine ha) (fun a => write_none hnode) ?_
    (fun l hl _ => hkeeps l hl) ?_ ?_ (fun a ha => absurd ha id) (fun a next => nofun) ?_
  · intro st hst
    simpa using hst.sequential
  · intro p hp
    have hphase : ∃ data, (s.heap nd).bind Node.data = some data ∧ p = .pending (.push data) := by
      rcases hpc with hpc | hpc
      · simpa only [Thread.PhaseIs, hpc] using hp
      · simpa only [Thread.PhaseIs, hpc] using hp
    obtain ⟨data, hdata, hp⟩ := hphase
    refine ⟨p, ⟨data, ?_, hp⟩, fun hfollows => by simpa using hfollows⟩
    simpa [hnode] using hdata
  · intro k thk a _ _ _ _ hshares
    rcases hpc with hpc | hpc
    · rw [hpc] at hshares
      exact absurd hshares id
    · rw [hpc] at hshares
      exact absurd hshares id
  · rcases hpc with hpc | hpc
    · rw [hpc]
      rfl
    · rw [hpc]

theorem owned_swap (h : Owned s owner) (hth : s.threads[i]? = some th) {old : Nat} {node : Node α}
    (hpc : th.pc = .swapData old) (hnode : s.heap old = some node) :
    Owned ((s.write old (some { node with data := th.res })).goto i (.tryReclaim (some old))
      node.data []) owner := by
  have hkeeps : ∀ l, th.pc.Keeps (links s.heap) l → l = [old] := by
    rw [hpc]
    exact fun l => id
  have hmine : owner old = .thread i := h.mine hth fun l hl => by
    rw [hkeeps l hl]
    exact List.mem_cons_self ..
  refine h.goto_same hth [] (fun a ha => write_ne _ hmine ha) (fun a => write_none hnode) ?_
    (fun l hl _ => hkeeps l hl) ?_ (fun _ _ _ _ _ _ _ _ => trivial) (fun a ha => absurd ha id)
    (fun a next => nofun) ?_
  · intro st hst
    simpa using hst.sequential
  · intro p hp
    simp only [Thread.PhaseIs, hpc] at hp
    obtain ⟨data, hdata, hp⟩ := hp
    refine ⟨p, ?_, fun hfollows => by simpa using hfollows⟩
    rw [hnode] at hdata
    simpa [Thread.PhaseIs, hp] using hdata.symm
  · rw [hpc]
    rfl

/-- `last->next` takes the value of `to_be_deleted`. -/
theorem owned_chainLink (h : Owned s owner) (hth : s.threads[i]? = some th) {first : Option Nat}
    {last : Nat} {after : After} {node : Node α}
    (hpc : th.pc = .chainLoad first (some last) after ∨ th.pc = .chainCas first last after)
    (hnode : s.heap last = some node) :
    Owned ((s.write last (some { node with next := s.toBeDeleted })).goto i
      (.chainCas first last after) th.res []) owner := by
  have hkeeps : ∀ l, th.pc.Keeps (links s.heap) l →
      ∃ f m, first = some f ∧ Segment (links s.heap) f m last ∧ l = after.old?.toList ++ m := by
    intro l hl
    cases first with
    | none => rcases hpc with hpc | hpc <;> rw [hpc] at hl <;> exact absurd hl id
    | some f =>
        have hseg : ∃ m, Segment (links s.heap) f m last ∧ l = after.old?.toList ++ m := by
          rcases hpc with hpc | hpc <;> rw [hpc] at hl <;> exact hl
        obtain ⟨m, hm, hl⟩ := hseg
        exact ⟨f, m, rfl, hm, hl⟩
  have hmine : owner last = .thread i := h.mine hth fun l hl => by
    obtain ⟨f, m, -, hm, rfl⟩ := hkeeps l hl
    exact List.mem_append_right _ hm.last_mem
  refine h.goto_same hth [] (fun a ha => write_ne _ hmine ha) (fun a => write_none hnode) ?_
    ?_ ?_ ?_ (fun a ha => absurd ha id) (fun a next => nofun) ?_
  · intro st hst
    simpa using hst.sequential
  · intro l hl _
    obtain ⟨f, m, rfl, hm, rfl⟩ := hkeeps l hl
    -- the segment ends at the node that is written
    refine ⟨m, hm.congr fun b _ hb => ?_, rfl⟩
    exact links_congr (Function.update_of_ne hb _ _)
  · intro p hp
    refine ⟨p, ?_, fun hfollows => by simpa using hfollows⟩
    rcases hpc with hpc | hpc
    · simpa only [Thread.PhaseIs, hpc] using hp
    · simpa only [Thread.PhaseIs, hpc] using hp
  · intro k thk a _ _ _ _ hshares
    rcases hpc with hpc | hpc
    · rw [hpc] at hshares
      exact hshares
    · rw [hpc] at hshares
      exact hshares
  · rcases hpc with hpc | hpc
    · rw [hpc]
      cases after <;> rfl
    · rw [hpc]

/-! ## Moves that give nodes to another owner -/

/-- Giving one node away changes nothing for those who neither had it nor get it. -/
theorem update_iff {a b : Nat} {x : Owner} (y z : Owner) (ha : owner a = x) (hx : x ≠ z)
    (hy : y ≠ z) : Function.update owner a y b = z ↔ owner b = z := by
  by_cases hb : b = a
  · subst hb
    simp [ha, hx, hy]
  · rw [Function.update_of_ne hb]

/-- One node changes hands between the thread and the free store or the stack. -/
theorem Owned.goto_one (h : Owned s owner) (hth : s.threads[i]? = some th)
    {heap : Nat → Option (Node α)} {head : Option Nat} {pc : Pc} {res : Option α}
    {acts : List (Act α)} {a : Nat} {x y : Owner} (ha : owner a = x)
    (hx : x = .free ∨ x = .stack ∨ x = .thread i) (hy : y = .free ∨ y = .stack ∨ y = .thread i)
    (hsame : ∀ b, b ≠ a → heap b = s.heap b) (halloc : heap a = none ↔ y = .free)
    (hshared : x = .stack → heap a = s.heap a ∧ y = .thread i ∧ pc.Shares a)
    (hprivate : y = .stack → x = .thread i) (hshares : ∀ b, ¬ th.pc.Shares b)
    (hstack : ∃ st, StackIs heap head (effects s.log ++ acts.filterMap History.Act.effect?)
      (Function.update owner a y) st)
    (hthread : ThreadOk heap (s.log ++ acts.map fun act => ⟨i, act⟩) (Function.update owner a y) i
      ⟨pc, res⟩)
    (hheld : ∀ b, ¬ pc.Holds b) (hcount : th.pc.inPop = pc.inPop) :
    Owned (State.goto { s with heap := heap, head := head } i pc res acts)
      (Function.update owner a y) := by
  have hx' : ∀ z, z ≠ .free → z ≠ .stack → z ≠ .thread i → x ≠ z := by
    rintro z hfree hstack hi rfl
    exact hx.elim hfree fun hx => hx.elim hstack hi
  have hy' : ∀ z, z ≠ .free → z ≠ .stack → z ≠ .thread i → y ≠ z := by
    rintro z hfree hstack hi rfl
    exact hy.elim hfree fun hy => hy.elim hstack hi
  have hpending : ∀ b, Function.update owner a y b = .pending ↔ owner b = .pending := fun b =>
    update_iff y .pending ha (hx' _ nofun nofun nofun) (hy' _ nofun nofun nofun)
  obtain ⟨pd, hpd⟩ := h.pending
  refine h.goto hth acts ?_ ?_ ?_ hstack ?_ hthread ?_ ?_ (fun b hb => absurd hb (hheld b)) ?_ (by rw [hcount])
  · intro j hj b
    have hne : Owner.thread j ≠ .thread i := fun h => hj (Owner.thread.inj h)
    exact update_iff y (.thread j) ha (hx' _ nofun nofun hne) (hy' _ nofun nofun hne)
  · intro b hi hfree
    by_cases hb : b = a
    · subst hb
      rcases hx with rfl | rfl | rfl
      · exact absurd ha hfree
      · exact (hshared rfl).1
      · exact absurd ha hi
    · exact hsame b hb
  · intro b
    by_cases hb : b = a
    · subst hb
      rw [Function.update_self]
      exact halloc
    · rw [Function.update_of_ne hb, hsame b hb]
      exact h.alloc b
  · refine ⟨pd, (hpd.congr fun b hb => hsame b ?_).linked, fun b => (hpending b).trans (hpd.owned b)⟩
    rintro rfl
    exact hx' .pending nofun nofun nofun (ha.symm.trans hb)
  · intro k thk b _ _ _ hloose
    rcases hloose with hon | hpend | ⟨-, hsh⟩
    · by_cases hb : b = a
      · subst hb
        obtain ⟨-, rfl, hpc⟩ := hshared (ha.symm.trans hon)
        exact Or.inr (Or.inr ⟨Function.update_self .., hpc⟩)
      · exact Or.inl (by rw [Function.update_of_ne hb, hon])
    · exact Or.inr (Or.inl ((hpending b).2 hpend))
    · exact absurd hsh (hshares b)
  · intro k thk b _ hk hholds hstack
    by_cases hb : b = a
    · subst hb
      rw [Function.update_self] at hstack
      rw [hprivate hstack] at ha
      exact absurd hholds (h.not_held hth ha (hshares b) hk)
    · rwa [Function.update_of_ne hb] at hstack
  · rintro b next rfl
    exact absurd rfl (hheld b)

/-- The thread owned `l`, and now it owns `a` as well. -/
theorem mine_cons {a : Nat} {l : List Nat} (hmine : ∀ b, owner b = .thread i ↔ b ∈ l) (b : Nat) :
    Function.update owner a (.thread i) b = .thread i ↔ b ∈ a :: l := by
  by_cases hb : b = a
  · subst hb
    simp
  · rw [Function.update_of_ne hb, hmine b, List.mem_cons]
    simp [hb]

/-- The thread owned `l`, and gives `a` away. -/
theorem mine_erase {a : Nat} {l : List Nat} {y : Owner} (hmine : ∀ b, owner b = .thread i ↔ b ∈ l)
    (hnodup : l.Nodup) (hy : y ≠ .thread i) (b : Nat) :
    Function.update owner a y b = .thread i ↔ b ∈ l.erase a := by
  rw [hnodup.mem_erase_iff]
  by_cases hb : b = a
  · subst hb
    simp [hy]
  · rw [Function.update_of_ne hb, hmine b]
    simp [hb]

/-- `new node(data)`: an address that was free. -/
theorem owned_callPush (h : Owned s owner) (hth : s.threads[i]? = some th) {data : α} {nd : Nat}
    (hpc : th.pc = .idle) (hfree : s.heap nd = none) :
    Owned ((s.write nd (some ⟨some data, none⟩)).goto i (.pushLoad nd) none [.call (.push data)])
      (Function.update owner nd (.thread i)) := by
  have howner : owner nd = .free := (h.alloc nd).1 hfree
  have hheap : ∀ b, b ≠ nd → Function.update s.heap nd (some ⟨some data, none⟩) b = s.heap b :=
    fun b hb => Function.update_of_ne hb _ _
  obtain ⟨st, hst⟩ := h.stack
  obtain ⟨⟨l, hl, -, hmine⟩, ⟨p, hp, hfollows⟩⟩ := h.threads i th hth
  rw [hpc] at hl
  obtain rfl : l = [] := hl
  simp only [Thread.PhaseIs, hpc] at hp
  subst hp
  refine h.goto_one hth howner (Or.inl rfl) (Or.inr (Or.inr rfl)) hheap (by simp) nofun nofun ?_ ?_ ?_
    (fun b => id) (by rw [hpc]; rfl)
  · rw [hpc]
    exact fun b => id
  · have hst' := hst.congr (Function.update s.heap nd (some ⟨some data, none⟩)) fun b hb =>
      hheap b (by rintro rfl; cases howner.symm.trans hb)
    refine ⟨st, hst'.linked, hst'.data, ?_, fun b => ?_⟩
    · rw [filterMap_call, List.filterMap_nil, List.append_nil]
      exact hst.sequential
    · exact (update_iff (.thread i) .stack howner nofun nofun).trans (hst.owned b)
  · exact ⟨⟨[nd], rfl, List.nodup_singleton _, mine_cons hmine⟩, .pending (.push data),
      ⟨data, by simp, rfl⟩, hfollows.own (.call _)⟩

theorem effectOn_eq (effect : Nat × α → Effect (Nat × α)) {a : Nat} {node : Option (Node α)} {data : α}
    (h : node.bind Node.data = some data) :
    effectOn effect a node = [.effect (effect (a, data))] := by
  simp [effectOn, h]

/-- The compare-exchange of `push` succeeds: the node becomes the top of the stack.  Nobody holds it
yet. -/
theorem owned_publish (h : Owned s owner) (hth : s.threads[i]? = some th) {nd : Nat} {node : Node α}
    (hpc : th.pc = .pushCas nd) (hnode : s.heap nd = some node) (hhead : s.head = node.next) :
    Owned (State.goto { s with head := some nd } i .pushReturn none (effectOn .push nd (some node)))
      (Function.update owner nd .stack) := by
  obtain ⟨st, hst⟩ := h.stack
  obtain ⟨⟨l, hl, hnodup, hmine⟩, ⟨p, hp, hfollows⟩⟩ := h.threads i th hth
  rw [hpc] at hl
  obtain rfl : l = [nd] := hl
  have howner : owner nd = .thread i := (hmine nd).2 (List.mem_cons_self ..)
  simp only [Thread.PhaseIs, hpc, hnode] at hp
  obtain ⟨data, hdata, rfl⟩ := hp
  rw [effectOn_eq _ hdata]
  refine h.goto_one hth howner (Or.inr (Or.inr rfl)) (Or.inr (Or.inl rfl)) (fun _ _ => rfl)
    (by simp [hnode]) nofun (fun _ => rfl) ?_ ?_ ?_ (fun b => id) (by rw [hpc]; rfl)
  · rw [hpc]
    exact fun b => id
  · refine ⟨(nd, data) :: st, .cons ?_ hst.linked, ?_, ?_, fun b => ?_⟩
    · rw [links_some hnode, hhead]
    · intro x hx
      rcases List.mem_cons.1 hx with rfl | hx
      · rw [hnode]
        exact hdata
      · exact hst.data x hx
    · rw [filterMap_effect]
      exact hst.sequential.push (nd, data)
    · by_cases hb : b = nd
      · subst hb
        simp
      · rw [Function.update_of_ne hb, hst.owned b]
        simp [hb]
  · have hmine' := mine_erase (a := nd) hmine hnodup (y := .stack) nofun
    rw [List.erase_cons_head] at hmine'
    exact ⟨⟨[], rfl, List.nodup_nil, hmine'⟩, .decided none, rfl, hfollows.own (.effect (.push nd data))⟩

/-- The compare-exchange of `pop` succeeds: the top belongs to the thread, and others may still hold
it.  Its `next` is what was read, for the node has not left the stack since it was held. -/
theorem owned_unlink (h : Owned s owner) (hth : s.threads[i]? = some th) {old : Nat}
    {next : Option Nat} (hpc : th.pc = .popCas old next) (hhead : s.head = some old) :
    Owned (State.goto { s with head := next } i (.swapData old) none
      (effectOn .pop old (s.heap old))) (Function.update owner old (.thread i)) := by
  obtain ⟨st, hst⟩ := h.stack
  obtain ⟨⟨l, hl, -, hmine⟩, ⟨p, hp, hfollows⟩⟩ := h.threads i th hth
  rw [hpc] at hl
  obtain rfl : l = [] := hl
  simp only [Thread.PhaseIs, hpc] at hp
  subst hp
  obtain ⟨hlinked, hdatas, hseq, howned⟩ := hst
  have hnodup := hlinked.nodup
  rw [hhead] at hlinked
  cases st with
  | nil => cases hlinked
  | cons x st =>
      obtain ⟨a, data⟩ := x
      cases hlinked with
      | cons hnext hrest =>
          have howner : owner a = .stack := (howned a).2 (by simp)
          have hread := h.next_ok i th a next hth hpc howner
          cases hread.symm.trans hnext
          have hdata : (s.heap a).bind Node.data = some data := hdatas (a, data) (by simp)
          have hsome : s.heap a ≠ none := by
            intro hnone
            rw [hnone] at hdata
            cases hdata
          rw [effectOn_eq _ hdata]
          refine h.goto_one hth howner (Or.inr (Or.inl rfl)) (Or.inr (Or.inr rfl)) (fun _ _ => rfl)
            (by simp [hsome]) (fun _ => ⟨rfl, rfl, trivial⟩) nofun ?_ ?_ ?_ (fun b => id)
            (by rw [hpc]; rfl)
          · rw [hpc]
            exact fun b => id
          · refine ⟨st, hrest, fun x hx => hdatas x (List.mem_cons_of_mem _ hx), ?_, fun b => ?_⟩
            · rw [filterMap_effect]
              exact hseq.pop
            · by_cases hb : b = a
              · subst hb
                simpa using (List.nodup_cons.1 hnodup).1
              · rw [Function.update_of_ne hb, howned b]
                simp [hb]
          · exact ⟨⟨[a], rfl, List.nodup_singleton _, mine_cons hmine⟩, .decided (some data),
              ⟨data, hdata, rfl⟩, hfollows.own (.effect (.pop a data))⟩

/-- `delete`: a node of the thread that it does not share. -/
theorem owned_delete (h : Owned s owner) (hth : s.threads[i]? = some th) {a : Nat} {pc : Pc}
    (hshares : ∀ b, ¬ th.pc.Shares b)
    (hkeeps : ∀ l, th.pc.Keeps (links s.heap) l → l.Nodup →
      a ∈ l ∧ pc.Keeps (links s.heap) (l.erase a))
    (hphase : ∀ heap p, th.PhaseIs s.heap p → Thread.PhaseIs heap p ⟨pc, th.res⟩)
    (hheld : ∀ b, ¬ pc.Holds b) (hcount : th.pc.inPop = pc.inPop) :
    Owned ((s.write a none).goto i pc th.res []) (Function.update owner a .free) := by
  obtain ⟨st, hst⟩ := h.stack
  obtain ⟨⟨l, hl, hnodup, hmine⟩, ⟨p, hp, hfollows⟩⟩ := h.threads i th hth
  obtain ⟨ha, hl'⟩ := hkeeps l hl hnodup
  have howner : owner a = .thread i := (hmine a).2 ha
  have hheap : ∀ b, b ≠ a → Function.update s.heap a none b = s.heap b :=
    fun b hb => Function.update_of_ne hb _ _
  refine h.goto_one hth howner (Or.inr (Or.inr rfl)) (Or.inl rfl) hheap (by simp) nofun nofun hshares ?_
    ?_ hheld hcount
  · have hst' := hst.congr (Function.update s.heap a none) fun b hb =>
      hheap b (by rintro rfl; cases howner.symm.trans hb)
    refine ⟨st, hst'.linked, hst'.data, ?_, fun b => ?_⟩
    · simpa using hst.sequential
    · exact (update_iff .free .stack howner nofun nofun).trans (hst.owned b)
  · refine ⟨⟨l.erase a, ?_, hnodup.erase a, mine_erase hmine hnodup nofun⟩, p, hphase _ p hp,
      by simpa using hfollows⟩
    refine hl'.congr fun b hb => links_congr (hheap b ?_)
    rintro rfl
    exact hnodup.not_mem_erase hb

/-- `to_be_deleted.exchange(nullptr)`: all the pending nodes are the thread's. -/
theorem owned_takePending (h : Owned s owner) (hth : s.threads[i]? = some th) {old : Option Nat}
    (hpc : th.pc = .takePending old) :
    Owned (State.goto { s with toBeDeleted := none } i (.leaveAlone old s.toBeDeleted) th.res [])
      (fun a => if owner a = .pending then .thread i else owner a) := by
  obtain ⟨st, hst⟩ := h.stack
  obtain ⟨pd, hpd⟩ := h.pending
  obtain ⟨⟨l, hl, hnodup, hmine⟩, ⟨p, hp, hfollows⟩⟩ := h.threads i th hth
  rw [hpc] at hl
  obtain rfl : l = old.toList := hl
  have hkeep : ∀ z a, z ≠ .pending → z ≠ .thread i →
      ((if owner a = .pending then .thread i else owner a) = z ↔ owner a = z) := by
    intro z a hz hi
    by_cases ha : owner a = .pending
    · rw [if_pos ha, ha]
      exact ⟨fun h => absurd h.symm hi, fun h => absurd h.symm hz⟩
    · rw [if_neg ha]
  refine h.goto hth [] ?_ (fun a _ _ => rfl) ?_ ?_ ?_ ?_ ?_ ?_ (fun a ha => absurd ha id)
    (fun a next => nofun) (by rw [hpc]; rfl)
  · intro j hj a
    exact hkeep (.thread j) a nofun fun h => hj (Owner.thread.inj h)
  · intro a
    rw [hkeep .free a nofun nofun]
    exact h.alloc a
  · refine ⟨st, hst.linked, hst.data, by simpa using hst.sequential, fun a => ?_⟩
    exact (hkeep .stack a nofun nofun).trans (hst.owned a)
  · refine ⟨[], .nil, fun a => ?_⟩
    simp only [List.not_mem_nil, iff_false]
    split
    · exact nofun
    · assumption
  · refine ⟨⟨old.toList ++ pd, ⟨pd, hpd.linked, rfl⟩, ?_, fun a => ?_⟩, p, ?_, by simpa using hfollows⟩
    · refine List.Nodup.append hnodup hpd.linked.nodup ?_
      intro a hold hpend
      cases ((hmine a).2 hold).symm.trans ((hpd.owned a).2 hpend)
    · rw [List.mem_append, ← hmine a, ← hpd.owned a]
      by_cases ha : owner a = .pending
      · simp [ha]
      · simp [ha]
    · simpa only [Thread.PhaseIs, hpc] using hp
  · intro k thk a _ _ _ hloose
    rcases hloose with hon | hpend | ⟨hi, hsh⟩
    · exact Or.inl ((hkeep .stack a nofun nofun).2 hon)
    · -- a pending node is not the thread's own `old`
      refine Or.inr (Or.inr ⟨if_pos hpend, ?_⟩)
      rintro rfl
      cases ((hmine a).2 (by simp)).symm.trans hpend
    · rw [hpc] at hsh
      refine Or.inr (Or.inr ⟨?_, hsh⟩)
      exact (if_neg (by rw [hi]; exact nofun)).trans hi
  · exact fun k thk a _ _ _ hon => (hkeep .stack a nofun nofun).1 hon

/-- The compare-exchange of `chain_pending_nodes` succeeds: the thread's nodes but `old` are pending,
before those that were. -/
theorem owned_chain (h : Owned s owner) (hth : s.threads[i]? = some th) {first : Option Nat}
    {last : Nat} {after : After} {node : Node α} (hpc : th.pc = .chainCas first last after)
    (hnode : s.heap last = some node) (hnext : s.toBeDeleted = node.next) :
    Owned (State.goto { s with toBeDeleted := first } i after.pc th.res [])
      (fun a => if owner a = .thread i ∧ after.old? ≠ some a then .pending else owner a) := by
  obtain ⟨st, hst⟩ := h.stack
  obtain ⟨pd, hpd⟩ := h.pending
  obtain ⟨⟨l, hl, hnodup, hmine⟩, ⟨p, hp, hfollows⟩⟩ := h.threads i th hth
  rw [hpc] at hl
  cases first with
  | none => exact absurd hl id
  | some first =>
      obtain ⟨m, hm, rfl⟩ := hl
      have hdisjoint := (List.nodup_append.1 hnodup).2.2
      have hseg : ∀ a, owner a = .thread i ∧ after.old? ≠ some a ↔ a ∈ m := by
        intro a
        rw [hmine a, List.mem_append, Option.mem_toList]
        constructor
        · rintro ⟨hold | ha, hne⟩
          · exact absurd hold hne
          · exact ha
        · intro ha
          refine ⟨Or.inr ha, fun hold => ?_⟩
          exact hdisjoint a (by simp [hold]) a ha rfl
      have hkeep : ∀ z a, z ≠ .pending → z ≠ .thread i →
          ((if owner a = .thread i ∧ after.old? ≠ some a then .pending else owner a) = z ↔
            owner a = z) := by
        intro z a hz hi
        split
        · rename_i ha
          rw [ha.1]
          exact ⟨fun h => absurd h.symm hz, fun h => absurd h.symm hi⟩
        · exact Iff.rfl
      have hafter : ∀ a, ¬ after.pc.Holds a := by
        cases after <;> exact fun a => id
      refine h.goto hth [] ?_ (fun a _ _ => rfl) ?_ ?_ ?_ ?_ ?_ ?_
        (fun a ha => absurd ha (hafter a)) ?_ ?_
      · intro j hj a
        exact hkeep (.thread j) a nofun fun h => hj (Owner.thread.inj h)
      · intro a
        rw [hkeep .free a nofun nofun]
        exact h.alloc a
      · refine ⟨st, hst.linked, hst.data, by simpa using hst.sequential, fun a => ?_⟩
        exact (hkeep .stack a nofun nofun).trans (hst.owned a)
      · have hlast : links s.heap last = some s.toBeDeleted := by
          rw [links_some hnode, hnext]
        refine ⟨m ++ pd, hm.linked hlast hpd.linked, fun a => ?_⟩
        rw [List.mem_append, ← hseg a, ← hpd.owned a]
        by_cases ha : owner a = .thread i ∧ after.old? ≠ some a
        · exact iff_of_true (if_pos ha) (Or.inl ha)
        · rw [if_neg ha, or_iff_right ha]
      · refine ⟨⟨after.old?.toList, ?_, (List.nodup_append.1 hnodup).1, fun a => ?_⟩, p, ?_,
          by simpa using hfollows⟩
        · cases after <;> rfl
        · by_cases ha : owner a = .thread i ∧ after.old? ≠ some a
          · rw [if_pos ha, Option.mem_toList]
            exact iff_of_false nofun ha.2
          · rw [if_neg ha, Option.mem_toList]
            constructor
            · intro hi
              by_contra hne
              exact ha ⟨hi, hne⟩
            · intro hold
              exact (hmine a).2 (by simp [hold])
        · have hdecided : p = .decided th.res := by simpa only [Thread.PhaseIs, hpc] using hp
          cases after <;> exact hdecided
      · intro k thk a _ _ _ hloose
        rcases hloose with hon | hpend | ⟨hi, hsh⟩
        · exact Or.inl ((hkeep .stack a nofun nofun).2 hon)
        · refine Or.inr (Or.inl ?_)
          exact (if_neg (by rw [hpend]; exact fun h => nomatch h.1)).trans hpend
        · rw [hpc] at hsh
          exact Or.inr (Or.inl (if_pos ⟨hi, hsh⟩))
      · exact fun k thk a _ _ _ hon => (hkeep .stack a nofun nofun).1 hon
      · cases after <;> exact fun a next => nofun
      · rw [hpc]
        cases after <;> rfl

/-! ## Every move -/

/-- A call of `pop` or a return: the thread has no node in hand, before or after. -/
theorem owned_act (h : Owned s owner) (hth : s.threads[i]? = some th) {pc : Pc} {act : Act α}
    {p' : Phase α} (hact : act.effect? = none)
    (hkeeps : ∀ l, th.pc.Keeps (links s.heap) l → pc.Keeps (links s.heap) l)
    (hshares : ∀ a, ¬ th.pc.Shares a) (hheld : ∀ a, ¬ pc.Holds a)
    (hphase : ∀ p, th.PhaseIs s.heap p → p.Next Answers act p') (hp' : Thread.PhaseIs s.heap p' ⟨pc, none⟩)
    (hcount : th.pc.inPop = pc.inPop) : Owned (s.goto i pc none [act]) owner := by
  refine h.goto_same hth [act] (fun a _ => rfl) (fun a => Iff.rfl) ?_
    (fun l hl _ => hkeeps l hl) (fun p hp => ⟨p', hp', fun hf => hf.own (hphase p hp)⟩)
    (fun _ _ a _ _ _ _ hsh => absurd hsh (hshares a)) (fun a ha => absurd ha (hheld a)) ?_
    (by rw [hcount])
  · intro st hst
    simpa [hact] using hst.sequential
  · rintro a next rfl
    exact absurd rfl (hheld a)

/-- `++th_in_pop` or `--threads_in_pop`: nothing but the counter changes. -/
theorem owned_count (h : Owned s owner) (hth : s.threads[i]? = some th) {count : Nat} {pc : Pc}
    {res : Option α} (hkeeps : ∀ l, th.pc.Keeps (links s.heap) l → pc.Keeps (links s.heap) l)
    (hphase : ∀ p, th.PhaseIs s.heap p → Thread.PhaseIs s.heap p ⟨pc, res⟩)
    (hshares : ∀ (k : Nat) (thk : Thread α) (a : Nat), k ≠ i → s.threads[k]? = some thk →
      thk.pc.Holds a → owner a = .thread i → th.pc.Shares a → pc.Shares a)
    (hheld : ∀ a, ¬ pc.Holds a) (hcount : count + th.pc.inPop = s.threadsInPop + pc.inPop) :
    Owned (State.goto { s with threadsInPop := count } i pc res []) owner := by
  refine h.goto_same hth [] (fun a _ => rfl) (fun a => Iff.rfl) ?_
    (fun l hl _ => hkeeps l hl) (fun p hp => ⟨p, hphase p hp, fun hf => by simpa using hf⟩) hshares
    (fun a ha => absurd ha (hheld a)) ?_ hcount
  · intro st hst
    simpa using hst.sequential
  · rintro a next rfl
    exact absurd rfl (hheld a)

/-- A `pop` that is about to look at `head`, or has looked in vain. -/
theorem popping (heap : Nat → Option (Node α))
    (hpc : th.pc = .popLoad ∨ ∃ old next, th.pc = .popCas old next) :
    (∀ l, th.pc.Keeps (links heap) l → l = []) ∧ (∀ p, th.PhaseIs heap p → p = .pending .pop) ∧
      (∀ a, ¬ th.pc.Shares a) ∧ th.pc.inPop = 1 := by
  obtain ⟨pc, res⟩ := th
  rcases hpc with hpc | ⟨old, next, hpc⟩
  · obtain rfl : pc = _ := hpc
    exact ⟨fun l => id, fun p => id, fun a => id, rfl⟩
  · obtain rfl : pc = _ := hpc
    exact ⟨fun l => id, fun p => id, fun a => id, rfl⟩

theorem owned_sawEmpty (h : Owned s owner) (hth : s.threads[i]? = some th)
    (hpc : th.pc = .popLoad ∨ ∃ old next, th.pc = .popCas old next) (hhead : s.head = none) :
    Owned (s.goto i (.popLoop none) none [.effect .popEmpty]) owner := by
  obtain ⟨hkeeps, hphase, hshares, hin⟩ := popping s.heap hpc
  refine h.goto_same hth [.effect .popEmpty] (fun a _ => rfl) (fun a => Iff.rfl) ?_
    (fun l hl _ => hkeeps l hl) ?_ (fun _ _ a _ _ _ _ hsh => absurd hsh (hshares a))
    (fun a ha => absurd ha id) (fun a next => nofun) (by rw [hin]; rfl)
  · intro st hst
    have hnil : st = [] := by
      have hlinked := hst.linked
      rw [hhead] at hlinked
      exact List.map_eq_nil_iff.1 hlinked.eq_nil
    subst hnil
    rw [filterMap_effect]
    exact hst.sequential.popEmpty
  · intro p hp
    obtain rfl := hphase p hp
    exact ⟨.decided none, rfl, fun hf => hf.own (.effect .popEmpty)⟩

theorem owned_sawTop (h : Owned s owner) (hth : s.threads[i]? = some th) {top : Nat}
    (hpc : th.pc = .popLoad ∨ ∃ old next, th.pc = .popCas old next) (hhead : s.head = some top) :
    Owned (s.goto i (.popLoop (some top)) none []) owner := by
  obtain ⟨hkeeps, hphase, hshares, hin⟩ := popping s.heap hpc
  refine h.goto_same hth [] (fun a _ => rfl) (fun a => Iff.rfl) ?_
    (fun l hl _ => hkeeps l hl) ?_ (fun _ _ a _ _ _ _ hsh => absurd hsh (hshares a)) ?_
    (fun a next => nofun) (by rw [hin]; rfl)
  · intro st hst
    simpa using hst.sequential
  · intro p hp
    exact ⟨p, hphase p hp, fun hf => by simpa using hf⟩
  · rintro a rfl
    obtain ⟨st, hst⟩ := h.stack
    refine Or.inl ((hst.owned a).2 ?_)
    have hlinked := hst.linked
    rw [hhead] at hlinked
    cases hmap : st.map Prod.fst with
    | nil =>
        rw [hmap] at hlinked
        cases hlinked
    | cons b l =>
        rw [hmap] at hlinked
        cases hlinked
        exact List.mem_cons_self ..

theorem Moves.owned (hmoves : Moves s i th t) (h : Owned s owner) (hth : s.threads[i]? = some th)
    (hsize : s.threads.length ≤ unsignedMax) : ∃ owner', Owned t owner' := by
  cases hmoves with
  | callPush data hpc hfree => exact ⟨_, owned_callPush h hth hpc hfree⟩
  | link hpc hnode => exact ⟨owner, owned_link h hth hpc hnode⟩
  | publish hpc hnode hhead => exact ⟨_, owned_publish h hth hpc hnode hhead⟩
  | sawEmpty hpc hhead => exact ⟨owner, owned_sawEmpty h hth hpc hhead⟩
  | sawTop hpc hhead => exact ⟨owner, owned_sawTop h hth hpc hhead⟩
  | unlink hpc hhead => exact ⟨_, owned_unlink h hth hpc hhead⟩
  | swap hpc hnode => exact ⟨owner, owned_swap h hth hpc hnode⟩
  | takePending hpc => exact ⟨_, owned_takePending h hth hpc⟩
  | chainLink hpc hnode => exact ⟨owner, owned_chainLink h hth hpc hnode⟩
  | chain hpc hnode hnext => exact ⟨_, owned_chain h hth hpc hnode hnext⟩
  | callPop hpc =>
      obtain ⟨pc, res⟩ := th
      obtain rfl : pc = _ := hpc
      refine ⟨owner, owned_act h hth rfl (fun l => id) (fun a => id) (fun a => id) ?_ rfl rfl⟩
      rintro p rfl
      exact .call Operation.pop
  | pushReturn hpc =>
      obtain ⟨pc, res⟩ := th
      obtain rfl : pc = _ := hpc
      refine ⟨owner, owned_act h hth rfl (fun l => id) (fun a => id) (fun a => id) ?_ rfl rfl⟩
      rintro p rfl
      exact .ret none
  | popReturn hpc =>
      obtain ⟨pc, res⟩ := th
      obtain rfl : pc = _ := hpc
      refine ⟨owner, owned_act h hth rfl (fun l => id) (fun a => id) (fun a => id) ?_ rfl rfl⟩
      rintro p rfl
      exact .ret res
  | enter hpc =>
      obtain ⟨pc, res⟩ := th
      obtain rfl : pc = _ := hpc
      refine ⟨owner, owned_count h hth (fun l => id) (fun p => id)
        (fun _ _ a _ _ _ _ hsh => absurd hsh id) (fun a => id) ?_⟩
      exact h.increment hth rfl hsize
  | leavePop hpc =>
      obtain ⟨pc, res⟩ := th
      obtain rfl : pc = _ := hpc
      exact ⟨owner, owned_count h hth (fun l => id) (fun p => id)
        (fun _ _ a _ _ _ _ hsh => absurd hsh id) (fun a => id) (h.decrement hth rfl)⟩
  | leaveLast hpc hzero =>
      obtain ⟨pc, res⟩ := th
      obtain rfl : pc = _ := hpc
      have hdec := h.decrement hth rfl
      -- the counter was 1, so nobody else holds a node
      refine ⟨owner, owned_count h hth (fun l => id) (fun p => id) ?_ (fun a => id) hdec⟩
      intro k thk a hk hthk hholds _ _
      exact absurd hholds (h.alone hth rfl (by omega) hthk hk)
  | leaveOthers hpc =>
      obtain ⟨pc, res⟩ := th
      obtain rfl : pc = _ := hpc
      refine ⟨owner, owned_count h hth ?_ (fun p => id) (fun _ _ a _ _ _ _ hsh => hsh) (fun a => id)
        (h.decrement hth rfl)⟩
      rintro l ⟨m, hm, rfl⟩
      refine ⟨m, hm, ?_, rfl⟩
      cases hm with
      | cons _ _ => exact List.mem_cons_self ..
  | leaveNothing hpc =>
      obtain ⟨pc, res⟩ := th
      obtain rfl : pc = _ := hpc
      refine ⟨owner, owned_count h hth ?_ (fun p => id) ?_ (fun a => id)
        (h.decrement hth rfl)⟩
      · rintro l ⟨m, hm, rfl⟩
        rw [hm.eq_nil, List.append_nil]
        exact rfl
      · -- the thread owns nothing but `old`
        intro k thk a _ _ _ hmine hsh
        obtain ⟨l, ⟨m, hm, rfl⟩, -, howner⟩ := (h.threads i _ hth).keeps
        rw [hm.eq_nil, List.append_nil] at howner
        exact absurd (Option.mem_toList.1 ((howner a).1 hmine)) hsh
  | leaveLoop hpc =>
      obtain ⟨pc, res⟩ := th
      obtain rfl : pc = _ := hpc
      exact ⟨owner, h.goto_local hth (fun l => id) (fun p => id) (fun a hsh => absurd hsh id)
        (fun a => id) (fun a next => nofun) rfl⟩
  | readNext hpc hnode =>
      obtain ⟨pc, res⟩ := th
      obtain rfl : pc = _ := hpc
      refine ⟨owner, h.goto_local hth (fun l => id) (fun p => id) (fun a hsh => hsh) (fun a => id) ?_ rfl⟩
      intro a next hnext
      cases hnext
      exact links_some hnode
  | alone hpc hone =>
      obtain ⟨pc, res⟩ := th
      obtain rfl : pc = _ := hpc
      refine ⟨owner, owned_count h hth (fun l => id) (fun p => id) ?_ (fun a => id) rfl⟩
      intro k thk a hk hthk hholds _ _
      exact absurd hholds (h.alone hth rfl hone hthk hk)
  | @notAlone old hpc hone =>
      obtain ⟨pc, res⟩ := th
      obtain rfl : pc = _ := hpc
      refine ⟨owner, h.goto_local hth ?_ (fun p => id) (fun a _ => nofun) (fun a => id)
        (fun a next => nofun) rfl⟩
      rintro l rfl
      cases old with
      | none => exact rfl
      | some old => exact ⟨[old], .last old, rfl⟩
  | deletedAll hpc =>
      obtain ⟨pc, res⟩ := th
      obtain rfl : pc = _ := hpc
      refine ⟨owner, h.goto_local hth ?_ (fun p => id) (fun a => id) (fun a => id)
        (fun a next => nofun) rfl⟩
      rintro l ⟨m, hm, rfl⟩
      rw [hm.eq_nil, List.append_nil]
      exact rfl
  | readNxt hpc hnode =>
      obtain ⟨pc, res⟩ := th
      obtain rfl : pc = _ := hpc
      refine ⟨owner, h.goto_local hth ?_ (fun p => id) (fun a => id) (fun a => id)
        (fun a next => nofun) rfl⟩
      rintro l ⟨m, hm, rfl⟩
      cases hm with
      | cons hnext hrest =>
          rw [links_some hnode] at hnext
          cases hnext
          exact ⟨_, hrest, rfl⟩
  | @deleteNode old nxt nodes hpc =>
      obtain ⟨pc, res⟩ := th
      obtain rfl : pc = _ := hpc
      refine ⟨_, owned_delete h hth (fun b => id) ?_ (fun heap p => id) (fun b => id) rfl⟩
      rintro l ⟨m, hm, rfl⟩ hnodup
      refine ⟨by simp, m, hm, ?_⟩
      have hout : nodes ∉ old.toList := fun hin =>
        (List.nodup_append.1 hnodup).2.2 nodes hin nodes (List.mem_cons_self ..) rfl
      rw [List.erase_append_right _ hout, List.erase_cons_head]
  | walk hpc hnode hnext =>
      obtain ⟨pc, res⟩ := th
      obtain rfl : pc = _ := hpc
      refine ⟨owner, h.goto_local hth ?_ (fun p => id) (fun a => id) (fun a => id)
        (fun a next => nofun) rfl⟩
      rintro l ⟨m, hm, hlst, rfl⟩
      refine ⟨m, hm, hm.next_mem hlst ?_, rfl⟩
      rw [links_some hnode, hnext]
  | foundLast hpc hnode hnext =>
      obtain ⟨pc, res⟩ := th
      obtain rfl : pc = _ := hpc
      refine ⟨owner, h.goto_local hth ?_ (fun p => id) (fun a => id) (fun a => id)
        (fun a next => nofun) rfl⟩
      rintro l ⟨m, hm, hlst, rfl⟩
      refine ⟨m, hm.segment hlst ?_, rfl⟩
      rw [links_some hnode, hnext]
  | deleteNull hpc =>
      obtain ⟨pc, res⟩ := th
      obtain rfl : pc = _ := hpc
      exact ⟨owner, h.goto_local hth (fun l => id) (fun p => id) (fun a => id) (fun a => id)
        (fun a next => nofun) rfl⟩
  | @deleteOld old hpc =>
      obtain ⟨pc, res⟩ := th
      obtain rfl : pc = _ := hpc
      refine ⟨_, owned_delete h hth (fun b => id) ?_ (fun heap p => id) (fun b => id) rfl⟩
      rintro l rfl _
      refine ⟨by simp, ?_⟩
      simp [Pc.Keeps]

end LockFreeStackReclaim

end CppConcurrency
end MyCppCode
