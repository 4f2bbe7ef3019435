import Mathlib.Data.List.Nodup
import MyCppCode.CppConcurrency.LockFreeStack

/-!
# LockFreeStackHistory — the history of `lock_free_stack_2` is that of a LIFO stack

The nodes from `head` on are the sequential stack.  A node is private to its thread until it is
published, and published nodes do not change; this is all that a thread needs to know about the
others.
-/

namespace MyCppCode
namespace CppConcurrency

open Foundation
open History (effects effects_append effects_map filterMap_call filterMap_effect)
open Lifo

universe u

namespace LockFreeStack

variable {α : Type u} {s t : State α}

/-! ## Nodes -/

/-- The list that starts at a pointer: the nodes with their data. -/
inductive Chain (heap : List (Node α)) : Option Nat → List (Nat × α) → Prop where
  | nil : Chain heap none []
  | cons {a : Nat} {node : Node α} {rest : List (Nat × α)} : heap[a]? = some node →
      Chain heap node.next rest → Chain heap (some a) ((a, node.data) :: rest)

/-- The node has been pushed. -/
def Published (log : List (Entry α)) (a : Nat) : Prop :=
  ∃ data, (a, data) ∈ pushed (effects log)

/-- The node is being pushed, and is still private. -/
def Pc.Owns : Pc → Nat → Prop
  | .pushLoad nd, a => a = nd
  | .pushCas nd, a => a = nd
  | _, _ => False

/-- `pop` has a pointer to the node. -/
def Pc.Holds : Pc → Nat → Prop
  | .popLoop (some old), a => a = old
  | .popCas old _, a => a = old
  | .popReturn (some old), a => a = old
  | _, _ => False

/-- The nodes of `heap` are there in `heap'` with their data, and the shared ones have not changed. -/
structure Kept (shared : Nat → Prop) (heap heap' : List (Node α)) : Prop where
  data : ∀ (a : Nat) (node : Node α), heap[a]? = some node →
    ∃ node' : Node α, heap'[a]? = some node' ∧ node'.data = node.data
  same : ∀ (a : Nat) (node : Node α), shared a → heap[a]? = some node → heap'[a]? = some node

theorem Kept.refl (shared : Nat → Prop) (heap : List (Node α)) : Kept shared heap heap :=
  ⟨fun _ node h => ⟨node, h, rfl⟩, fun _ _ _ h => h⟩

theorem Kept.lt {shared : Nat → Prop} {heap heap' : List (Node α)} (h : Kept shared heap heap')
    {a : Nat} (ha : a < heap.length) : a < heap'.length := by
  obtain ⟨node', hnode', -⟩ := h.data a _ (List.getElem?_eq_getElem ha)
  exact (List.getElem?_eq_some_iff.1 hnode').1

theorem kept_append (shared : Nat → Prop) (heap : List (Node α)) (node : Node α) :
    Kept shared heap (heap ++ [node]) := by
  have hsame : ∀ (a : Nat) (n : Node α), heap[a]? = some n → (heap ++ [node])[a]? = some n := by
    intro a n hn
    rw [List.getElem?_append_left (List.getElem?_eq_some_iff.1 hn).1]
    exact hn
  exact ⟨fun a n hn => ⟨n, hsame a n hn, rfl⟩, fun a n _ hn => hsame a n hn⟩

theorem kept_setNext {shared : Nat → Prop} {heap : List (Node α)} {nd : Nat}
    (hnd : ¬ shared nd) (next : Option Nat) : Kept shared heap (setNext heap nd next) := by
  constructor
  · intro a node hnode
    by_cases ha : nd = a
    · exact ⟨{ node with next := next }, by simp [setNext, ha, hnode], rfl⟩
    · exact ⟨node, by simp [setNext, ha, hnode], rfl⟩
  · intro a node hshared hnode
    have ha : nd ≠ a := by
      rintro rfl
      exact hnd hshared
    simp [setNext, ha, hnode]

theorem Chain.kept {shared : Nat → Prop} {heap heap' : List (Node α)} {p : Option Nat}
    {st : List (Nat × α)} (h : Chain heap p st) (hkept : Kept shared heap heap')
    (hst : ∀ x ∈ st, shared x.1) : Chain heap' p st := by
  induction h with
  | nil =>
      exact .nil
  | cons hnode _ ih =>
      have hnode' := hkept.same _ _ (hst _ (List.mem_cons_self ..)) hnode
      exact .cons hnode' (ih fun x hx => hst x (List.mem_cons_of_mem _ hx))

/-- What is on the stack has been pushed. -/
theorem published_of_mem {log : List (Entry α)} {st : List (Nat × α)}
    (h : Sequential (effects log) st) {x : Nat × α} (hx : x ∈ st) : Published log x.1 :=
  ⟨x.2, h.perm.symm.subset (List.mem_append_right _ hx)⟩

/-! ## What is known about a thread -/

/-- Where the thread is in its operation. -/
def Pc.PhaseIs (heap : List (Node α)) (p : Phase α) : Pc → Prop
  | .idle => p = .idle
  | .pushLoad nd => ∃ node : Node α, heap[nd]? = some node ∧ p = .pending (.push node.data)
  | .pushCas nd => ∃ node : Node α, heap[nd]? = some node ∧ p = .pending (.push node.data)
  | .pushReturn => p = .decided none
  | .popLoad => p = .pending .pop
  | .popLoop none => p = .decided none
  | .popLoop (some _) => p = .pending .pop
  | .popCas _ _ => p = .pending .pop
  | .popReturn none => p = .decided none
  | .popReturn (some old) => ∃ node : Node α, heap[old]? = some node ∧ p = .decided (some node.data)

/-- The successor that `pop` has read is that of the node. -/
def Pc.NextOk (heap : List (Node α)) : Pc → Prop
  | .popCas old next => ∃ node : Node α, heap[old]? = some node ∧ node.next = next
  | _ => True

structure ThreadOk (heap : List (Node α)) (log : List (Entry α)) (thread : Nat) (pc : Pc) : Prop where
  owned : ∀ a, pc.Owns a → a < heap.length ∧ ¬ Published log a
  held : ∀ a, pc.Holds a → Published log a
  next_ok : pc.NextOk heap
  phase : ∃ p, pc.PhaseIs heap p ∧ Follows thread log p

theorem Pc.PhaseIs.kept {shared : Nat → Prop} {heap heap' : List (Node α)}
    (hkept : Kept shared heap heap') {pc : Pc} {p : Phase α} (h : pc.PhaseIs heap p) :
    pc.PhaseIs heap' p := by
  -- The phase depends on a node only through its data.
  have hnode : ∀ (a : Nat) (f : α → Phase α),
      (∃ node : Node α, heap[a]? = some node ∧ p = f node.data) →
        ∃ node : Node α, heap'[a]? = some node ∧ p = f node.data := by
    rintro a f ⟨node, hnode, hp⟩
    obtain ⟨node', hnode', hdata⟩ := hkept.data a node hnode
    exact ⟨node', hnode', by rw [hdata]; exact hp⟩
  cases pc with
  | pushLoad nd => exact hnode nd (fun d => .pending (.push d)) h
  | pushCas nd => exact hnode nd (fun d => .pending (.push d)) h
  | popLoop old => cases old <;> exact h
  | popReturn old =>
      cases old with
      | none => exact h
      | some old => exact hnode old (fun d => .decided (some d)) h
  | _ => exact h

theorem Pc.NextOk.kept {shared : Nat → Prop} {heap heap' : List (Node α)}
    (hkept : Kept shared heap heap') {pc : Pc} (hheld : ∀ a, pc.Holds a → shared a)
    (h : pc.NextOk heap) : pc.NextOk heap' := by
  cases pc with
  | popCas old next =>
      obtain ⟨node, hnode, hnext⟩ := h
      exact ⟨node, hkept.same old node (hheld old rfl) hnode, hnext⟩
  | _ => trivial

/-! ## Logs -/

theorem published_append {log log' : List (Entry α)} {a : Nat} :
    Published (log ++ log') a ↔ Published log a ∨ Published log' a := by
  simp only [Published, effects_append, pushed_append, List.mem_append, exists_or]

theorem Published.append {log log' : List (Entry α)} {a : Nat} (h : Published log a) :
    Published (log ++ log') a :=
  published_append.2 (Or.inl h)

/-- A thread that does not move keeps what it knows: shared nodes are as they were, and no node of its
own has been published. -/
theorem ThreadOk.other {heap heap' : List (Node α)} {log : List (Entry α)} {u thread : Nat} {pc : Pc}
    (h : ThreadOk heap log u pc) (hkept : Kept (Published log) heap heap') (hne : thread ≠ u)
    {acts : List (Act α)}
    (hnew : ∀ a, Published (acts.map fun act => (⟨thread, act⟩ : Entry α)) a → ¬ pc.Owns a) :
    ThreadOk heap' (log ++ acts.map fun act => ⟨thread, act⟩) u pc := by
  refine ⟨?_, ?_, h.next_ok.kept hkept h.held, ?_⟩
  · intro a ha
    obtain ⟨hlt, hprivate⟩ := h.owned a ha
    refine ⟨hkept.lt hlt, ?_⟩
    rw [published_append]
    rintro (hold | hnew')
    · exact hprivate hold
    · exact hnew a hnew' ha
  · intro a ha
    exact (h.held a ha).append
  · obtain ⟨p, hp, hfollows⟩ := h.phase
    exact ⟨p, hp.kept hkept, hfollows.others hne acts⟩

/-! ## The invariant -/

structure Inv (s : State α) : Prop where
  chain : ∃ st, Chain s.heap s.head st ∧ Sequential (effects s.log) st
  nodup : ((pushed (effects s.log)).map Prod.fst).Nodup
  published_lt : ∀ a, Published s.log a → a < s.heap.length
  threads : ∀ u, ThreadOk s.heap s.log u (s.pc u)
  distinct : ∀ u v a, (s.pc u).Owns a → (s.pc v).Owns a → u = v

theorem start_inv : Inv (start : State α) := by
  refine ⟨⟨[], .nil, .nil⟩, List.nodup_nil, ?_, ?_, ?_⟩
  · rintro a ⟨data, hdata⟩
    exact absurd hdata (List.not_mem_nil)
  · intro u
    exact ⟨fun a ha => absurd ha id, fun a ha => absurd ha id, trivial, .idle, rfl, .nil⟩
  · intro u v a ha
    exact absurd ha id

/-- One move of one thread, from the parts that concern it: the others keep what they know. -/
theorem Inv.goto (h : Inv s) {thread : Nat} {pc : Pc} {acts : List (Act α)}
    {es : List (Effect (Nat × α))} (hes : acts.filterMap History.Act.effect? = es) {heap : List (Node α)}
    {head : Option Nat} (hkept : Kept (Published s.log) s.heap heap)
    (hchain : ∃ st, Chain heap head st ∧ Sequential (effects s.log ++ es) st)
    (hpublished : ∀ x ∈ pushed es, (s.pc thread).Owns x.1) (hnodup : (pushed es).length ≤ 1)
    (howns : ∀ a, pc.Owns a → (s.pc thread).Owns a ∨ s.heap.length ≤ a)
    (hthread : ThreadOk heap (s.log ++ acts.map fun act => ⟨thread, act⟩) thread pc) :
    Inv (State.goto { s with heap := heap, head := head } thread pc acts) := by
  have hnew : ∀ a, Published (acts.map fun act => (⟨thread, act⟩ : Entry α)) a →
      (s.pc thread).Owns a := by
    rintro a ⟨data, hdata⟩
    rw [effects_map, hes] at hdata
    exact hpublished _ hdata
  refine ⟨?_, ?_, ?_, ?_, ?_⟩
  · simpa [State.goto, hes] using hchain
  · simp only [State.goto, effects_append, effects_map, hes, pushed_append, List.map_append]
    refine List.Nodup.append h.nodup ?_ ?_
    · cases hpushed : pushed es with
      | nil => exact List.nodup_nil
      | cons x rest =>
          obtain rfl : rest = [] := by
            rw [hpushed] at hnodup
            simpa using hnodup
          exact List.nodup_singleton _
    · -- A node that is published now was private until now.
      intro a hold hnow
      obtain ⟨⟨b, data⟩, hmem, rfl⟩ := List.mem_map.1 hold
      obtain ⟨x, hx, hxb⟩ := List.mem_map.1 hnow
      have hown := hpublished x hx
      rw [hxb] at hown
      exact ((h.threads thread).owned _ hown).2 ⟨data, hmem⟩
  · intro a ha
    simp only [State.goto, published_append] at ha
    rcases ha with hold | hnow
    · exact hkept.lt (h.published_lt a hold)
    · exact hkept.lt ((h.threads thread).owned a (hnew a hnow)).1
  · -- what the others own is not published by this move, for ownership is exclusive
    intro u
    by_cases hu : u = thread
    · subst hu
      simpa [State.goto] using hthread
    · simp only [State.goto, Function.update_of_ne hu]
      refine (h.threads u).other hkept (Ne.symm hu) ?_
      intro a hnow hown
      exact hu (h.distinct u thread a hown (hnew a hnow))
  · -- a node that the thread owns now it owned before, or it is newly allocated
    have hother : ∀ u a, u ≠ thread → pc.Owns a → ¬ (s.pc u).Owns a := by
      intro u a hu ha hown
      rcases howns a ha with hsame | hfresh
      · exact hu (h.distinct u thread a hown hsame)
      · exact absurd ((h.threads u).owned a hown).1 (Nat.not_lt.2 hfresh)
    intro u v a hua hva
    simp only [State.goto] at hua hva
    by_cases hu : u = thread
    · by_cases hv : v = thread
      · rw [hu, hv]
      · subst hu
        rw [Function.update_self] at hua
        rw [Function.update_of_ne hv] at hva
        exact absurd hva (hother v a hv hua)
    · rw [Function.update_of_ne hu] at hua
      by_cases hv : v = thread
      · subst hv
        rw [Function.update_self] at hva
        exact absurd hua (hother u a hu hva)
      · rw [Function.update_of_ne hv] at hva
        exact h.distinct u v a hua hva

/-! ## Every move keeps it -/

/-- A move that neither publishes a node nor changes the list: what has to be said is only where the
thread is now. -/
theorem Inv.goto_local (h : Inv s) {thread : Nat} {pc : Pc} {acts : List (Act α)}
    (hacts : acts.filterMap History.Act.effect? = []) (howns : ∀ a, ¬ pc.Owns a)
    (hheld : ∀ a, pc.Holds a → Published s.log a) (hnext : pc.NextOk s.heap)
    (hphase : ∀ p, (s.pc thread).PhaseIs s.heap p → Follows thread s.log p →
      ∃ p', pc.PhaseIs s.heap p' ∧
        Follows thread (s.log ++ acts.map fun act => ⟨thread, act⟩) p') :
    Inv (s.goto thread pc acts) := by
  obtain ⟨st, hchain, hseq⟩ := h.chain
  obtain ⟨p, hp, hfollows⟩ := (h.threads thread).phase
  refine h.goto hacts (Kept.refl _ _) ⟨st, hchain, by simpa using hseq⟩ (by simp) (by simp) ?_ ?_
  · exact fun a ha => absurd ha (howns a)
  · exact ⟨fun a ha => absurd ha (howns a), fun a ha => (hheld a ha).append, hnext,
      hphase p hp hfollows⟩

/-- A move that only records an act without an effect, a call of `pop` or a return, and leaves the thread
where it has no node. -/
theorem Inv.goto_act (h : Inv s) {thread : Nat} {pc : Pc} {act : Act α} {p p' : Phase α}
    (hact : act.effect? = none) (howns : ∀ a, ¬ pc.Owns a) (hheld : ∀ a, ¬ pc.Holds a)
    (hnext : pc.NextOk s.heap) (hp : ∀ q, (s.pc thread).PhaseIs s.heap q → q = p)
    (hgo : p.Next Answers act p') (hp' : pc.PhaseIs s.heap p') : Inv (s.goto thread pc [act]) := by
  refine h.goto_local ?_ howns (fun a ha => absurd ha (hheld a)) hnext ?_
  · simp [hact]
  · intro q hq hfollows
    obtain rfl := hp q hq
    exact ⟨p', hp', hfollows.own hgo⟩

/-- `new node(data)`: a fresh node, private to its thread. -/
theorem inv_callPush (h : Inv s) {thread : Nat} (hpc : s.pc thread = .idle) (data : α) :
    Inv (State.goto { s with heap := s.heap ++ [{ data := data, next := none }] } thread
      (.pushLoad s.heap.length) [.call (.push data)]) := by
  obtain ⟨st, hchain, hseq⟩ := h.chain
  obtain ⟨p, hp, hfollows⟩ := (h.threads thread).phase
  rw [hpc] at hp
  cases hp
  have hkept := kept_append (Published s.log) s.heap { data := data, next := none }
  have hchain' := hchain.kept hkept fun x hx => published_of_mem hseq hx
  refine h.goto (filterMap_call _ []) hkept ⟨st, hchain', by simpa using hseq⟩ (by simp) (by simp) ?_ ?_
  · rintro a rfl
    exact Or.inr (Nat.le_refl _)
  · refine ⟨?_, fun a ha => absurd ha id, trivial, .pending (.push data), ?_, ?_⟩
    · rintro a rfl
      refine ⟨by simp, ?_⟩
      rw [published_append]
      rintro (hold | ⟨d, hd⟩)
      · exact absurd (h.published_lt _ hold) (Nat.lt_irrefl _)
      · exact absurd hd (List.not_mem_nil)
    · exact ⟨{ data := data, next := none }, by simp, rfl⟩
    · exact hfollows.own (.call _)

/-- `nd->next` takes the value of `head`: at the load, and when the compare-exchange fails. -/
theorem inv_link (h : Inv s) {thread nd : Nat}
    (hpc : s.pc thread = .pushLoad nd ∨ s.pc thread = .pushCas nd) :
    Inv (State.goto { s with heap := setNext s.heap nd s.head } thread (.pushCas nd) []) := by
  obtain ⟨st, hchain, hseq⟩ := h.chain
  obtain ⟨p, hp, hfollows⟩ := (h.threads thread).phase
  have hown : (s.pc thread).Owns nd := by
    rcases hpc with hpc | hpc <;> rw [hpc] <;> exact rfl
  have hphase : Pc.PhaseIs s.heap p (.pushCas nd) := by
    rcases hpc with hpc | hpc <;> rw [hpc] at hp <;> exact hp
  obtain ⟨hlt, hprivate⟩ := (h.threads thread).owned nd hown
  have hkept : Kept (Published s.log) s.heap (setNext s.heap nd s.head) :=
    kept_setNext hprivate s.head
  have hchain' := hchain.kept hkept fun x hx => published_of_mem hseq hx
  refine h.goto rfl hkept ⟨st, hchain', by simpa using hseq⟩ (by simp) (by simp) ?_ ?_
  · rintro a rfl
    exact Or.inl hown
  · refine ⟨?_, fun a ha => absurd ha id, trivial, p, hphase.kept hkept, by simpa using hfollows⟩
    rintro a rfl
    exact ⟨hkept.lt hlt, by simpa using hprivate⟩

/-- The compare-exchange of `push` succeeds: the node is the new top. -/
theorem inv_publish (h : Inv s) {thread nd : Nat} {node : Node α} (hpc : s.pc thread = .pushCas nd)
    (hnode : s.heap[nd]? = some node) (hhead : s.head = node.next) :
    Inv (State.goto { s with head := some nd } thread .pushReturn
      [.effect (.push (nd, node.data))]) := by
  obtain ⟨st, hchain, hseq⟩ := h.chain
  obtain ⟨p, hp, hfollows⟩ := (h.threads thread).phase
  rw [hpc] at hp
  obtain ⟨node', hnode', rfl⟩ := hp
  cases hnode.symm.trans hnode'
  rw [hhead] at hchain
  refine h.goto (filterMap_effect _ []) (Kept.refl _ _) ⟨_, .cons hnode hchain, hseq.push _⟩ ?_ (by simp) ?_ ?_
  · intro x hx
    obtain rfl : x = (nd, node.data) := by simpa using hx
    rw [hpc]
    exact rfl
  · exact fun a ha => absurd ha id
  · exact ⟨fun a ha => absurd ha id, fun a ha => absurd ha id, trivial, .decided none, rfl,
      hfollows.own (.effect (.push nd node.data))⟩

/-- Both places where `pop` gets a value of `head` are inside a pending `pop`. -/
theorem pending_of_popping {thread : Nat} {p : Phase α}
    (hpc : s.pc thread = .popLoad ∨ ∃ old next, s.pc thread = .popCas old next)
    (hp : (s.pc thread).PhaseIs s.heap p) : p = .pending .pop := by
  rcases hpc with hpc | ⟨old, next, hpc⟩ <;> rw [hpc] at hp <;> exact hp

theorem inv_sawEmpty (h : Inv s) {thread : Nat}
    (hpc : s.pc thread = .popLoad ∨ ∃ old next, s.pc thread = .popCas old next)
    (hhead : s.head = none) : Inv (s.goto thread (.popLoop none) [.effect .popEmpty]) := by
  obtain ⟨st, hchain, hseq⟩ := h.chain
  obtain ⟨p, hp, hfollows⟩ := (h.threads thread).phase
  obtain rfl := pending_of_popping hpc hp
  rw [hhead] at hchain
  cases hchain
  have hnil : Chain s.heap s.head [] := by
    rw [hhead]
    exact .nil
  refine h.goto (filterMap_effect _ []) (Kept.refl _ _) ⟨[], hnil, hseq.popEmpty⟩ (by simp) (by simp) ?_ ?_
  · exact fun a ha => absurd ha id
  · exact ⟨fun a ha => absurd ha id, fun a ha => absurd ha id, trivial, .decided none, rfl,
      hfollows.own (.effect .popEmpty)⟩

/-- The compare-exchange of `pop` succeeds: the node is still the one whose `next` was read, so the
list loses its top and nothing else. -/
theorem inv_unlink (h : Inv s) {thread old : Nat} {next : Option Nat} {node : Node α}
    (hpc : s.pc thread = .popCas old next) (hnode : s.heap[old]? = some node)
    (hhead : s.head = some old) :
    Inv (State.goto { s with head := next } thread (.popReturn (some old))
      [.effect (.pop (old, node.data))]) := by
  obtain ⟨st, hchain, hseq⟩ := h.chain
  obtain ⟨p, hp, hfollows⟩ := (h.threads thread).phase
  have hnext := (h.threads thread).next_ok
  have hheld := (h.threads thread).held old
  rw [hpc] at hp hnext hheld
  cases hp
  -- The node was published when its `next` was read, and so has not changed since.
  obtain ⟨node', hnode', rfl⟩ := hnext
  cases hnode.symm.trans hnode'
  rw [hhead] at hchain
  cases hchain with
  | cons hnode'' hrest =>
      cases hnode.symm.trans hnode''
      refine h.goto (filterMap_effect _ []) (Kept.refl _ _) ⟨_, hrest, hseq.pop⟩ (by simp) (by simp) ?_ ?_
      · exact fun a ha => absurd ha id
      · refine ⟨fun a ha => absurd ha id, ?_, trivial, .decided (some node.data), ⟨node, hnode, rfl⟩,
          hfollows.own (.effect (.pop old node.data))⟩
        rintro a rfl
        exact (hheld rfl).append

theorem Moves.inv {thread : Nat} (hmoves : Moves s thread t) (h : Inv s) : Inv t := by
  cases hmoves with
  | callPush data hpc => exact inv_callPush h hpc data
  | link hpc => exact inv_link h hpc
  | publish hpc hnode hhead => exact inv_publish h hpc hnode hhead
  | sawEmpty hpc hhead => exact inv_sawEmpty h hpc hhead
  | unlink hpc hnode hhead => exact inv_unlink h hpc hnode hhead
  | callPop hpc =>
      refine h.goto_act rfl (fun a => id) (fun a => id) trivial ?_ (.call Operation.pop) rfl
      rw [hpc]
      exact fun q => id
  | pushReturn hpc =>
      refine h.goto_act rfl (fun a => id) (fun a => id) trivial ?_ (.ret none) rfl
      rw [hpc]
      exact fun q => id
  | sawTop hpc hhead =>
      obtain ⟨st, hchain, hseq⟩ := h.chain
      refine h.goto_local rfl (fun a => id) ?_ trivial ?_
      · rintro a rfl
        rw [hhead] at hchain
        cases hchain with
        | cons hnode _ => exact published_of_mem hseq (List.mem_cons_self ..)
      · intro p hp hfollows
        exact ⟨p, pending_of_popping hpc hp, by simpa using hfollows⟩
  | leave hpc =>
      refine h.goto_local rfl (fun a => id) (fun a ha => absurd ha id) trivial ?_
      intro p hp hfollows
      rw [hpc] at hp
      exact ⟨p, hp, by simpa using hfollows⟩
  | @readNext old node hpc hnode =>
      have hheld := (h.threads thread).held old
      rw [hpc] at hheld
      refine h.goto_local rfl (fun a => id) ?_ ⟨node, hnode, rfl⟩ ?_
      · rintro a rfl
        exact hheld rfl
      · intro p hp hfollows
        rw [hpc] at hp
        exact ⟨p, hp, by simpa using hfollows⟩
  | returnNull hpc =>
      refine h.goto_act rfl (fun a => id) (fun a => id) trivial ?_ (.ret none) rfl
      rw [hpc]
      exact fun q => id
  | @returnData old node hpc hnode =>
      refine h.goto_act rfl (fun a => id) (fun a => id) trivial ?_ (.ret (some node.data)) rfl
      rw [hpc]
      rintro q ⟨node', hnode', rfl⟩
      cases hnode.symm.trans hnode'
      rfl

theorem step_inv {e : Event α} (h : Inv s) (hstep : step s e = some t) : Inv t := by
  obtain ⟨thread, hmoves⟩ := step_moves hstep
  exact hmoves.inv h

/-! ## The history -/

/-- What a step does to `head` and to the sequence of effects: a compare-exchange that succeeds takes
the effect of its operation, a null that is read from `head` takes that of a `pop` on an empty stack,
and nothing else takes an effect or changes `head`. -/
inductive TakesEffect (s t : State α) : Prop where
  | no : t.head = s.head → effects t.log = effects s.log → TakesEffect s t
  | readNull : s.head = none → t.head = none →
      effects t.log = effects s.log ++ [.popEmpty] → TakesEffect s t
  | pushed (nd : Nat) (node : Node α) : s.heap[nd]? = some node → node.next = s.head →
      t.head = some nd → effects t.log = effects s.log ++ [.push (nd, node.data)] → TakesEffect s t
  | popped (old : Nat) (node : Node α) : s.heap[old]? = some node → s.head = some old →
      t.head = node.next → effects t.log = effects s.log ++ [.pop (old, node.data)] →
      TakesEffect s t

theorem effects_goto (s : State α) (thread : Nat) (pc : Pc) (acts : List (Act α)) :
    effects (s.goto thread pc acts).log = effects s.log ++ acts.filterMap History.Act.effect? := by
  simp [State.goto]

theorem Moves.takesEffect {thread : Nat} (hmoves : Moves s thread t) (h : Inv s) :
    TakesEffect s t := by
  cases hmoves with
  | publish hpc hnode hhead =>
      exact .pushed _ _ hnode hhead.symm rfl (effects_goto _ _ _ _)
  | sawEmpty hpc hhead =>
      exact .readNull hhead hhead (effects_goto _ _ _ _)
  | unlink hpc hnode hhead =>
      have hnext := (h.threads thread).next_ok
      rw [hpc] at hnext
      obtain ⟨node', hnode', rfl⟩ := hnext
      cases hnode.symm.trans hnode'
      exact .popped _ _ hnode hhead rfl (effects_goto _ _ _ _)
  | _ =>
      refine .no rfl ?_
      rw [effects_goto]
      exact List.append_nil _

/-- `lock_free_stack_2` under any interleaving of any number of threads: the effects, each at a
successful compare-exchange or at a null read from `head`, are those of a sequential LIFO stack whose
contents are the nodes from `head` on; each thread's operations take one effect each between their call
and their return, and return what it says; and every node was pushed once, and has been popped once or
is still there. -/
theorem lock_free_stack_2_linearizable {es : List (Event α)} (hrun : Run step start es s) :
    (∃ st, Sequential (effects s.log) st ∧ Chain s.heap s.head st ∧
      (pushed (effects s.log)).Perm (popped (effects s.log) ++ st)) ∧
      ((pushed (effects s.log)).map Prod.fst).Nodup ∧
      (∀ thread, ∃ p, Follows thread s.log p) ∧
      ∀ e t, step s e = some t → TakesEffect s t := by
  have hinv : Inv s := hrun.invariant (fun _ _ _ hs hstep => step_inv hs hstep) start_inv
  obtain ⟨st, hchain, hseq⟩ := hinv.chain
  refine ⟨⟨st, hseq, hchain, hseq.perm⟩, hinv.nodup, ?_, ?_⟩
  · intro thread
    obtain ⟨p, -, hfollows⟩ := (hinv.threads thread).phase
    exact ⟨p, hfollows⟩
  · intro e t hstep
    obtain ⟨thread, hmoves⟩ := step_moves hstep
    exact hmoves.takesEffect hinv

/-- A `pop` reads the head, another thread pushes, and the compare-exchange of the `pop` fails; it pops
the new top. -/
theorem lock_free_stack_2_linearizable_stale :
    ∃ s : State Nat, Run step start
        [.call 0 (.push 5), .move 0 false, .move 0 false, .move 0 false, .call 1 .pop, .move 1 false,
          .call 0 (.push 6), .move 0 false, .move 0 false, .move 1 false, .move 1 false,
          .move 1 false, .move 1 false, .move 1 false] s ∧
      effects s.log = [.push (0, 5), .push (1, 6), .pop (1, 6)] ∧
      ∃ st, Sequential (effects s.log) st ∧ Chain s.heap s.head st := by
  obtain ⟨s, hexec, heffects⟩ : ∃ s : State Nat, exec step start
      [.call 0 (.push 5), .move 0 false, .move 0 false, .move 0 false, .call 1 .pop, .move 1 false,
        .call 0 (.push 6), .move 0 false, .move 0 false, .move 1 false, .move 1 false,
        .move 1 false, .move 1 false, .move 1 false] = some s ∧
      effects s.log = [.push (0, 5), .push (1, 6), .pop (1, 6)] := ⟨_, rfl, rfl⟩
  have hrun := run_of_exec hexec
  obtain ⟨⟨st, hseq, hchain, -⟩, -⟩ := lock_free_stack_2_linearizable hrun
  exact ⟨s, hrun, heffects, st, hseq, hchain⟩

end LockFreeStack

end CppConcurrency
end MyCppCode
