import MyCppCode.CppConcurrency.LockFreeStackReclaimSafety

/-!
# LockFreeStackReclaimRuns — what holds in every run of the stack that deletes its nodes

* no step follows a pointer to a deleted node, and the one null pointer that is followed is that of
  `chain_pending_node(nullptr)`;
* the effects are those of a LIFO stack, although addresses come back, and every allocated node is on
  the stack, pending, or in the hands of a thread;
* a `pop` that has the stack to itself deletes all that is pending, and its own node.
-/

namespace MyCppCode
namespace CppConcurrency

open Foundation
open History (effects)
open Lifo

universe u

namespace LockFreeStackReclaim

variable {α : Type u} {s t : State α} {i n : Nat} {th : Thread α} {owner : Nat → Owner}

/-! ## The invariant of all runs -/

/-- Which pointer a step follows: one that the thread holds, to a node that it owns, or the null that
`chain_pending_node` got. -/
inductive Follows? (pc : Pc) : Option Nat → Prop where
  | held {a : Nat} : pc.Holds a → Follows? pc (some a)
  | owned {a : Nat} : (∀ next l, pc.Keeps next l → a ∈ l) → Follows? pc (some a)
  | null {first : Option Nat} {after : After} : pc = .chainLoad first none after → Follows? pc none

theorem Pc.follows {pc : Pc} {p : Option Nat} (h : pc.access? = some p) : Follows? pc p := by
  cases pc with
  | pushLoad nd =>
      cases h
      exact .owned fun next l hl => by rw [show l = [nd] from hl]; exact List.mem_cons_self ..
  | pushCas nd =>
      cases h
      exact .owned fun next l hl => by rw [show l = [nd] from hl]; exact List.mem_cons_self ..
  | swapData old =>
      cases h
      exact .owned fun next l hl => by rw [show l = [old] from hl]; exact List.mem_cons_self ..
  | popLoop old =>
      cases old with
      | none => cases h
      | some old =>
          cases h
          exact .held rfl
  | deleteLoop old nodes =>
      cases nodes with
      | none => cases h
      | some nodes =>
          cases h
          refine .owned ?_
          rintro next l ⟨m, hm, rfl⟩
          cases hm with
          | cons _ _ => exact List.mem_append_right _ (List.mem_cons_self ..)
  | deleteNode old nodes nxt =>
      cases h
      refine .owned ?_
      rintro next l ⟨m, hm, rfl⟩
      exact List.mem_append_right _ (List.mem_cons_self ..)
  | findLast old nodes lst =>
      cases h
      refine .owned ?_
      rintro next l ⟨m, hm, hlst, rfl⟩
      exact List.mem_append_right _ hlst
  | chainLoad first last after =>
      cases last with
      | none =>
          cases h
          exact .null rfl
      | some last =>
          cases h
          refine .owned fun next l hl => ?_
          cases first with
          | none => exact absurd hl id
          | some first =>
              obtain ⟨m, hm, rfl⟩ := hl
              exact List.mem_append_right _ hm.last_mem
  | chainCas first last after =>
      cases h
      refine .owned fun next l hl => ?_
      cases first with
      | none => exact absurd hl id
      | some first =>
          obtain ⟨m, hm, rfl⟩ := hl
          exact List.mem_append_right _ hm.last_mem
  | deleteOld old =>
      cases old with
      | none => cases h
      | some old =>
          cases h
          exact .owned fun next l hl => by rw [show l = [old] from hl]; exact List.mem_cons_self ..
  | _ => cases h

theorem Shareable.not_free {threads : List (Thread α)} {a : Nat} (h : Shareable threads owner a) :
    owner a ≠ .free := by
  rcases h with h | h | ⟨j, thj, -, h, -⟩ <;> rw [h] <;> exact nofun

/-- A step goes wrong only at the null pointer that a `pop` of the empty stack chains. -/
theorem Owned.faults (h : Owned s owner) (hth : s.threads[i]? = some th) {p : Option Nat}
    (hfaults : Faults s th p) : p = none ∧ th.pc = .chainLoad none none .leavePop := by
  cases Pc.follows hfaults.access with
  | held hholds =>
      exact absurd ((h.alloc _).1 hfaults.nothing) (h.held i th _ hth hholds).not_free
  | @owned a hkeeps =>
      have hmine := h.mine hth (a := a) fun l => hkeeps _ l
      cases hmine.symm.trans ((h.alloc a).1 hfaults.nothing)
  | @null first after hpc =>
      refine ⟨rfl, ?_⟩
      obtain ⟨l, hl, -, -⟩ := (h.threads i th hth).keeps
      rw [hpc] at hl ⊢
      cases first with
      | some first => exact absurd hl id
      | none =>
          cases after with
          | leavePop => rfl
          | deleteOld old => exact absurd hl id

structure Inv (n : Nat) (s : State α) : Prop where
  size : s.threads.length = n
  owned : ∃ owner, Owned s owner
  fault : s.fault = none ∨ s.fault = some .null

theorem Moves.size (hmoves : Moves s i th t) : t.threads.length = s.threads.length := by
  cases hmoves <;> exact List.length_set

theorem Moves.fault_eq (hmoves : Moves s i th t) : t.fault = s.fault := by
  cases hmoves <;> rfl

theorem start_inv (n : Nat) : Inv n (start n : State α) :=
  ⟨List.length_replicate, ⟨_, start_owned n⟩, Or.inl rfl⟩

theorem step_inv {e : Event α} (hn : n ≤ unsignedMax) (h : Inv n s) (hstep : step s e = some t) :
    Inv n t := by
  obtain ⟨owner, howned⟩ := h.owned
  obtain ⟨hfault, i, th, hth, hmoves | ⟨-, p, hfaults, rfl⟩⟩ := step_moves hstep
  · have hsize : s.threads.length ≤ unsignedMax := by rw [h.size]; exact hn
    refine ⟨hmoves.size.trans h.size, hmoves.owned howned hth hsize, Or.inl ?_⟩
    rw [hmoves.fault_eq, hfault]
  · obtain ⟨rfl, -⟩ := howned.faults hth hfaults
    refine ⟨h.size, ⟨owner, ?_⟩, Or.inr rfl⟩
    exact ⟨howned.alloc, howned.stack, howned.pending, howned.threads, howned.inside, howned.held,
      howned.next_ok, howned.count⟩

theorem run_inv (hn : n ≤ unsignedMax) {es : List (Event α)} (hrun : Run step (start n) es s) :
    Inv n s :=
  hrun.invariant (fun _ _ _ hs hstep => step_inv hn hs hstep) (start_inv n)

/-! ## Memory safety -/

/-- Whatever any number of threads below 2^32 do, no pointer to a deleted node is followed and no node
is deleted twice.  The only null pointer that is followed is that of a `pop` that has found the stack
empty, and then that it is not the only one in `pop`: it chains its `old_head`. -/
theorem reclaim_safe (hn : n ≤ unsignedMax) {es : List (Event α)} (hrun : Run step (start n) es s) :
    (∀ a, s.fault ≠ some (.dangling a)) ∧
      ∀ e t, step s e = some t → (t.fault ≠ none ↔
        ∃ i spurious res, e = .move i spurious ∧
          s.threads[i]? = some ⟨.chainLoad none none .leavePop, res⟩) := by
  have hinv := run_inv hn hrun
  obtain ⟨owner, howned⟩ := hinv.owned
  refine ⟨?_, ?_⟩
  · intro a ha
    rcases hinv.fault with hnone | hnull
    · rw [hnone] at ha
      cases ha
    · rw [hnull] at ha
      cases ha
  · intro e t hstep
    constructor
    · intro hfault
      obtain ⟨hok, i, th, hth, hmoves | ⟨⟨spurious, rfl⟩, p, hfaults, rfl⟩⟩ := step_moves hstep
      · rw [hmoves.fault_eq] at hfault
        exact absurd hok hfault
      · obtain ⟨pc, res⟩ := th
        obtain ⟨-, rfl⟩ : p = none ∧ pc = _ := howned.faults hth hfaults
        exact ⟨i, spurious, res, rfl, hth⟩
    · rintro ⟨i, spurious, res, rfl, hth⟩
      have hok := (step_moves hstep).1
      have hmove : some (s.faultAt none) = some t := by
        simpa [step, hok, hth, move, State.access] using hstep
      cases hmove
      exact Option.some_ne_none _

/-- Two `pop`s of the empty stack at once: the first that gets to `try_reclaim` is not alone, and its
next step is undefined. -/
theorem reclaim_safe_empty :
    ∃ s : State Nat, Run step (start 2)
        [.callPop 0, .callPop 1, .move 0 false, .move 1 false, .move 0 false, .move 0 false,
          .move 0 false] s ∧
      (∀ a, s.fault ≠ some (.dangling a)) ∧
      ∃ t, step s (.move 0 false) = some t ∧ t.fault = some .null := by
  obtain ⟨s, hexec, t, hstep, hfault⟩ : ∃ s : State Nat, exec step (start 2)
      [.callPop 0, .callPop 1, .move 0 false, .move 1 false, .move 0 false, .move 0 false,
        .move 0 false] = some s ∧
      ∃ t, step s (.move 0 false) = some t ∧ t.fault = some .null := ⟨_, rfl, _, rfl, rfl⟩
  have hrun := run_of_exec hexec
  exact ⟨s, hrun, (reclaim_safe (by decide) hrun).1, t, hstep, hfault⟩

/-! ## The history, and where the nodes are -/

/-- In every run the effects, each at a successful compare-exchange or at a null read from `head`, are
those of a LIFO stack whose contents are the nodes from `head` on, although addresses are used again;
each thread's operations take one effect each and return what it says.  The nodes of the stack and the
pending ones are apart, and once no operation is under way there are no others: nothing is lost. -/
theorem reclaim_linearizable (hn : n ≤ unsignedMax) {es : List (Event α)}
    (hrun : Run step (start n) es s) :
    (∀ i, i < n → ∃ p, Follows i s.log p) ∧
      ∃ (st : List (Nat × α)) (pd : List Nat), Sequential (effects s.log) st ∧
        Linked (links s.heap) s.head (st.map Prod.fst) ∧
        (∀ x ∈ st, (s.heap x.1).bind Node.data = some x.2) ∧
        Linked (links s.heap) s.toBeDeleted pd ∧ (st.map Prod.fst ++ pd).Nodup ∧
        ((∀ th ∈ s.threads, th.pc = .idle) →
          ∀ a, s.heap a ≠ none ↔ a ∈ st.map Prod.fst ++ pd) := by
  have hinv := run_inv hn hrun
  obtain ⟨owner, howned⟩ := hinv.owned
  obtain ⟨st, hst⟩ := howned.stack
  obtain ⟨pd, hpd⟩ := howned.pending
  refine ⟨?_, st, pd, hst.sequential, hst.linked, hst.data, hpd.linked, ?_, ?_⟩
  · intro i hi
    have hlt : i < s.threads.length := by rw [hinv.size]; exact hi
    obtain ⟨p, -, hfollows⟩ := (howned.threads i _ (List.getElem?_eq_getElem hlt)).phase
    exact ⟨p, hfollows⟩
  · refine List.Nodup.append hst.linked.nodup hpd.linked.nodup ?_
    intro a hon hpend
    cases ((hst.owned a).2 hon).symm.trans ((hpd.owned a).2 hpend)
  · intro hidle a
    rw [Ne, howned.alloc a, List.mem_append, ← hst.owned a, ← hpd.owned a]
    cases ha : owner a with
    | free => simp
    | stack => simp
    | pending => simp
    | thread i =>
        -- an idle thread owns nothing
        have hlt := howned.inside i a ha
        obtain ⟨l, hl, -, hmine⟩ := (howned.threads i _ (List.getElem?_eq_getElem hlt)).keeps
        rw [hidle _ (List.getElem_mem hlt)] at hl
        obtain rfl : l = [] := hl
        exact absurd ((hmine a).1 ha) List.not_mem_nil

/-- A `push` has read the top; another thread pops and deletes that node, and pushes a new one, which
gets its address.  The compare-exchange of the first `push` finds the address and succeeds, rightly. -/
theorem reclaim_linearizable_reused :
    ∃ s : State Nat, Run step (start 2)
        [.callPush 0 5 0, .move 0 false, .move 0 false, .move 0 false, .callPush 1 7 1, .move 1 false,
         .callPop 0, .move 0 false, .move 0 false, .move 0 false, .move 0 false, .move 0 false,
         .move 0 false, .move 0 false, .move 0 false, .move 0 false, .move 0 false, .move 0 false,
         .callPush 0 6 0, .move 0 false, .move 0 false, .move 1 false] s ∧
      effects s.log = [.push (0, 5), .pop (0, 5), .push (0, 6), .push (1, 7)] ∧
      ∃ st, Sequential (effects s.log) st ∧
        Linked (links s.heap) s.head (st.map Prod.fst) := by
  have heval : (exec step (start 2)
      [.callPush 0 5 0, .move 0 false, .move 0 false, .move 0 false, .callPush 1 7 1, .move 1 false,
       .callPop 0, .move 0 false, .move 0 false, .move 0 false, .move 0 false, .move 0 false,
       .move 0 false, .move 0 false, .move 0 false, .move 0 false, .move 0 false, .move 0 false,
       .callPush 0 6 0, .move 0 false, .move 0 false, .move 1 false]).map
        (fun s => effects s.log) =
      some [Effect.push (0, 5), .pop (0, 5), .push (0, 6), .push (1, 7)] := by
    decide +kernel
  obtain ⟨s, hexec, heffects⟩ := Option.map_eq_some_iff.1 heval
  have hrun := run_of_exec hexec
  obtain ⟨-, st, -, hseq, hlinked, -⟩ := reclaim_linearizable (by decide) hrun
  exact ⟨s, hrun, heffects, st, hseq, hlinked⟩

/-! ## A thread that has the stack to itself -/

/-- Thread `i` makes `k` moves, and nobody else moves. -/
def Alone (s : State α) (i k : Nat) (t : State α) : Prop :=
  Run step s (List.replicate k (.move i false)) t

theorem Alone.refl (s : State α) (i : Nat) : Alone s i 0 s := Run.nil s

theorem Alone.cons {u : State α} {k : Nat} (hfault : s.fault = none) (hth : s.threads[i]? = some th)
    (hmove : move s i false th = some u) (h : Alone u i k t) : Alone s i (k + 1) t := by
  refine Run.cons ?_ h
  simp [step, hfault, hth, hmove]

theorem Alone.append {u : State α} {k m : Nat} (h₁ : Alone s i k u) (h₂ : Alone u i m t) :
    Alone s i (k + m) t := by
  rw [Alone, List.replicate_add]
  exact Run.append h₁ h₂

theorem goto_get {pc : Pc} {res : Option α} {acts : List (Act α)} (hi : i < s.threads.length) :
    (s.goto i pc res acts).threads[i]? = some ⟨pc, res⟩ :=
  List.getElem?_set_self hi

theorem goto_length (pc : Pc) (res : Option α) (acts : List (Act α)) (hi : i < s.threads.length) :
    i < (s.goto i pc res acts).threads.length := by
  simpa [State.goto] using hi

/-- `delete_nodes` deletes the whole list. -/
theorem deleteNodes_alone {old nodes : Option Nat} {res : Option α} {m : List Nat}
    (hlinked : Linked (links s.heap) nodes m) (hfault : s.fault = none)
    (hth : s.threads[i]? = some ⟨.deleteLoop old nodes, res⟩) :
    ∃ k t, Alone s i k t ∧ t.threads[i]? = some ⟨.deleteOld old, res⟩ ∧ t.fault = none ∧
      t.toBeDeleted = s.toBeDeleted ∧ t.threadsInPop = s.threadsInPop ∧ t.head = s.head ∧
      t.log = s.log ∧ (∀ a ∈ m, t.heap a = none) ∧ ∀ a, a ∉ m → t.heap a = s.heap a := by
  induction m generalizing s nodes with
  | nil =>
      cases hlinked
      have hi := (List.getElem?_eq_some_iff.1 hth).1
      exact ⟨1, s.goto i (.deleteOld old) res [], .cons hfault hth rfl (.refl _ i), goto_get hi, hfault,
        rfl, rfl, rfl, List.append_nil _, nofun, fun a _ => rfl⟩
  | cons a m ih =>
      have hnodup := List.nodup_cons.1 hlinked.nodup
      cases hlinked with
      | @cons _ nxt _ hnext hrest =>
          obtain ⟨node, hnode, hnxt⟩ := Option.map_eq_some_iff.1 hnext
          have hi := (List.getElem?_eq_some_iff.1 hth).1
          -- `nxt = nodes->next`, and then `delete nodes`
          have hread : move s i false ⟨.deleteLoop old (some a), res⟩ =
              some (s.goto i (.deleteNode old a nxt) res []) := by
            simp [move, State.access, hnode, hnxt]
          have hdelete : move (s.goto i (.deleteNode old a nxt) res []) i false
              ⟨.deleteNode old a nxt, res⟩ =
                some (((s.goto i (.deleteNode old a nxt) res []).write a none).goto i
                  (.deleteLoop old nxt) res []) := by
            have hstill : (s.goto i (.deleteNode old a nxt) res []).heap a = some node := hnode
            simp [move, State.access, hstill]
          obtain ⟨s', hs'⟩ : ∃ s', s' = ((s.goto i (.deleteNode old a nxt) res []).write a none).goto i
              (.deleteLoop old nxt) res [] := ⟨_, rfl⟩
          have hheap : s'.heap = Function.update s.heap a none := by rw [hs']; rfl
          have hrest' : Linked (links s'.heap) nxt m := by
            refine hrest.congr fun b hb => links_congr ?_
            rw [hheap]
            refine Function.update_of_ne ?_ _ _
            rintro rfl
            exact hnodup.1 hb
          have hth' : s'.threads[i]? = some ⟨.deleteLoop old nxt, res⟩ := by
            rw [hs']
            exact goto_get (s := (s.goto i (.deleteNode old a nxt) res []).write a none)
              (goto_length _ res [] hi)
          have hfault' : s'.fault = none := by rw [hs']; exact hfault
          rw [← hs'] at hdelete
          obtain ⟨k, t, hrun, hpc, htf, htd, htc, hthd, htl, hgone, hkept⟩ := ih hrest' hfault' hth'
          refine ⟨k + 1 + 1, t, .cons hfault hth hread (.cons hfault (goto_get hi) hdelete hrun), hpc,
            htf, ?_, ?_, ?_, ?_, ?_, ?_⟩
          · exact htd.trans (by rw [hs']; rfl)
          · exact htc.trans (by rw [hs']; rfl)
          · exact hthd.trans (by rw [hs']; rfl)
          · rw [htl, hs']
            simp [State.goto, State.write]
          · intro b hb
            rcases List.mem_cons.1 hb with rfl | hb
            · rw [hkept b hnodup.1, hheap]
              exact Function.update_self ..
            · exact hgone b hb
          · intro b hb
            rw [hkept b fun hm => hb (List.mem_cons_of_mem _ hm), hheap]
            refine Function.update_of_ne ?_ _ _
            rintro rfl
            exact hb (List.mem_cons_self ..)

/-- `try_recliam` by a thread that is alone in `pop`, on a node it may delete: this and all that is
pending is deleted. -/
theorem tryReclaim_alone {old : Option Nat} {res : Option α} {pd : List Nat}
    (hlinked : Linked (links s.heap) s.toBeDeleted pd) (hold : ∀ a ∈ old, s.heap a ≠ none ∧ a ∉ pd)
    (hfault : s.fault = none) (hone : s.threadsInPop = 1)
    (hth : s.threads[i]? = some ⟨.tryReclaim old, res⟩) :
    ∃ k t, Alone s i k t ∧ t.threads[i]? = some ⟨.idle, none⟩ ∧ t.fault = none ∧
      t.toBeDeleted = none ∧ t.threadsInPop = 0 ∧ t.head = s.head ∧
      t.log = s.log ++ [⟨i, .ret res⟩] ∧ (∀ a ∈ pd, t.heap a = none) ∧ (∀ a ∈ old, t.heap a = none) ∧
      ∀ a, a ∉ pd → a ∉ old → t.heap a = s.heap a := by
  have hi := (List.getElem?_eq_some_iff.1 hth).1
  have hlook : move s i false ⟨.tryReclaim old, res⟩ = some (s.goto i (.takePending old) res []) := by
    simp [move, hone]
  -- `s₁`: the pending nodes are the thread's; `s₂`: it is out of the count, and the last one
  obtain ⟨s₁, hs₁⟩ : ∃ s₁, s₁ = State.goto { s.goto i (.takePending old) res [] with
      toBeDeleted := none } i (.leaveAlone old s.toBeDeleted) res [] := ⟨_, rfl⟩
  obtain ⟨s₂, hs₂⟩ : ∃ s₂, s₂ = s₁.decrement.goto i (.deleteLoop old s.toBeDeleted) res [] := ⟨_, rfl⟩
  have hth₁ : s₁.threads[i]? = some ⟨.leaveAlone old s.toBeDeleted, res⟩ := by
    rw [hs₁]
    exact goto_get (s := { s.goto i (.takePending old) res [] with toBeDeleted := none })
      (goto_length _ res [] hi)
  have hone₁ : s₁.threadsInPop = 1 := by rw [hs₁]; exact hone
  have hzero : s₁.decrement.threadsInPop = 0 := by simp [State.decrement, hone₁]
  have hleave : move s₁ i false ⟨.leaveAlone old s.toBeDeleted, res⟩ = some s₂ := by
    rw [hs₂]
    simp [move, hzero]
  have hfault₁ : s₁.fault = none := by rw [hs₁]; exact hfault
  have hth₂ : s₂.threads[i]? = some ⟨.deleteLoop old s.toBeDeleted, res⟩ := by
    rw [hs₂]
    exact goto_get (s := s₁.decrement) (List.getElem?_eq_some_iff.1 hth₁).1
  have hheap₂ : s₂.heap = s.heap := by rw [hs₂, hs₁]; rfl
  obtain ⟨k, u, hdelete, hthu, hfu, htu, hcu, hhu, hlu, hgone, hkept⟩ :=
    deleteNodes_alone (s := s₂) (by rw [hheap₂]; exact hlinked) (by rw [hs₂]; exact hfault₁) hth₂
  have htake : move (s.goto i (.takePending old) res []) i false ⟨.takePending old, res⟩ = some s₁ := by
    rw [hs₁]
    rfl
  have hbefore : Alone s i (1 + 1 + 1) s₂ :=
    .cons hfault hth hlook (.cons hfault (goto_get hi) htake (.cons hfault₁ hth₁ hleave (.refl _ i)))
  have hlu' : u.log = s.log := by
    rw [hlu, hs₂, hs₁]
    simp [State.goto, State.decrement]
  have hiu := (List.getElem?_eq_some_iff.1 hthu).1
  have hreturn : ∀ v : State α, move v i false ⟨.popReturn, res⟩ = some (v.goto i .idle none [.ret res]) :=
    fun _ => rfl
  -- `delete old_head`, and the return
  cases old with
  | none =>
      have hdel : move u i false ⟨.deleteOld none, res⟩ = some (u.goto i .popReturn res []) := rfl
      have hafter : Alone u i (1 + 1) ((u.goto i .popReturn res []).goto i .idle none [.ret res]) :=
        .cons hfu hthu hdel (.cons hfu (goto_get hiu) (hreturn _) (.refl _ i))
      refine ⟨1 + 1 + 1 + (k + (1 + 1)), (u.goto i .popReturn res []).goto i .idle none [.ret res],
        hbefore.append (hdelete.append hafter), goto_get (goto_length _ res [] hiu), hfu, ?_, ?_, ?_, ?_, hgone,
        fun a ha => absurd ha (Option.not_mem_none a), ?_⟩
      · exact htu.trans (by rw [hs₂, hs₁]; rfl)
      · exact hcu.trans (by rw [hs₂]; exact hzero)
      · exact hhu.trans (by rw [hs₂, hs₁]; rfl)
      · simp [State.goto, hlu']
      · intro a hpd _
        exact (hkept a hpd).trans (congrFun hheap₂ a)
  | some old =>
      obtain ⟨hsome, hout⟩ := hold old rfl
      obtain ⟨node, hnode⟩ := Option.ne_none_iff_exists'.1 hsome
      have hnodeu : u.heap old = some node := by rw [hkept old hout, hheap₂, hnode]
      have hdel : move u i false ⟨.deleteOld (some old), res⟩ =
          some ((u.write old none).goto i .popReturn res []) := by
        simp [move, State.access, hnodeu]
      have hafter : Alone u i (1 + 1)
          (((u.write old none).goto i .popReturn res []).goto i .idle none [.ret res]) :=
        .cons hfu hthu hdel
          (.cons hfu (goto_get (s := u.write old none) hiu) (hreturn _) (.refl _ i))
      refine ⟨1 + 1 + 1 + (k + (1 + 1)),
        ((u.write old none).goto i .popReturn res []).goto i .idle none [.ret res],
        hbefore.append (hdelete.append hafter),
        goto_get (goto_length (s := u.write old none) _ res [] hiu), hfu, ?_, ?_, ?_, ?_, ?_, ?_, ?_⟩
      · exact htu.trans (by rw [hs₂, hs₁]; rfl)
      · exact hcu.trans (by rw [hs₂]; exact hzero)
      · exact hhu.trans (by rw [hs₂, hs₁]; rfl)
      · simp [State.goto, State.write, hlu']
      · intro a hpd
        refine (Function.update_of_ne ?_ _ _).trans (hgone a hpd)
        rintro rfl
        exact hout hpd
      · rintro a ⟨⟩
        exact Function.update_self ..
      · intro a hpd hne
        refine (Function.update_of_ne ?_ _ _).trans ((hkept a hpd).trans (congrFun hheap₂ a))
        rintro rfl
        exact hne rfl

/-- `pop` up to the call of `try_reclaim`, on an empty stack. -/
theorem popEmpty_alone {u : State α} (hfault : u.fault = none)
    (hth : u.threads[i]? = some ⟨.popLoad, none⟩) (hhead : u.head = none) :
    ∃ v, Alone u i (1 + 1) v ∧ v.threads[i]? = some ⟨.tryReclaim none, none⟩ ∧ v.fault = none ∧
      v.heap = u.heap ∧ v.toBeDeleted = u.toBeDeleted ∧ v.threadsInPop = u.threadsInPop ∧
      v.head = none ∧ v.log = u.log ++ [⟨i, .effect .popEmpty⟩] := by
  have hi := (List.getElem?_eq_some_iff.1 hth).1
  have hload : move u i false ⟨.popLoad, none⟩ =
      some (u.goto i (.popLoop none) none [.effect .popEmpty]) := by
    simp [move, State.gotHead, hhead]
  have hleave : move (u.goto i (.popLoop none) none [.effect .popEmpty]) i false ⟨.popLoop none, none⟩ =
      some ((u.goto i (.popLoop none) none [.effect .popEmpty]).goto i (.tryReclaim none) none []) := rfl
  refine ⟨_, .cons hfault hth hload (.cons hfault (goto_get hi) hleave (.refl _ i)),
    goto_get (goto_length _ none _ hi), hfault, rfl, rfl, rfl, hhead, ?_⟩
  simp [State.goto]

/-- The same with a node on top: it is the thread's, and its data is the result. -/
theorem popTop_alone {u : State α} (hfault : u.fault = none)
    (hth : u.threads[i]? = some ⟨.popLoad, none⟩) {top : Nat} {node : Node α} {data : α}
    (hhead : u.head = some top) (hnode : u.heap top = some node) (hdata : node.data = some data) :
    ∃ v, Alone u i (1 + 1 + 1 + 1) v ∧ v.threads[i]? = some ⟨.tryReclaim (some top), some data⟩ ∧
      v.fault = none ∧ v.heap = Function.update u.heap top (some { node with data := none }) ∧
      v.toBeDeleted = u.toBeDeleted ∧ v.threadsInPop = u.threadsInPop ∧ v.head = node.next ∧
      v.log = u.log ++ [⟨i, .effect (.pop (top, data))⟩] := by
  have hi := (List.getElem?_eq_some_iff.1 hth).1
  obtain ⟨v₁, hv₁⟩ : ∃ v₁, v₁ = u.goto i (.popLoop (some top)) none [] := ⟨_, rfl⟩
  obtain ⟨v₂, hv₂⟩ : ∃ v₂, v₂ = v₁.goto i (.popCas top node.next) none [] := ⟨_, rfl⟩
  obtain ⟨v₃, hv₃⟩ : ∃ v₃, v₃ = State.goto { v₂ with head := node.next } i (.swapData top) none
      [.effect (.pop (top, data))] := ⟨_, rfl⟩
  have hnode₁ : v₁.heap top = some node := by rw [hv₁]; exact hnode
  have hnode₂ : v₂.heap top = some node := by rw [hv₂]; exact hnode₁
  have hnode₃ : v₃.heap top = some node := by rw [hv₃]; exact hnode₂
  have hhead₂ : v₂.head = some top := by rw [hv₂, hv₁]; exact hhead
  have hi₁ : i < v₁.threads.length := by rw [hv₁]; exact goto_length _ _ _ hi
  have hi₂ : i < v₂.threads.length := by rw [hv₂]; exact goto_length _ _ _ hi₁
  have hi₃ : i < v₃.threads.length := by
    rw [hv₃]
    exact goto_length (s := { v₂ with head := node.next }) _ _ _ hi₂
  have hload : move u i false ⟨.popLoad, none⟩ = some v₁ := by
    simp [move, State.gotHead, hhead, hv₁]
  have hread : move v₁ i false ⟨.popLoop (some top), none⟩ = some v₂ := by
    simp [move, State.access, hnode₁, hv₂]
  have hcas : move v₂ i false ⟨.popCas top node.next, none⟩ = some v₃ := by
    simp [move, hhead₂, hnode₂, effectOn, hdata, hv₃]
  have hswap : move v₃ i false ⟨.swapData top, none⟩ =
      some ((v₃.write top (some { node with data := none })).goto i (.tryReclaim (some top))
        (some data) []) := by
    simp [move, State.access, hnode₃, hdata]
  have hth₁ : v₁.threads[i]? = some ⟨.popLoop (some top), none⟩ := by rw [hv₁]; exact goto_get hi
  have hth₂ : v₂.threads[i]? = some ⟨.popCas top node.next, none⟩ := by rw [hv₂]; exact goto_get hi₁
  have hth₃ : v₃.threads[i]? = some ⟨.swapData top, none⟩ := by
    rw [hv₃]
    exact goto_get (s := { v₂ with head := node.next }) hi₂
  have hfault₁ : v₁.fault = none := by rw [hv₁]; exact hfault
  have hfault₂ : v₂.fault = none := by rw [hv₂]; exact hfault₁
  have hfault₃ : v₃.fault = none := by rw [hv₃]; exact hfault₂
  have hheap₃ : v₃.heap = u.heap := by rw [hv₃, hv₂, hv₁]; rfl
  have hlog₃ : v₃.log = u.log ++ [⟨i, .effect (.pop (top, data))⟩] := by
    rw [hv₃, hv₂, hv₁]
    simp [State.goto]
  refine ⟨_, .cons hfault hth hload (.cons hfault₁ hth₁ hread (.cons hfault₂ hth₂ hcas
    (.cons hfault₃ hth₃ hswap (.refl _ i)))),
    goto_get (s := v₃.write top (some { node with data := none })) hi₃, hfault₃, ?_, ?_, ?_, ?_, ?_⟩
  · rw [← hheap₃]
    rfl
  · exact (by rw [hv₃, hv₂, hv₁]; rfl : v₃.toBeDeleted = u.toBeDeleted)
  · exact (by rw [hv₃, hv₂, hv₁]; rfl : v₃.threadsInPop = u.threadsInPop)
  · exact (by rw [hv₃]; rfl : v₃.head = node.next)
  · exact (List.append_nil _).trans hlog₃

/-- A `pop` that no other thread is in `pop` with runs to its end in finitely many steps of its own.  It
returns the data of the top, or null from an empty stack, and when it returns its node and all that was
pending is deleted, and nothing else is. -/
theorem pop_alone_reclaims (hn : n ≤ unsignedMax) {es : List (Event α)}
    (hrun : Run step (start n) es s) (hfault : s.fault = none) {res : Option α}
    (hth : s.threads[i]? = some ⟨.idle, res⟩) (hcount : s.threadsInPop = 0) :
    ∃ (k : Nat) (t : State α) (pd : List Nat),
      Run step s (.callPop i :: List.replicate k (.move i false)) t ∧
        t.threads[i]? = some ⟨.idle, none⟩ ∧ t.fault = none ∧ t.toBeDeleted = none ∧
        t.threadsInPop = 0 ∧ Linked (links s.heap) s.toBeDeleted pd ∧
        (∀ a, t.heap a = if a ∈ pd ∨ s.head = some a then none else s.heap a) ∧
        (s.head = none ∧ t.head = none ∧
            t.log = s.log ++ [⟨i, .call .pop⟩, ⟨i, .effect .popEmpty⟩, ⟨i, .ret none⟩] ∨
          ∃ top node data, s.head = some top ∧ s.heap top = some node ∧ node.data = some data ∧
            t.head = node.next ∧
            t.log = s.log ++
              [⟨i, .call .pop⟩, ⟨i, .effect (.pop (top, data))⟩, ⟨i, .ret (some data)⟩]) := by
  obtain ⟨owner, howned⟩ := (run_inv hn hrun).owned
  obtain ⟨st, hst⟩ := howned.stack
  obtain ⟨pd, hpd⟩ := howned.pending
  have hi := (List.getElem?_eq_some_iff.1 hth).1
  -- `u`: the thread is counted, and about to load `head`
  obtain ⟨u, hu⟩ : ∃ u, u = (s.goto i .popEnter none [.call .pop]).increment.goto i .popLoad none [] :=
    ⟨_, rfl⟩
  have hcall : step s (.callPop i) = some (s.goto i .popEnter none [.call .pop]) := by
    simp [step, hfault, hth]
  have henter : move (s.goto i .popEnter none [.call .pop]) i false ⟨.popEnter, none⟩ = some u := by
    rw [hu]
    rfl
  have hfaultu : u.fault = none := by rw [hu]; exact hfault
  have hthu : u.threads[i]? = some ⟨.popLoad, none⟩ := by
    rw [hu]
    exact goto_get (s := (s.goto i .popEnter none [.call .pop]).increment)
      (goto_length .popEnter none [.call .pop] hi)
  have hcountu : u.threadsInPop = 1 := by
    have hzero : (s.goto i .popEnter none [.call .pop]).threadsInPop = 0 := hcount
    have hincrement : (s.goto i .popEnter none [.call .pop]).increment.threadsInPop = 1 := by
      simp [State.increment, hzero, unsignedMax]
    rw [hu]
    exact hincrement
  have hheapu : u.heap = s.heap := by rw [hu]; rfl
  have htdu : u.toBeDeleted = s.toBeDeleted := by rw [hu]; rfl
  have hheadu : u.head = s.head := by rw [hu]; rfl
  have hlogu : u.log = s.log ++ [⟨i, .call .pop⟩] := by
    rw [hu]
    simp [State.goto, State.increment]
  have hbegin : ∀ {k : Nat} {t : State α}, Alone u i k t →
      Run step s (.callPop i :: List.replicate (k + 1) (.move i false)) t := by
    intro k t hrest
    exact Run.cons hcall (Alone.cons hfault (goto_get hi) henter hrest)
  cases hhead : s.head with
  | none =>
      obtain ⟨v, hv, hthv, hfv, hheapv, htdv, hcv, hhv, hlv⟩ :=
        popEmpty_alone hfaultu hthu (hheadu.trans hhead)
      have hlinked : Linked (links v.heap) v.toBeDeleted pd := by
        rw [hheapv, hheapu, htdv, htdu]
        exact hpd.linked
      obtain ⟨k, t, ht, htht, hft, htdt, hct, hht, hlt, hgone, -, hkept⟩ :=
        tryReclaim_alone hlinked (by simp) hfv (hcv.trans hcountu) hthv
      refine ⟨_, t, pd, hbegin (hv.append ht), htht, hft, htdt, hct, hpd.linked, ?_, Or.inl ⟨rfl, ?_, ?_⟩⟩
      · intro a
        by_cases ha : a ∈ pd
        · rw [if_pos (Or.inl ha), hgone a ha]
        · rw [if_neg (by simpa using ha), hkept a ha (by simp), hheapv, hheapu]
      · exact hht.trans hhv
      · rw [hlt, hlv, hlogu]
        simp
  | some top =>
      have hlinked := hst.linked
      rw [hhead] at hlinked
      cases st with
      | nil => cases hlinked
      | cons x st =>
          obtain ⟨a, data⟩ := x
          cases hlinked with
          | cons hnext hrest =>
              obtain ⟨node, hnode, hdata⟩ :=
                Option.bind_eq_some_iff.1 (hst.data (a, data) (List.mem_cons_self ..))
              have hout : a ∉ pd := by
                intro hpend
                cases ((hpd.owned a).2 hpend).symm.trans ((hst.owned a).2 (by simp))
              obtain ⟨v, hv, hthv, hfv, hheapv, htdv, hcv, hhv, hlv⟩ :=
                popTop_alone hfaultu hthu (hheadu.trans hhead) (by rw [hheapu]; exact hnode) hdata
              have hother : ∀ b, b ≠ a → v.heap b = s.heap b := by
                intro b hb
                rw [hheapv, hheapu]
                exact Function.update_of_ne hb _ _
              have hlinkedv : Linked (links v.heap) v.toBeDeleted pd := by
                rw [htdv, htdu]
                refine hpd.linked.congr fun b hb => links_congr (hother b ?_)
                rintro rfl
                exact hout hb
              have hallocated : ∀ b ∈ some a, v.heap b ≠ none ∧ b ∉ pd := by
                rintro b ⟨⟩
                refine ⟨?_, hout⟩
                rw [hheapv, Function.update_self]
                exact Option.some_ne_none _
              obtain ⟨k, t, ht, htht, hft, htdt, hct, hht, hlt, hgone, hold, hkept⟩ :=
                tryReclaim_alone hlinkedv hallocated hfv (hcv.trans hcountu) hthv
              refine ⟨_, t, pd, hbegin (hv.append ht), htht, hft, htdt, hct, hpd.linked, ?_,
                Or.inr ⟨a, node, data, rfl, hnode, hdata, ?_, ?_⟩⟩
              · intro b
                by_cases hb : b ∈ pd
                · rw [if_pos (Or.inl hb), hgone b hb]
                · by_cases hba : a = b
                  · rw [if_pos (Or.inr (congrArg some hba)), hold b (congrArg some hba)]
                  · have hne : ¬ some a = some b := fun h => hba (Option.some.inj h)
                    rw [if_neg (not_or.2 ⟨hb, hne⟩), hkept b hb hne, hother b (Ne.symm hba)]
              · exact hht.trans hhv
              · rw [hlt, hlv, hlogu]
                simp

/-- Two threads pop at once, and each leaves its node pending; the next `pop` finds the stack empty and
deletes both. -/
theorem pop_alone_reclaims_pending :
    ∃ (s t : State Nat) (k : Nat), s.toBeDeleted = some 0 ∧
      Run step s (.callPop 0 :: List.replicate k (.move 0 false)) t ∧ t.toBeDeleted = none ∧
      t.heap 0 = none := by
  have heval : (exec step (start 2)
      [.callPush 0 5 0, .move 0 false, .move 0 false, .move 0 false, .callPush 0 6 1, .move 0 false,
       .move 0 false, .move 0 false, .callPop 0, .move 0 false, .callPop 1, .move 1 false,
       .move 0 false, .move 0 false, .move 0 false, .move 0 false, .move 1 false, .move 1 false,
       .move 1 false, .move 1 false, .move 0 false, .move 1 false, .move 0 false, .move 0 false,
       .move 0 false, .move 0 false, .move 1 false, .move 1 false, .move 1 false, .move 1 false]).map
        (fun s => (s.fault, s.threads[0]?, s.threadsInPop, s.toBeDeleted)) =
      some (none, some ⟨.idle, none⟩, 0, some 0) := by
    decide +kernel
  obtain ⟨s, hexec, hs⟩ := Option.map_eq_some_iff.1 heval
  simp only [Prod.mk.injEq] at hs
  obtain ⟨hfault, hth, hcount, hpending⟩ := hs
  obtain ⟨k, t, pd, hrun, -, -, htd, -, hpd, hheap, -⟩ :=
    pop_alone_reclaims (by decide) (run_of_exec hexec) hfault hth hcount
  refine ⟨s, t, k, hpending, hrun, htd, ?_⟩
  rw [hpending] at hpd
  cases hpd
  rw [hheap 0, if_pos (Or.inl (List.mem_cons_self ..))]

end LockFreeStackReclaim

end CppConcurrency
end MyCppCode
