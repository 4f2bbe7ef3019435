import Mathlib.Data.List.Forall2
import MyCppCode.MyServer.EventLoop

/-!
# EventLoopOrder — functors run once each, in the order in which they were pushed

The functors ever pushed are, in this order: those executed, those swapped out and not started, those
pending.  With each push the number of the last batch is recorded and with each execution the number
of its own, so the same decomposition also says that a functor pushed while a batch runs waits for a
later one.
-/

namespace MyCppCode
namespace MyServer
namespace EventLoop

open Foundation

universe u

variable {F : Type u} {s t : State F} {e : Event F}

/-- A push and the execution of the pushed functor, in a later batch. -/
def RunsLater (push exe : F × Nat) : Prop :=
  push.1 = exe.1 ∧ push.2 < exe.2

theorem map_fst_of_runsLater {pushes exes : List (F × Nat)} (h : List.Forall₂ RunsLater pushes exes) :
    pushes.map Prod.fst = exes.map Prod.fst := by
  induction h with
  | nil => rfl
  | cons hhead _ ih => simp [hhead.1, ih]

/-- The pushes split into those executed, those of the running batch and those pending. -/
structure OrderInv (s : State F) : Prop where
  split : ∃ done taken waiting,
    s.pushed = done ++ taken ++ waiting ∧
    List.Forall₂ RunsLater done s.executed ∧
    List.Forall₂ (fun p f => p.1 = f ∧ p.2 < s.batch) taken s.functors ∧
    List.Forall₂ (fun p f => p.1 = f ∧ p.2 ≤ s.batch) waiting s.pendingFunctors
  /-- Nothing is swapped out between two runs of `doPendingFunctors`. -/
  drained : s.pc ≠ .runFunctors → s.functors = []

theorem Entered.orderInv (h : Entered s) : OrderInv s where
  split := by
    refine ⟨[], [], s.pushed, rfl, ?_, ?_, ?_⟩
    · rw [h.executed]
      exact List.Forall₂.nil
    · rw [h.functors]
      exact List.Forall₂.nil
    · rw [h.pushed, List.forall₂_map_left_iff]
      exact List.forall₂_same.2 (fun f _ => ⟨rfl, Nat.le_refl _⟩)
  drained _ := h.functors

/-- A step that leaves the functor lists, the batch number and the histories alone. -/
theorem OrderInv.move (hinv : OrderInv s) (hpushed : t.pushed = s.pushed)
    (hexecuted : t.executed = s.executed) (hfunctors : t.functors = s.functors)
    (hpending : t.pendingFunctors = s.pendingFunctors) (hbatch : t.batch = s.batch)
    (hpc : t.pc ≠ .runFunctors → s.pc ≠ .runFunctors ∨ s.functors = []) : OrderInv t := by
  refine ⟨?_, fun hne => ?_⟩
  · rw [hpushed, hexecuted, hfunctors, hpending, hbatch]
    exact hinv.split
  · rw [hfunctors]
    rcases hpc hne with h | h
    · exact hinv.drained h
    · exact h

theorem OrderInv.push (hinv : OrderInv s) {th : Thread} {f : F}
    (h : step s (.push th f) = some t) : OrderInv t := by
  simp only [step, Option.ite_none_right_eq_some, Option.some.injEq] at h
  obtain ⟨-, rfl⟩ := h
  obtain ⟨done, taken, waiting, hsplit, hdone, htaken, hwaiting⟩ := hinv.split
  refine ⟨⟨done, taken, waiting ++ [(f, s.batch)], ?_, hdone, htaken, ?_⟩, hinv.drained⟩
  · simp [hsplit]
  · exact List.rel_append hwaiting (List.Forall₂.cons ⟨rfl, Nat.le_refl _⟩ List.Forall₂.nil)

theorem OrderInv.swap (hinv : OrderInv s) (h : step s .swap = some t) : OrderInv t := by
  simp only [step, Option.ite_none_right_eq_some, Option.some.injEq] at h
  obtain ⟨⟨hpc, -⟩, rfl⟩ := h
  obtain ⟨done, taken, waiting, hsplit, hdone, htaken, hwaiting⟩ := hinv.split
  -- The previous batch is over, so the pending functors follow the executed ones directly.
  have hnil : taken = [] := by
    rw [hinv.drained (by simp [hpc])] at htaken
    cases htaken
    rfl
  subst hnil
  refine ⟨⟨done, waiting, [], by simpa using hsplit, hdone, ?_, List.Forall₂.nil⟩, by simp⟩
  exact hwaiting.imp (fun p f hp => ⟨hp.1, Nat.lt_succ_of_le hp.2⟩)

theorem OrderInv.runFunctor (hinv : OrderInv s) (h : step s .runFunctor = some t) :
    OrderInv t := by
  simp only [step] at h
  split at h
  · cases h
  · rename_i f rest hf
    simp only [Option.ite_none_right_eq_some, Option.some.injEq] at h
    obtain ⟨⟨⟨hpc, -⟩, -⟩, rfl⟩ := h
    obtain ⟨done, taken, waiting, hsplit, hdone, htaken, hwaiting⟩ := hinv.split
    rw [hf] at htaken
    -- The head of the batch becomes the last functor executed.
    cases htaken with
    | cons hhead hrest =>
        rename_i p taken'
        refine ⟨⟨done ++ [p], taken', waiting, ?_, ?_, hrest, hwaiting⟩, ?_⟩
        · simp [hsplit]
        · exact List.rel_append hdone (List.Forall₂.cons hhead List.Forall₂.nil)
        · intro hne
          exact absurd hpc hne

theorem orderInv_step (hinv : OrderInv s) (h : step s e = some t) : OrderInv t := by
  cases e with
  | push th f => exact hinv.push h
  | swap => exact hinv.swap h
  | runFunctor => exact hinv.runFunctor h
  | testWakeup th =>
      simp only [step, Option.ite_none_right_eq_some] at h
      obtain ⟨-, h⟩ := h
      split at h <;> cases h <;> exact hinv.move rfl rfl rfl rfl rfl Or.inl
  | storeQuit th =>
      simp only [step, Option.ite_none_right_eq_some, Option.some.injEq] at h
      obtain ⟨-, rfl⟩ := h
      exact hinv.move rfl rfl rfl rfl rfl Or.inl
  | testQuit th =>
      simp only [step, Option.ite_none_right_eq_some] at h
      obtain ⟨-, h⟩ := h
      split at h <;> cases h <;> exact hinv.move rfl rfl rfl rfl rfl Or.inl
  | wakeup th =>
      simp only [step] at h
      split at h
      · cases h
        exact hinv.move rfl rfl rfl rfl rfl Or.inl
      · simp only [Option.ite_none_right_eq_some, Option.some.injEq] at h
        obtain ⟨-, rfl⟩ := h
        exact hinv.move rfl rfl rfl rfl rfl Or.inl
  | clearCalling =>
      simp only [step, Option.ite_none_right_eq_some, Option.some.injEq] at h
      obtain ⟨⟨-, -, hnil⟩, rfl⟩ := h
      exact hinv.move rfl rfl rfl rfl rfl (fun _ => Or.inr hnil)
  | functorDone =>
      simp only [step, Option.ite_none_right_eq_some, Option.some.injEq] at h
      obtain ⟨-, rfl⟩ := h
      exact hinv.move rfl rfl rfl rfl rfl Or.inl
  | _ =>
      simp only [step, Option.ite_none_right_eq_some, Option.some.injEq] at h
      obtain ⟨⟨hpc, -⟩, rfl⟩ := h
      exact hinv.move rfl rfl rfl rfl rfl (fun _ => Or.inl (by simp [hpc]))

/-- What `doPendingFunctors` has executed is, at all times, a prefix of what was pushed under the
mutex, and each functor runs in a batch swapped out after its push. -/
theorem executed_isPrefix_pushed (s₀ s : State F) (es : List (Event F)) (h₀ : Entered s₀)
    (hrun : Run step s₀ es s) :
    s.executed.map Prod.fst <+: s.pushed.map Prod.fst ∧
      ∀ i (hi : i < s.executed.length) (hi' : i < s.pushed.length),
        (s.pushed.get ⟨i, hi'⟩).2 < (s.executed.get ⟨i, hi⟩).2 := by
  have hinv : OrderInv s := Run.invariant (fun _ _ _ => orderInv_step) hrun h₀.orderInv
  obtain ⟨done, taken, waiting, hsplit, hdone, -, -⟩ := hinv.split
  have hlen : done.length = s.executed.length := hdone.length_eq
  constructor
  · rw [hsplit, ← map_fst_of_runsLater hdone, List.append_assoc, List.map_append]
    exact List.prefix_append _ _
  · intro i hi hi'
    have hget : s.pushed.get ⟨i, hi'⟩ = done.get ⟨i, by omega⟩ := by
      simp only [List.get_eq_getElem, hsplit, List.append_assoc]
      exact List.getElem_append_left (by omega)
    rw [hget]
    exact (List.Forall₂.get hdone (by omega) hi).2

/-- Functor 1 is pushed by another thread and, while it runs, pushes functor 2. -/
theorem executed_isPrefix_pushed_nested :
    ∃ es s, Run step (constructed : State Nat) es s ∧ s.executed = [(1, 1)] ∧
      s.pushed = [(1, 0), (2, 1)] ∧ s.executed.map Prod.fst <+: s.pushed.map Prod.fst := by
  let es : List (Event Nat) :=
    [.enter, .resetQuit, .whileTest, .push (.other 0) 1, .testWakeup (.other 0), .wakeup (.other 0),
      .pollReturn, .handleRead, .endDispatch, .setCalling, .swap, .runFunctor, .push .loop 2]
  obtain ⟨s, hs, hexecuted, hpushed⟩ : ∃ s, exec step (constructed : State Nat) es = some s ∧
      s.executed = [(1, 1)] ∧ s.pushed = [(1, 0), (2, 1)] := ⟨_, rfl, rfl, rfl⟩
  have hrun := run_of_exec hs
  exact ⟨es, s, hrun, hexecuted, hpushed,
    (executed_isPrefix_pushed _ s es entered_constructed hrun).1⟩

end EventLoop
end MyServer
end MyCppCode
