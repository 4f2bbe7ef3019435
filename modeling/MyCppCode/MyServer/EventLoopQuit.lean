import MyCppCode.MyServer.EventLoop

/-!
# EventLoopQuit — when a quit leaves the loop asleep

`quit()` writes the eventfd if it is called *on* the loop thread, where the loop is awake anyway, and
not if it is called from another thread.  A quit is therefore left waiting exactly when its store of
`m_quit` finds the loop thread past its while test, in `poll`, with nothing else to wake it.
-/

namespace MyCppCode
namespace MyServer
namespace EventLoop

open Foundation

universe u

variable {F : Type u} {s t : State F} {e : Event F}

/-- `quit()` has returned and the loop thread sleeps in `poll` with nothing to wake it. -/
def LeftWaiting (s : State F) : Prop :=
  s.quitReturned = true ∧ s.pc = .poll ∧ s.wakeupCounter = 0

/-- `loop()` has entered its while loop. -/
def InWhile : LoopPc → Prop
  | .start | .resetQuit => False
  | _ => True

/-! ## What a step does to the flag, the location and the counter -/

/-- Either the loop thread stays where it is, and the flag is at most set and the eventfd at most
written; or it makes one of the moves of `loop()`. -/
theorem step_flag_pc (h : step s e = some t) :
    (t.pc = s.pc ∧ (t.quit = true ∨ t.quit = s.quit) ∧
      (s.pc = .poll → s.wakeupCounter ≤ t.wakeupCounter)) ∨
    (s.pc = .start ∧ t.pc = .resetQuit ∧ t.quit = s.quit) ∨
    (s.pc = .resetQuit ∧ t.pc = .whileTest ∧ t.quit = false) ∨
    (s.pc = .whileTest ∧ t.quit = s.quit ∧ t.pc = if s.quit then .leave else .poll) ∨
    (InWhile s.pc ∧ t.quit = s.quit ∧ InWhile t.pc ∧ t.pc ≠ .poll) := by
  cases e with
  | push th f =>
      simp only [step, Option.ite_none_right_eq_some, Option.some.injEq] at h
      obtain ⟨-, rfl⟩ := h
      exact Or.inl ⟨rfl, Or.inr rfl, fun _ => Nat.le_refl _⟩
  | testWakeup th =>
      simp only [step, Option.ite_none_right_eq_some] at h
      obtain ⟨-, h⟩ := h
      split at h <;> cases h <;> exact Or.inl ⟨rfl, Or.inr rfl, fun _ => Nat.le_refl _⟩
  | storeQuit th =>
      simp only [step, Option.ite_none_right_eq_some, Option.some.injEq] at h
      obtain ⟨-, rfl⟩ := h
      exact Or.inl ⟨rfl, Or.inl rfl, fun _ => Nat.le_refl _⟩
  | testQuit th =>
      simp only [step, Option.ite_none_right_eq_some] at h
      obtain ⟨-, h⟩ := h
      split at h <;> cases h <;> exact Or.inl ⟨rfl, Or.inr rfl, fun _ => Nat.le_refl _⟩
  | wakeup th =>
      simp only [step] at h
      split at h
      · cases h
        exact Or.inl ⟨rfl, Or.inr rfl, fun _ => le_eventfdWrite _⟩
      · simp only [Option.ite_none_right_eq_some, Option.some.injEq] at h
        obtain ⟨-, rfl⟩ := h
        exact Or.inl ⟨rfl, Or.inr rfl, fun _ => le_eventfdWrite _⟩
  | enter =>
      simp only [step, Option.ite_none_right_eq_some, Option.some.injEq] at h
      obtain ⟨⟨hpc, -⟩, rfl⟩ := h
      exact Or.inr (Or.inl ⟨hpc, rfl, rfl⟩)
  | resetQuit =>
      simp only [step, Option.ite_none_right_eq_some, Option.some.injEq] at h
      obtain ⟨⟨hpc, -⟩, rfl⟩ := h
      exact Or.inr (Or.inr (Or.inl ⟨hpc, rfl, rfl⟩))
  | whileTest =>
      simp only [step, Option.ite_none_right_eq_some, Option.some.injEq] at h
      obtain ⟨⟨hpc, -⟩, rfl⟩ := h
      exact Or.inr (Or.inr (Or.inr (Or.inl ⟨hpc, rfl, rfl⟩)))
  | handleRead =>
      simp only [step, Option.ite_none_right_eq_some, Option.some.injEq] at h
      obtain ⟨⟨hpc, -⟩, rfl⟩ := h
      exact Or.inl ⟨rfl, Or.inr rfl, by simp [hpc]⟩
  | runFunctor =>
      simp only [step] at h
      split at h
      · cases h
      · simp only [Option.ite_none_right_eq_some, Option.some.injEq] at h
        obtain ⟨-, rfl⟩ := h
        exact Or.inl ⟨rfl, Or.inr rfl, fun _ => Nat.le_refl _⟩
  | functorDone =>
      simp only [step, Option.ite_none_right_eq_some, Option.some.injEq] at h
      obtain ⟨-, rfl⟩ := h
      exact Or.inl ⟨rfl, Or.inr rfl, fun _ => Nat.le_refl _⟩
  | clearCalling =>
      simp only [step, Option.ite_none_right_eq_some, Option.some.injEq] at h
      obtain ⟨⟨⟨hpc, -⟩, -⟩, rfl⟩ := h
      exact Or.inr (Or.inr (Or.inr (Or.inr ⟨by simp [hpc, InWhile], rfl, trivial, by simp⟩)))
  | _ =>
      simp only [step, Option.ite_none_right_eq_some, Option.some.injEq] at h
      obtain ⟨⟨hpc, -⟩, rfl⟩ := h
      exact Or.inr (Or.inr (Or.inr (Or.inr ⟨by simp [hpc, InWhile], rfl, trivial, by simp⟩)))

/-- The flag is set and will not be cleared again. -/
structure QuitKept (s : State F) : Prop where
  quit : s.quit = true
  inWhile : InWhile s.pc

theorem quitKept_step (h : QuitKept s) (hstep : step s e = some t) : QuitKept t := by
  have hin := h.inWhile
  rcases step_flag_pc hstep with ⟨hpc, hq, -⟩ | ⟨hpc, -, -⟩ | ⟨hpc, -, -⟩ | ⟨-, hq, hpc⟩ |
    ⟨-, hq, hpc, -⟩
  · refine ⟨?_, by rw [hpc]; exact hin⟩
    rcases hq with hq | hq
    · exact hq
    · exact hq.trans h.quit
  · simp [hpc, InWhile] at hin
  · simp [hpc, InWhile] at hin
  · exact ⟨hq.trans h.quit, by simp [hpc, h.quit, InWhile]⟩
  · exact ⟨hq.trans h.quit, hpc⟩

/-- The loop thread is not asleep without a wakeup. -/
def Awake (s : State F) : Prop :=
  s.pc = .poll → 0 < s.wakeupCounter

theorem awake_step (h : QuitKept s) (hawake : Awake s) (hstep : step s e = some t) : Awake t := by
  intro hpoll
  rcases step_flag_pc hstep with ⟨hpc, -, hle⟩ | ⟨-, hpc, -⟩ | ⟨-, hpc, -⟩ | ⟨-, -, hpc⟩ |
    ⟨-, -, -, hpc⟩
  · have hpos := hawake (hpc ▸ hpoll)
    have hmono := hle (hpc ▸ hpoll)
    omega
  · simp [hpc] at hpoll
  · simp [hpc] at hpoll
  · -- The while test sees the flag, so the loop is left and not polled again.
    simp [hpc, h.quit] at hpoll
  · exact absurd hpoll hpc

theorem Awake.not_leftWaiting (h : Awake s) : ¬ LeftWaiting s := by
  rintro ⟨-, hpc, hzero⟩
  have hpos := h hpc
  omega

/-! ## Quits -/

/-- The store of `m_quit` at a state `s` in the while loop, and the rest of the call of another
thread: it returns without writing the eventfd. -/
theorem storeQuit_then_testQuit {th : Thread} (hth : th ≠ .loop)
    (hstep : step s (.storeQuit th) = some t) :
    ∃ u, step t (.testQuit th) = some u ∧ u.quitReturned = true ∧ u.pc = s.pc ∧
      u.wakeupCounter = s.wakeupCounter := by
  simp only [step, Option.ite_none_right_eq_some, Option.some.injEq] at hstep
  obtain ⟨-, rfl⟩ := hstep
  let t : State F := { s.setCall th .quitStored with quit := true }
  refine ⟨{ t.setCall th .idle with quitReturned := true }, ?_, rfl, rfl, rfl⟩
  simp only [step, if_neg hth]
  exact if_pos (setCall_calls_self s th .quitStored)

/-- A quit called by `th` in any state `s` of the while loop is never left waiting, whatever happens
next, if and only if its store of `m_quit` does not find the loop thread in `poll` (between the while
test and the return of `epoll_wait`) with a zero eventfd counter. -/
theorem quit_never_leftWaiting_iff (s s₁ : State F) (th : Thread) (hin : InWhile s.pc)
    (hcall : step s (.storeQuit th) = some s₁) :
    (∀ es' s', Run step s₁ es' s' → ¬ LeftWaiting s') ↔ (s.pc = .poll → 0 < s.wakeupCounter) := by
  constructor
  · intro hnever hpoll
    by_contra hzero
    -- The loop thread is in `poll`, so the caller is another thread and returns at once.
    have hth : th ≠ .loop := by
      rintro rfl
      simp only [step, Option.ite_none_right_eq_some, Option.some.injEq] at hcall
      obtain ⟨⟨-, huser⟩, -⟩ := hcall
      rcases huser rfl with hpc | ⟨hpc, -⟩ <;> simp [hpoll] at hpc
    obtain ⟨u, hu, hret, hpc, hcounter⟩ := storeQuit_then_testQuit hth hcall
    refine hnever [.testQuit th] u (Run.cons hu (Run.nil u)) ⟨hret, hpc.trans hpoll, ?_⟩
    omega
  · intro hawake es' s' hrun'
    have hstart : QuitKept s₁ ∧ Awake s₁ := by
      simp only [step, Option.ite_none_right_eq_some, Option.some.injEq] at hcall
      obtain ⟨-, rfl⟩ := hcall
      exact ⟨⟨rfl, hin⟩, hawake⟩
    have hend : QuitKept s' ∧ Awake s' :=
      Run.invariant (I := fun u => QuitKept u ∧ Awake u)
        (fun _ _ _ h hstep => ⟨quitKept_step h.1 hstep, awake_step h.1 h.2 hstep⟩) hrun' hstart
    exact hend.2.not_leftWaiting

/-- A handler of the loop thread calls `quit()`. -/
theorem quit_never_leftWaiting_iff_handler :
    ∃ es s s₁, Run step (constructed : State Unit) es s ∧ step s (.storeQuit .loop) = some s₁ ∧
      ∀ es' s', Run step s₁ es' s' → ¬ LeftWaiting s' := by
  let es : List (Event Unit) := [.enter, .resetQuit, .whileTest, .pollReturn]
  obtain ⟨s, s₁, hs, hpc, hcall⟩ : ∃ s s₁, exec step (constructed : State Unit) es = some s ∧
      s.pc = .dispatch ∧ step s (.storeQuit .loop) = some s₁ := ⟨_, _, rfl, rfl, rfl⟩
  have hin : InWhile s.pc := by simp [hpc, InWhile]
  refine ⟨es, s, s₁, run_of_exec hs, hcall, ?_⟩
  exact (quit_never_leftWaiting_iff s s₁ .loop hin hcall).2 (by simp [hpc])

/-- Another thread calls `quit()` while the loop thread is in `poll`. -/
theorem quit_leftWaiting_from_other_thread :
    ¬ ∀ (es : List (Event Unit)) (s s₁ : State Unit) (th : Thread) (es' : List (Event Unit))
        (s' : State Unit), Run step constructed es s → InWhile s.pc →
        step s (.storeQuit th) = some s₁ → Run step s₁ es' s' → ¬ LeftWaiting s' := by
  intro hnever
  let es : List (Event Unit) := [.enter, .resetQuit, .whileTest]
  let es' : List (Event Unit) := [.testQuit (.other 0)]
  obtain ⟨s, s₁, s', hs, hin, hcall, hs', hwaiting⟩ :
      ∃ s s₁ s', exec step (constructed : State Unit) es = some s ∧ InWhile s.pc ∧
        step s (.storeQuit (.other 0)) = some s₁ ∧ exec step s₁ es' = some s' ∧ LeftWaiting s' :=
    ⟨_, _, _, rfl, trivial, rfl, rfl, rfl, rfl, rfl⟩
  exact hnever es s s₁ (.other 0) es' s' (run_of_exec hs) hin hcall (run_of_exec hs') hwaiting

end EventLoop
end MyServer
end MyCppCode
