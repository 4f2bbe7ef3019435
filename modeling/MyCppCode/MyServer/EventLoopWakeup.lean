import MyCppCode.MyServer.EventLoop

/-!
# EventLoopWakeup — a functor pushed while the loop sleeps has a wakeup on its way

Between the swap of `doPendingFunctors` and the next return of `poll` nobody drains the eventfd, and
every push made in that time comes from another thread or from a running functor; both write the
eventfd.  A push made by a channel handler writes nothing, but the swap of the same iteration is
still to come.  `WakeupInv` says this for every location of the loop thread.
-/

namespace MyCppCode
namespace MyServer
namespace EventLoop

open Foundation

universe u

variable {F : Type u} {s t : State F} {e : Event F}

/-- A call of `queueInLoop` has pushed its functor and not executed its wakeup yet. -/
def WakeupInFlight (s : State F) : Prop :=
  ∃ th, s.calls th = .pushed ∨ s.calls th = .waking

/-- The eventfd is readable, or will be when some call goes on. -/
def Signalled (s : State F) : Prop :=
  0 < s.wakeupCounter ∨ WakeupInFlight s

/-- The locations from which the loop thread reaches `poll` before the next swap. -/
def BeforePoll : LoopPc → Prop
  | .dispatch | .setCalling | .swap => False
  | _ => True

structure WakeupInv (s : State F) : Prop where
  /-- A call made by the loop thread is made from user code. -/
  userCode : s.calls .loop ≠ .idle → s.inUserCode
  /-- `m_callPendingFunctors` is set before the swap and until the batch is done. -/
  calling : s.pc = .swap ∨ s.pc = .runFunctors → s.callPendingFunctors = true
  signalled : BeforePoll s.pc → s.pendingFunctors ≠ [] → Signalled s

theorem Entered.wakeupInv (h : Entered s) (hpending : s.pendingFunctors = []) : WakeupInv s where
  userCode hbusy := absurd h.loopIdle hbusy
  calling hpc := by
    rcases hpc with hpc | hpc <;> simp [h.pc] at hpc
  signalled _ hne := absurd hpending hne

/-! ## Calls -/

/-- A call in flight is still in flight after another call has moved. -/
theorem Signalled.of_setCall (hs : Signalled s) {th : Thread} {c : Call}
    (hth : s.calls th ≠ .pushed ∧ s.calls th ≠ .waking) : Signalled (s.setCall th c) := by
  rcases hs with hc | ⟨u, hu⟩
  · exact Or.inl hc
  · have hne : u ≠ th := by
      rintro rfl
      rcases hu with hu | hu
      · exact hth.1 hu
      · exact hth.2 hu
    refine Or.inr ⟨u, ?_⟩
    rw [setCall_calls_ne s c hne]
    exact hu

/-- A thread that calls, or goes on with its call, keeps the loop thread inside user code. -/
theorem WakeupInv.userCode_setCall (hinv : WakeupInv s) {th : Thread} {c : Call}
    (hth : th = .loop → s.inUserCode) :
    (s.setCall th c).calls .loop ≠ .idle → s.inUserCode := by
  intro hcall
  by_cases hl : th = .loop
  · exact hth hl
  · rw [setCall_calls_ne s c (Ne.symm hl)] at hcall
    exact hinv.userCode hcall

theorem WakeupInv.userCode_of_busy (hinv : WakeupInv s) {th : Thread} (hbusy : s.calls th ≠ .idle) :
    th = .loop → s.inUserCode := by
  rintro rfl
  exact hinv.userCode hbusy

/-- The loop thread tests `m_callPendingFunctors` while it is false only inside a handler. -/
theorem WakeupInv.dispatch_of_not_calling (hinv : WakeupInv s) (hbusy : s.calls .loop ≠ .idle)
    (hflag : s.callPendingFunctors ≠ true) : s.pc = .dispatch := by
  rcases hinv.userCode hbusy with hpc | ⟨hpc, -⟩
  · exact hpc
  · exact absurd (hinv.calling (Or.inr hpc)) hflag

theorem WakeupInv.push (hinv : WakeupInv s) {th : Thread} {f : F}
    (h : step s (.push th f) = some t) : WakeupInv t := by
  simp only [step, Option.ite_none_right_eq_some, Option.some.injEq] at h
  obtain ⟨⟨-, huser⟩, rfl⟩ := h
  refine ⟨hinv.userCode_setCall huser, hinv.calling, fun _ _ => ?_⟩
  exact Or.inr ⟨th, Or.inl (setCall_calls_self s th .pushed)⟩

theorem WakeupInv.testWakeup (hinv : WakeupInv s) {th : Thread}
    (h : step s (.testWakeup th) = some t) : WakeupInv t := by
  simp only [step, Option.ite_none_right_eq_some] at h
  obtain ⟨hcall, h⟩ := h
  have hbusy : s.calls th ≠ .idle := by simp [hcall]
  have huser := hinv.userCode_of_busy hbusy
  split at h
  · cases h
    refine ⟨hinv.userCode_setCall huser, hinv.calling, fun _ _ => ?_⟩
    exact Or.inr ⟨th, Or.inr (setCall_calls_self s th .waking)⟩
  · rename_i hno
    cases h
    -- Only the loop thread can be told that no wakeup is needed, and only in a handler.
    obtain ⟨rfl, hflag⟩ : th = .loop ∧ s.callPendingFunctors ≠ true := by
      simpa [not_or] using hno
    have hpc := hinv.dispatch_of_not_calling hbusy hflag
    refine ⟨hinv.userCode_setCall huser, hinv.calling, fun hbefore _ => ?_⟩
    simp [State.setCall, hpc, BeforePoll] at hbefore

theorem WakeupInv.storeQuit (hinv : WakeupInv s) {th : Thread}
    (h : step s (.storeQuit th) = some t) : WakeupInv t := by
  simp only [step, Option.ite_none_right_eq_some, Option.some.injEq] at h
  obtain ⟨⟨hidle, huser⟩, rfl⟩ := h
  refine ⟨hinv.userCode_setCall huser, hinv.calling, fun hbefore hne => ?_⟩
  exact (hinv.signalled hbefore hne).of_setCall (by simp [hidle])

theorem WakeupInv.testQuit (hinv : WakeupInv s) {th : Thread}
    (h : step s (.testQuit th) = some t) : WakeupInv t := by
  simp only [step, Option.ite_none_right_eq_some] at h
  obtain ⟨hcall, h⟩ := h
  have hbusy : s.calls th ≠ .idle := by simp [hcall]
  have huser := hinv.userCode_of_busy hbusy
  have hsig : ∀ c, BeforePoll s.pc → s.pendingFunctors ≠ [] → Signalled (s.setCall th c) :=
    fun c hbefore hne => (hinv.signalled hbefore hne).of_setCall (by simp [hcall])
  split at h
  · cases h
    exact ⟨hinv.userCode_setCall huser, hinv.calling, hsig _⟩
  · cases h
    exact ⟨hinv.userCode_setCall huser, hinv.calling, hsig _⟩

theorem WakeupInv.wakeup (hinv : WakeupInv s) {th : Thread}
    (h : step s (.wakeup th) = some t) : WakeupInv t := by
  have hbusy : s.calls th ≠ .idle := by
    intro hidle
    simp [step, hidle] at h
  have huser := hinv.userCode_of_busy hbusy
  simp only [step] at h
  split at h
  · cases h
    exact ⟨hinv.userCode_setCall huser, hinv.calling, fun _ _ => Or.inl (eventfdWrite_pos _)⟩
  · split at h
    · cases h
      exact ⟨hinv.userCode_setCall huser, hinv.calling, fun _ _ => Or.inl (eventfdWrite_pos _)⟩
    · cases h

/-! ## Steps of the loop thread -/

/-- A step of the loop thread that moves it without touching the calls, the eventfd counter or the
pending functors. -/
theorem WakeupInv.move (hinv : WakeupInv s) (hidle : s.calls .loop = .idle)
    (hcalls : t.calls = s.calls) (hcounter : t.wakeupCounter = s.wakeupCounter)
    (hpending : t.pendingFunctors = s.pendingFunctors)
    (hbefore : BeforePoll t.pc → BeforePoll s.pc)
    (hcalling : t.pc = .swap ∨ t.pc = .runFunctors → t.callPendingFunctors = true) :
    WakeupInv t := by
  refine ⟨fun hbusy => absurd (by rw [hcalls, hidle]) hbusy, hcalling, fun hb hne => ?_⟩
  rw [hpending] at hne
  have hsig := hinv.signalled (hbefore hb) hne
  simpa only [Signalled, WakeupInFlight, hcalls, hcounter] using hsig

theorem WakeupInv.loopStep (hinv : WakeupInv s)
    (he : e = .enter ∨ e = .resetQuit ∨ e = .whileTest ∨ e = .pollReturn ∨ e = .handleRead ∨
      e = .endDispatch ∨ e = .setCalling ∨ e = .swap ∨ e = .runFunctor ∨ e = .functorDone ∨
      e = .clearCalling ∨ e = .leave)
    (h : step s e = some t) : WakeupInv t := by
  rcases he with rfl | rfl | rfl | rfl | rfl | rfl | rfl | rfl | rfl | rfl | rfl | rfl <;>
    simp only [step, Option.ite_none_right_eq_some, Option.some.injEq] at h
  · -- enter
    obtain ⟨⟨hpc, hidle⟩, rfl⟩ := h
    exact hinv.move hidle rfl rfl rfl (by simp [hpc, BeforePoll]) (by simp)
  · -- resetQuit
    obtain ⟨⟨hpc, hidle⟩, rfl⟩ := h
    exact hinv.move hidle rfl rfl rfl (by simp [hpc, BeforePoll]) (by simp)
  · -- whileTest
    obtain ⟨⟨hpc, hidle⟩, rfl⟩ := h
    exact hinv.move hidle rfl rfl rfl (by simp [hpc, BeforePoll]) (by split <;> simp)
  · -- pollReturn
    obtain ⟨⟨-, hidle⟩, rfl⟩ := h
    exact hinv.move hidle rfl rfl rfl (by simp [BeforePoll]) (by simp)
  · -- handleRead: the eventfd is drained, with the swap of this iteration still to come
    obtain ⟨⟨hpc, hidle⟩, rfl⟩ := h
    refine ⟨fun hbusy => absurd hidle hbusy, by simp [hpc], fun hbefore => ?_⟩
    simp [hpc, BeforePoll] at hbefore
  · -- endDispatch
    obtain ⟨⟨-, hidle⟩, rfl⟩ := h
    exact hinv.move hidle rfl rfl rfl (by simp [BeforePoll]) (by simp)
  · -- setCalling
    obtain ⟨⟨-, hidle⟩, rfl⟩ := h
    exact hinv.move hidle rfl rfl rfl (by simp [BeforePoll]) (by simp)
  · -- swap: no functor is pending afterwards
    obtain ⟨⟨hpc, hidle⟩, rfl⟩ := h
    exact ⟨fun hbusy => absurd hidle hbusy, fun _ => hinv.calling (Or.inl hpc), by simp⟩
  · -- runFunctor
    split at h
    · cases h
    · simp only [Option.ite_none_right_eq_some, Option.some.injEq] at h
      obtain ⟨⟨⟨hpc, hidle⟩, -⟩, rfl⟩ := h
      exact hinv.move hidle rfl rfl rfl id (fun _ => hinv.calling (Or.inr hpc))
  · -- functorDone
    obtain ⟨⟨⟨hpc, hidle⟩, -⟩, rfl⟩ := h
    exact hinv.move hidle rfl rfl rfl id (fun _ => hinv.calling (Or.inr hpc))
  · -- clearCalling
    obtain ⟨⟨⟨hpc, hidle⟩, -⟩, rfl⟩ := h
    exact hinv.move hidle rfl rfl rfl (by simp [hpc, BeforePoll]) (by simp)
  · -- leave
    obtain ⟨⟨hpc, hidle⟩, rfl⟩ := h
    exact hinv.move hidle rfl rfl rfl (by simp [hpc, BeforePoll]) (by simp)

theorem wakeupInv_step (hinv : WakeupInv s) (h : step s e = some t) : WakeupInv t := by
  cases e with
  | push th f => exact hinv.push h
  | testWakeup th => exact hinv.testWakeup h
  | storeQuit th => exact hinv.storeQuit h
  | testQuit th => exact hinv.testQuit h
  | wakeup th => exact hinv.wakeup h
  | _ => exact hinv.loopStep (by simp) h

/-- No lost wakeup: whenever the loop thread is in `poll` while functors are pending, the eventfd
counter is positive or a `queueInLoop` call is between its push and its wakeup. -/
theorem no_lost_wakeup (s₀ s : State F) (es : List (Event F)) (h₀ : Entered s₀)
    (hempty : s₀.pendingFunctors = []) (hrun : Run step s₀ es s)
    (hpoll : s.pc = .poll) (hpending : s.pendingFunctors ≠ []) :
    0 < s.wakeupCounter ∨ ∃ th, s.calls th = .pushed ∨ s.calls th = .waking := by
  have hinv : WakeupInv s :=
    Run.invariant (fun _ _ _ => wakeupInv_step) hrun (h₀.wakeupInv hempty)
  exact hinv.signalled (by simp [hpoll, BeforePoll]) hpending

/-- A functor pushed by another thread while the loop thread is in `poll`. -/
theorem no_lost_wakeup_pushed :
    ∃ es s, Run step (constructed : State Unit) es s ∧ s.pc = .poll ∧ s.pendingFunctors ≠ [] ∧
      (0 < s.wakeupCounter ∨ ∃ th, s.calls th = .pushed ∨ s.calls th = .waking) := by
  let es : List (Event Unit) := [.enter, .resetQuit, .whileTest, .push (.other 0) ()]
  obtain ⟨s, hs, hpc, hpending⟩ : ∃ s, exec step (constructed : State Unit) es = some s ∧
      s.pc = .poll ∧ s.pendingFunctors = [()] := ⟨_, rfl, rfl, rfl⟩
  have hrun := run_of_exec hs
  have hne : s.pendingFunctors ≠ [] := by simp [hpending]
  exact ⟨es, s, hrun, hpc, hne, no_lost_wakeup _ s es entered_constructed rfl hrun hpc hne⟩

end EventLoop
end MyServer
end MyCppCode
