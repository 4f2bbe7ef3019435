import MyCppCode.MyServer.EventLoopQuit
import MyCppCode.MyServer.EventLoopWakeup

/-!
# EventLoopThread — the owner and the worker of a loop thread

The owner starts the worker, waits until `m_loop` is published, and later destroys the object, which
calls `quit()` and joins the worker.  The worker constructs the loop, publishes it, and only then
enters `loop()`, whose first act is to store `m_quit = false`.  The two threads meet in `m_quit`.
-/

namespace MyCppCode
namespace MyServer
namespace EventLoopThread

open Foundation

universe u

/-- Where the worker stands in `threadFunc()`. -/
inductive WorkerPc
  | notStarted
  | construct
  | initCallback
  | publish
  | looping
  | unpublish
  | finished
  deriving DecidableEq, Repr

/-- Where the owner stands in `startLoop()` and `~EventLoopThread()`. -/
inductive OwnerPc
  | start
  | waitLoop
  | started
  | quit
  | quitTest
  | join
  | destroyed
  deriving DecidableEq, Repr

structure State (F : Type u) where
  loop : EventLoop.State F
  /-- `m_loop != nullptr`. -/
  published : Bool
  worker : WorkerPc
  owner : OwnerPc
  /-- History: the owner's `quit()` has stored `m_quit = true`. -/
  quitStored : Bool

inductive Event (F : Type u)
  | start
  | construct
  | initCallback
  | publish
  | waitLoop
  | destroy
  | storeQuit
  | testQuit
  | join
  | inLoop (e : EventLoop.Event F)
  | loopReturned
  | unpublish
  deriving DecidableEq, Repr

variable {F : Type u}

/-- The thread that takes a step of the loop's model. -/
def threadOf : EventLoop.Event F → EventLoop.Thread
  | .push th _ => th
  | .testWakeup th => th
  | .storeQuit th => th
  | .testQuit th => th
  | .wakeup th => th
  | _ => .loop

/-- The steps of `quit()`, which here only the owner takes. -/
def ofQuit : EventLoop.Event F → Bool
  | .storeQuit _ => true
  | .testQuit _ => true
  | _ => false

/-- The owner, as one of the threads that are not the loop thread. -/
def ownerThread : EventLoop.Thread := .other 0

def step (s : State F) : Event F → Option (State F)
  | .start =>
      if s.owner = .start then some { s with owner := .waitLoop, worker := .construct }
      else none
  | .construct =>
      if s.worker = .construct then
        some { s with loop := EventLoop.constructed, worker := .initCallback }
      else none
  | .initCallback =>
      if s.worker = .initCallback then some { s with worker := .publish }
      else none
  | .publish =>
      if s.worker = .publish then some { s with published := true, worker := .looping }
      else none
  | .waitLoop =>
      if s.owner = .waitLoop ∧ s.published then some { s with owner := .started }
      else none
  | .destroy =>
      if s.owner = .started then
        some { s with owner := if s.published then .quit else .destroyed }
      else none
  | .storeQuit =>
      if s.owner = .quit then
        (EventLoop.step s.loop (.storeQuit ownerThread)).map fun l =>
          { s with loop := l, owner := .quitTest, quitStored := true }
      else none
  | .testQuit =>
      if s.owner = .quitTest then
        (EventLoop.step s.loop (.testQuit ownerThread)).map fun l =>
          { s with loop := l, owner := .join }
      else none
  | .join =>
      if s.owner = .join ∧ s.worker = .finished then some { s with owner := .destroyed }
      else none
  | .inLoop e =>
      -- Other threads know the loop from the pointer that `startLoop()` returned.
      if ofQuit e = false ∧ s.published ∧ (threadOf e = .loop → s.worker = .looping) then
        (EventLoop.step s.loop e).map fun l => { s with loop := l }
      else none
  | .loopReturned =>
      if s.worker = .looping ∧ s.loop.pc = .exited then some { s with worker := .unpublish }
      else none
  | .unpublish =>
      if s.worker = .unpublish then some { s with published := false, worker := .finished }
      else none

/-- The object after its constructor; the loop does not exist yet. -/
def constructed : State F :=
  { loop := EventLoop.constructed
    published := false
    worker := .notStarted
    owner := .start
    quitStored := false }

/-- The worker has overwritten a quit that the owner had stored. -/
def QuitLost (s : State F) : Prop :=
  s.quitStored = true ∧ s.loop.quit = false

variable {s t : State F} {e : Event F}

/-! ## How far the two threads have come -/

/-- The worker has published the loop. -/
def WorkerPc.Published : WorkerPc → Prop
  | .looping | .unpublish | .finished => True
  | _ => False

/-- The owner has seen the published loop. -/
def OwnerPc.SawLoop : OwnerPc → Prop
  | .start | .waitLoop => False
  | _ => True

structure Inv (s : State F) : Prop where
  loop : EventLoop.WakeupInv s.loop
  notStarted : s.owner = .start → s.worker = .notStarted
  published : s.published = true → s.worker.Published
  looping : s.worker = .looping → s.published = true
  owner : s.owner.SawLoop → s.worker.Published
  /-- The worker leaves `loop()` only when the loop has been left. -/
  exited : s.worker = .unpublish ∨ s.worker = .finished → s.loop.pc = .exited

theorem inv_constructed : Inv (constructed : State F) where
  loop := EventLoop.entered_constructed.wakeupInv rfl
  notStarted _ := rfl
  published h := by simp [constructed] at h
  looping h := by simp [constructed] at h
  owner h := by simp [constructed, OwnerPc.SawLoop] at h
  exited h := by simp [constructed] at h

/-- Calls made from other threads do not move the loop thread. -/
theorem pc_of_other_thread {l l' : EventLoop.State F} {e : EventLoop.Event F}
    (hth : threadOf e ≠ .loop) (h : EventLoop.step l e = some l') : l'.pc = l.pc := by
  cases e with
  | push th f =>
      simp only [EventLoop.step, Option.ite_none_right_eq_some, Option.some.injEq] at h
      obtain ⟨-, rfl⟩ := h
      rfl
  | testWakeup th =>
      simp only [EventLoop.step, Option.ite_none_right_eq_some] at h
      obtain ⟨-, h⟩ := h
      split at h <;> cases h <;> rfl
  | storeQuit th =>
      simp only [EventLoop.step, Option.ite_none_right_eq_some, Option.some.injEq] at h
      obtain ⟨-, rfl⟩ := h
      rfl
  | testQuit th =>
      simp only [EventLoop.step, Option.ite_none_right_eq_some] at h
      obtain ⟨-, h⟩ := h
      split at h <;> cases h <;> rfl
  | wakeup th =>
      simp only [EventLoop.step] at h
      split at h
      · cases h
        rfl
      · simp only [Option.ite_none_right_eq_some, Option.some.injEq] at h
        obtain ⟨-, rfl⟩ := h
        rfl
  | _ => exact absurd rfl hth

/-- A step inside the loop: by the loop thread while the worker is in `loop()`, or by another. -/
theorem Inv.inLoop (hinv : Inv s) {e : EventLoop.Event F} {l : EventLoop.State F}
    (hworker : threadOf e = .loop → s.worker = .looping) (h : EventLoop.step s.loop e = some l)
    {u : State F} (hloop : u.loop = l) (hstart : u.owner = .start → s.owner = .start)
    (hsaw : u.owner.SawLoop → s.owner.SawLoop) (hw : u.worker = s.worker)
    (hp : u.published = s.published) : Inv u := by
  refine ⟨?_, fun h => ?_, fun h => ?_, fun h => ?_, fun h => ?_, fun h => ?_⟩
  · rw [hloop]
    exact EventLoop.wakeupInv_step hinv.loop h
  · rw [hw]
    exact hinv.notStarted (hstart h)
  · rw [hw]
    exact hinv.published (hp ▸ h)
  · rw [hp]
    exact hinv.looping (hw ▸ h)
  · rw [hw]
    exact hinv.owner (hsaw h)
  · rw [hw] at h
    have hexited := hinv.exited h
    have hne : threadOf e ≠ .loop := by
      intro hth
      rcases h with h | h <;> simp [hworker hth] at h
    rw [hloop, pc_of_other_thread hne (by assumption), hexited]

theorem Inv.owner_ne_start (hinv : Inv s) (hw : s.worker ≠ .notStarted) : s.owner ≠ .start :=
  fun ho => hw (hinv.notStarted ho)

theorem inv_step (hinv : Inv s) (h : step s e = some t) : Inv t := by
  have howner := hinv.owner
  have hpub := hinv.published
  have hstart := hinv.owner_ne_start
  cases e with
  | start =>
      simp only [step, Option.ite_none_right_eq_some, Option.some.injEq] at h
      obtain ⟨hpc, rfl⟩ := h
      simp only [hinv.notStarted hpc, WorkerPc.Published] at hpub
      exact ⟨hinv.loop, by simp, fun hp => (hpub hp).elim, by simp, by simp [OwnerPc.SawLoop],
        by simp⟩
  | construct =>
      simp only [step, Option.ite_none_right_eq_some, Option.some.injEq] at h
      obtain ⟨hw, rfl⟩ := h
      simp only [hw, WorkerPc.Published] at howner hpub
      exact ⟨EventLoop.entered_constructed.wakeupInv rfl, fun ho => absurd ho (hstart (by simp [hw])),
        fun hp => (hpub hp).elim, by simp, fun ho => (howner ho).elim, by simp⟩
  | initCallback =>
      simp only [step, Option.ite_none_right_eq_some, Option.some.injEq] at h
      obtain ⟨hw, rfl⟩ := h
      simp only [hw, WorkerPc.Published] at howner hpub
      exact ⟨hinv.loop, fun ho => absurd ho (hstart (by simp [hw])),
        fun hp => (hpub hp).elim, by simp, fun ho => (howner ho).elim, by simp⟩
  | publish =>
      simp only [step, Option.ite_none_right_eq_some, Option.some.injEq] at h
      obtain ⟨hw, rfl⟩ := h
      exact ⟨hinv.loop, fun ho => absurd ho (hstart (by simp [hw])),
        fun _ => trivial, fun _ => rfl, fun _ => trivial, by simp⟩
  | waitLoop =>
      simp only [step, Option.ite_none_right_eq_some, Option.some.injEq] at h
      obtain ⟨⟨-, hp⟩, rfl⟩ := h
      exact ⟨hinv.loop, by simp, hpub, hinv.looping, fun _ => hpub hp, hinv.exited⟩
  | destroy =>
      simp only [step, Option.ite_none_right_eq_some, Option.some.injEq] at h
      obtain ⟨ho, rfl⟩ := h
      have hsaw := howner (by simp [ho, OwnerPc.SawLoop])
      refine ⟨hinv.loop, fun h => ?_, hpub, hinv.looping, fun _ => hsaw, hinv.exited⟩
      split at h <;> simp at h
  | storeQuit =>
      simp only [step, Option.ite_none_right_eq_some, Option.map_eq_some_iff] at h
      obtain ⟨ho, l, hl, rfl⟩ := h
      exact hinv.inLoop (by simp [threadOf, ownerThread]) hl rfl (by simp)
        (fun _ => by simp [ho, OwnerPc.SawLoop]) rfl rfl
  | testQuit =>
      simp only [step, Option.ite_none_right_eq_some, Option.map_eq_some_iff] at h
      obtain ⟨ho, l, hl, rfl⟩ := h
      exact hinv.inLoop (by simp [threadOf, ownerThread]) hl rfl (by simp)
        (fun _ => by simp [ho, OwnerPc.SawLoop]) rfl rfl
  | join =>
      simp only [step, Option.ite_none_right_eq_some, Option.some.injEq] at h
      obtain ⟨⟨-, hw⟩, rfl⟩ := h
      exact ⟨hinv.loop, by simp, hpub, hinv.looping, fun _ => by simp [hw, WorkerPc.Published],
        hinv.exited⟩
  | inLoop e =>
      simp only [step, Option.ite_none_right_eq_some, Option.map_eq_some_iff] at h
      obtain ⟨⟨-, -, hw⟩, l, hl, rfl⟩ := h
      exact hinv.inLoop hw hl rfl id id rfl rfl
  | loopReturned =>
      simp only [step, Option.ite_none_right_eq_some, Option.some.injEq] at h
      obtain ⟨⟨hw, hpc⟩, rfl⟩ := h
      exact ⟨hinv.loop, fun ho => absurd ho (hstart (by simp [hw])),
        fun _ => trivial, by simp, fun _ => trivial, fun _ => hpc⟩
  | unpublish =>
      simp only [step, Option.ite_none_right_eq_some, Option.some.injEq] at h
      obtain ⟨hw, rfl⟩ := h
      exact ⟨hinv.loop, fun ho => absurd ho (hstart (by simp [hw])),
        fun _ => trivial, by simp, fun _ => trivial, fun _ => hinv.exited (Or.inl hw)⟩

/-! ## The quit of the owner -/

/-- Once the owner has seen the loop, no step constructs it anew, so a kept quit stays kept. -/
theorem quitKept_loop_step (hinv : Inv s) (hsaw : s.owner.SawLoop)
    (hkept : EventLoop.QuitKept s.loop) (h : step s e = some t) :
    t.owner.SawLoop ∧ EventLoop.QuitKept t.loop := by
  have hw := hinv.owner hsaw
  cases e with
  | start =>
      simp only [step, Option.ite_none_right_eq_some, Option.some.injEq] at h
      obtain ⟨hpc, -⟩ := h
      simp [hpc, OwnerPc.SawLoop] at hsaw
  | construct =>
      simp only [step, Option.ite_none_right_eq_some, Option.some.injEq] at h
      obtain ⟨hpc, -⟩ := h
      simp [hpc, WorkerPc.Published] at hw
  | destroy =>
      simp only [step, Option.ite_none_right_eq_some, Option.some.injEq] at h
      obtain ⟨-, rfl⟩ := h
      exact ⟨by simp only; split <;> trivial, hkept⟩
  | storeQuit =>
      simp only [step, Option.ite_none_right_eq_some, Option.map_eq_some_iff] at h
      obtain ⟨-, l, hl, rfl⟩ := h
      exact ⟨trivial, EventLoop.quitKept_step hkept hl⟩
  | testQuit =>
      simp only [step, Option.ite_none_right_eq_some, Option.map_eq_some_iff] at h
      obtain ⟨-, l, hl, rfl⟩ := h
      exact ⟨trivial, EventLoop.quitKept_step hkept hl⟩
  | inLoop e =>
      simp only [step, Option.ite_none_right_eq_some, Option.map_eq_some_iff] at h
      obtain ⟨-, l, hl, rfl⟩ := h
      exact ⟨hsaw, EventLoop.quitKept_step hkept hl⟩
  | waitLoop =>
      simp only [step, Option.ite_none_right_eq_some, Option.some.injEq] at h
      obtain ⟨-, rfl⟩ := h
      exact ⟨trivial, hkept⟩
  | join =>
      simp only [step, Option.ite_none_right_eq_some, Option.some.injEq] at h
      obtain ⟨-, rfl⟩ := h
      exact ⟨trivial, hkept⟩
  | _ =>
      simp only [step, Option.ite_none_right_eq_some, Option.some.injEq] at h
      obtain ⟨-, rfl⟩ := h
      exact ⟨hsaw, hkept⟩

/-- From a location before `m_quit = false`, the worker goes on to store it. -/
theorem exists_resetQuit (hinv : Inv s) (hw : s.worker = .looping)
    (hpc : ¬ EventLoop.InWhile s.loop.pc) :
    ∃ es u, Run step s es u ∧ u.loop.quit = false ∧ u.quitStored = s.quitStored := by
  have hpub := hinv.looping hw
  have hidle : s.loop.calls .loop = .idle := by
    by_contra hbusy
    rcases hinv.loop.userCode hbusy with h | ⟨h, -⟩ <;> simp [h, EventLoop.InWhile] at hpc
  -- `m_quit = false`, from a state in which the loop stands in front of it.
  have hreset : ∀ l : EventLoop.State F, l.loopAt .resetQuit →
      step { s with loop := l } (.inLoop .resetQuit) =
        some { s with loop := { l with pc := .whileTest, quit := false } } := by
    intro l hl
    simp [step, EventLoop.step, ofQuit, hpub, hw, hl]
  cases hcase : s.loop.pc with
  | start =>
      have henter : step s (.inLoop .enter) =
          some { s with loop := { s.loop with pc := .resetQuit, looping := true } } := by
        simp [step, EventLoop.step, EventLoop.State.loopAt, ofQuit, hpub, hw, hcase, hidle]
      exact ⟨_, _, Run.cons henter (Run.cons (hreset _ ⟨rfl, hidle⟩) (Run.nil _)), rfl, rfl⟩
  | resetQuit =>
      exact ⟨_, _, Run.cons (hreset s.loop ⟨hcase, hidle⟩) (Run.nil _), rfl, rfl⟩
  | _ => simp [hcase, EventLoop.InWhile] at hpc

/-- The owner's quit is never lost, whatever happens next, if and only if its store of `m_quit` comes
after the worker's `m_quit = false` at the head of `loop()`. -/
theorem quit_never_lost_iff (es : List (Event F)) (s s₁ : State F)
    (hrun : Run step constructed es s) (hcall : step s .storeQuit = some s₁) :
    (∀ es' s', Run step s₁ es' s' → ¬ QuitLost s') ↔ EventLoop.InWhile s.loop.pc := by
  have hinv : Inv s := Run.invariant (fun _ _ _ => inv_step) hrun inv_constructed
  have hinv₁ : Inv s₁ := inv_step hinv hcall
  simp only [step, Option.ite_none_right_eq_some, Option.map_eq_some_iff] at hcall
  obtain ⟨ho, l, hl, rfl⟩ := hcall
  simp only [EventLoop.step, Option.ite_none_right_eq_some, Option.some.injEq] at hl
  obtain ⟨-, rfl⟩ := hl
  constructor
  · intro hnever
    by_contra hpc
    have hpublished := hinv.owner (by simp [ho, OwnerPc.SawLoop])
    have hw : s.worker = .looping := by
      by_contra hne
      have hexited : s.loop.pc = .exited := by
        apply hinv.exited
        revert hpublished hne
        cases s.worker <;> simp [WorkerPc.Published]
      simp [hexited, EventLoop.InWhile] at hpc
    obtain ⟨es', u, hrun', hquit, hstored⟩ := exists_resetQuit hinv₁ hw hpc
    exact hnever es' u hrun' ⟨hstored, hquit⟩
  · rintro hpc es' s' hrun' ⟨-, hquit⟩
    have hend := Run.invariant
      (I := fun u : State F => Inv u ∧ u.owner.SawLoop ∧ EventLoop.QuitKept u.loop)
      (fun _ _ _ h hstep => ⟨inv_step h.1 hstep, quitKept_loop_step h.1 h.2.1 h.2.2 hstep⟩)
      hrun' ⟨hinv₁, trivial, ⟨rfl, hpc⟩⟩
    simp [hend.2.2.quit] at hquit

/-- The owner destroys the object while the worker waits in `poll`. -/
theorem quit_never_lost_iff_polling :
    ∃ es s s₁, Run step (constructed : State Unit) es s ∧ step s .storeQuit = some s₁ ∧
      ∀ es' s', Run step s₁ es' s' → ¬ QuitLost s' := by
  let es : List (Event Unit) :=
    [.start, .construct, .initCallback, .publish, .waitLoop, .inLoop .enter, .inLoop .resetQuit,
      .inLoop .whileTest, .destroy]
  obtain ⟨s, s₁, hs, hpc, hcall⟩ : ∃ s s₁, exec step (constructed : State Unit) es = some s ∧
      s.loop.pc = .poll ∧ step s .storeQuit = some s₁ := ⟨_, _, rfl, rfl, rfl⟩
  have hin : EventLoop.InWhile s.loop.pc := by simp [hpc, EventLoop.InWhile]
  exact ⟨es, s, s₁, run_of_exec hs, hcall,
    (quit_never_lost_iff es s s₁ (run_of_exec hs) hcall).2 hin⟩

/-- The owner destroys the object as soon as `startLoop()` has returned; the worker enters `loop()`
after the quit and clears the flag. -/
theorem quit_lost_before_loop :
    ¬ ∀ (es : List (Event Unit)) (s : State Unit), Run step constructed es s → ¬ QuitLost s := by
  intro hnever
  let es : List (Event Unit) :=
    [.start, .construct, .initCallback, .publish, .waitLoop, .destroy, .storeQuit, .testQuit,
      .inLoop .enter, .inLoop .resetQuit]
  obtain ⟨s, hs, hlost⟩ : ∃ s, exec step (constructed : State Unit) es = some s ∧ QuitLost s :=
    ⟨_, rfl, rfl, rfl⟩
  exact hnever es s (run_of_exec hs) hlost

end EventLoopThread
end MyServer
end MyCppCode
