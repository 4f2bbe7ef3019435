import MyCppCode.MyServer.SharedConnection
import MyCppCode.MyServer.TcpConnectionStream

/-!
# SharedConnectionLifetime — the object behind the functors of `send` and `shutdown`

The functors that `send` and `shutdown` queue are bound to `this` and keep nothing alive.  While the
connection is in the map of the server, or its removal is on its way, a functor `connectDestroyed` will
be queued behind them, and its pointer is released with the whole batch.  A functor that is queued when
`connectDestroyed` has been swapped out already has no such shelter: it depends on the pointers of the
users alone.
-/

namespace MyCppCode
namespace MyServer
namespace SharedConnection

open Foundation
open EventLoop (Thread)
open TcpConnection (freshConnection)

/-! ## Functors that are bound to `this` -/

/-- A functor of `send` or `shutdown` is in the list. -/
def RawIn (fs : List Functor) : Prop :=
  ∃ f ∈ fs, f.owns = false

namespace State

/-- A functor of `send` or `shutdown` is running. -/
def runsRaw (s : State) : Prop :=
  ∃ f, s.running = some (.functor f) ∧ f.owns = false

/-- A functor of `send` or `shutdown` is part of the batch that the loop thread runs, and has not
returned. -/
def inBatch (s : State) : Prop :=
  RawIn s.todo ∨ s.runsRaw

/-- A functor of `send` or `shutdown` is queued or running. -/
def waiting (s : State) : Prop :=
  RawIn s.pendingFunctors ∨ s.inBatch

/-- The references of the server and of the functors that are queued.  They are there until a batch
that is still to come is destroyed. -/
def ahead (s : State) : Nat :=
  s.inMap.toNat + s.removals + s.pendingFunctors.countP Functor.owns

/-- A functor of `send` or `shutdown` is left to the pointers of the users: the connection is not in
the map, its removal is not on its way, and no functor of the same batch is bound to a pointer. -/
def exposed (s : State) : Prop :=
  s.ahead = 0 ∧
    (RawIn s.pendingFunctors ∨ (s.inBatch ∧ s.functors.countP Functor.owns = 0))

end State

/-- The number of references that the event releases. -/
def releases (s : State) : Event → Nat
  | .drop _ => 1
  | .closeCallback => 1
  | .endEvent => 1
  | .endRemovals => s.spent
  | .endDestroyed => s.inlined.toNat
  | .endFunctors => s.functors.countP Functor.owns
  | _ => 0

/-- The last reference is not released while a functor of `send` or `shutdown` is exposed. -/
def KeepsLast (s : State) (e : Event) : Prop :=
  s.exposed → releases s e < s.strong

/-- Every functor of `send` or `shutdown` that is queued or running is bound to a connection with a
strong reference. -/
def FunctorsAlive (s : State) : Prop :=
  s.waiting → 0 < s.strong

/-- The functor is a stage of `connectDestroyed`. -/
def Running.destroys : Running → Bool
  | .functor f => f = .connectDestroyed
  | .destroyTested => true
  | .destroyCallback => true
  | .destroyRemove => true

/-- What every run keeps, whoever releases what. -/
structure Inv (s : State) : Prop where
  /-- A thread other than the loop thread has a pointer as long as it is in a call. -/
  callers : ∀ id, s.calls (.other id) ≠ .idle → .other id ∈ s.holders
  /-- There is a batch only in `doPendingFunctors`. -/
  batch : s.pc ≠ .doPendingFunctors → s.functors = []
  inlined : s.inlined = true → s.running.any Running.destroys = true

variable {s s' : State} {e : Event}

/-! ## What a step does to the references -/

theorem rawIn_append {fs gs : List Functor} : RawIn (fs ++ gs) ↔ RawIn fs ∨ RawIn gs := by
  simp only [RawIn, List.mem_append, or_and_right, exists_or]

theorem not_rawIn_callbacks {fs : List Functor} (h : ∀ f ∈ fs, f = .callback) : ¬ RawIn fs := by
  rintro ⟨f, hf, howns⟩
  rw [h f hf] at howns
  cases howns

theorem rawIn_of_queued_connectDestroyed {fs : List Functor}
    (h : RawIn (fs ++ [.connectDestroyed])) : RawIn fs := by
  rcases rawIn_append.1 h with hraw | ⟨f, hf, howns⟩
  · exact hraw
  · rw [List.mem_singleton.1 hf] at howns
    cases howns

/-- Between two functors the loop thread is not in `~TcpServer`. -/
theorem Inv.inlined_eq_false (hs : Inv s) (hnone : s.running = none) : s.inlined = false := by
  by_contra hin
  have hdestroys := hs.inlined (by simpa using hin)
  rw [hnone] at hdestroys
  cases hdestroys

/-- The entry of the map, if there is one, goes over into the functor that is queued. -/
theorem strong_removeConnectionInLoop : s.strong ≤ s.removeConnectionInLoop.strong := by
  have hmap := Bool.toNat_le s.inMap
  simp only [State.strong, State.removeConnectionInLoop, State.queueInLoop, List.countP_append,
    List.countP_singleton, Functor.owns, Bool.toNat_false, if_true]
  omega

/-- A step takes from the strong references no more than it releases. -/
theorem step_strong (hs : Inv s) (h : step s e = some s') :
    s.strong ≤ s'.strong + releases s e := by
  -- Three of the cases hand the map entry over to `connectDestroyed`.
  have hremove := strong_removeConnectionInLoop (s := s)
  cases step_moves h with
  | drop hidle hmem =>
      have hlen := List.length_erase_of_mem hmem
      simp only [State.strong, releases]
      omega
  | share hidle hptr =>
      simp only [State.strong, List.length_cons]
      omega
  | sendRun hcall hstate hfs houtcome =>
      simp only [State.strong, State.setCall, List.countP_append]
      omega
  | sendPush hcall hbind =>
      simp only [State.strong, State.setCall, State.queueInLoop, List.countP_append]
      omega
  | shutdownPush hstored =>
      simp only [State.strong, State.setCall, State.queueInLoop, List.countP_append]
      omega
  | runSend hrun hstate hfs houtcome =>
      simp only [State.strong, List.countP_append]
      omega
  | handleEvent hat =>
      simp only [State.strong, hat.1, LoopPc.refs]
      omega
  | handleRead hat hread =>
      simp only [State.strong, hat.1]
      split <;> simp only [LoopPc.refs] <;> omega
  | handleWrite =>
      simp only [State.strong, State.queueInLoop, List.countP_append]
      omega
  | handleClose hat =>
      simp only [State.strong, hat.1, LoopPc.refs]
      omega
  | closeHere hat =>
      -- `connPtr` is released, the guard stays.
      simp only [State.strong, State.removeConnectionInLoop, State.queueInLoop, releases, hat.1,
        LoopPc.refs] at hremove ⊢
      omega
  | closeQueued hat =>
      simp only [State.strong, releases, hat.1, LoopPc.refs]
      omega
  | endEvent hat =>
      simp only [State.strong, releases, hat.1, LoopPc.refs]
      omega
  | removeConnectionInLoop hpos =>
      simp only [State.strong, State.removeConnectionInLoop, State.queueInLoop] at hremove ⊢
      omega
  | endRemovals =>
      simp only [State.strong, releases]
      omega
  | serverDestroyedHere hmap hnone =>
      simp only [State.strong, hs.inlined_eq_false hnone, hmap, Bool.toNat_false, Bool.toNat_true]
      omega
  | serverDestroyed hmap =>
      simp only [State.strong, State.removeConnectionInLoop, State.queueInLoop] at hremove ⊢
      omega
  -- The old vector is gone, so the swap destroys nothing.
  | doPendingFunctors hat =>
      have hnil : s.functors = [] := hs.batch (by simp [hat.1])
      simp only [State.strong, hnil, hat.1, LoopPc.refs, List.countP_nil]
      omega
  | endDestroyed hrun =>
      simp only [State.strong, releases, Bool.toNat_false]
      omega
  | endFunctors hat htodo =>
      simp only [State.strong, releases, hat.1, LoopPc.refs, List.countP_nil]
      omega
  | _ => exact Nat.le_refl _

/-! ## What every run keeps -/

theorem State.mayCall.mem_holders {id : Nat} (h : s.mayCall (.other id)) : .other id ∈ s.holders := by
  rcases h.2.1 with hmem | ⟨hloop, -⟩
  · exact hmem
  · cases hloop

theorem Inv.mem_holders (hs : Inv s) {id : Nat} {call : Call} (hcall : s.calls (.other id) = call)
    (hne : call ≠ .idle) : .other id ∈ s.holders :=
  hs.callers id (by rwa [hcall])

/-- Thread `t` goes on to `call`; if it is in a call then, it has a pointer. -/
theorem Inv.setCall (hs : Inv s) {t : Thread} {call : Call}
    (ht : ∀ id, t = .other id → call ≠ .idle → .other id ∈ s.holders) : Inv (s.setCall t call) := by
  refine ⟨fun id hid => ?_, hs.batch, hs.inlined⟩
  simp only [State.setCall] at hid
  by_cases htid : t = .other id
  · refine ht id htid ?_
    rwa [htid, Function.update_self] at hid
  · rw [Function.update_of_ne (Ne.symm htid)] at hid
    exact hs.callers id hid

theorem Inv.returned (hs : Inv s) (t : Thread) : Inv (s.setCall t .idle) :=
  hs.setCall fun _ _ hidle => absurd rfl hidle

theorem Inv.called (hs : Inv s) {t : Thread} (ht : s.mayCall t) (call : Call) :
    Inv (s.setCall t call) := by
  refine hs.setCall fun id htid _ => ?_
  subst htid
  exact ht.mem_holders

theorem Inv.queueInLoop (hs : Inv s) (fs : List Functor) : Inv (s.queueInLoop fs) :=
  ⟨hs.callers, hs.batch, hs.inlined⟩

/-- A functor other than `connectDestroyed` returns. -/
theorem Inv.functorReturned (hs : Inv s) {f : Functor} (hrun : s.running = some (.functor f))
    (hf : f ≠ .connectDestroyed) : Inv { s with running := none } := by
  refine ⟨hs.callers, hs.batch, fun hin => ?_⟩
  have hdestroys := hs.inlined hin
  rw [hrun] at hdestroys
  exact absurd (by simpa [Running.destroys] using hdestroys) hf

theorem Inv.setPc (hs : Inv s) {pc : LoopPc} (hat : s.loopAt pc) (hpc : pc ≠ .doPendingFunctors)
    (pc' : LoopPc) : Inv { s with pc := pc' } :=
  ⟨hs.callers, fun _ => hs.batch (by rwa [hat.1]), hs.inlined⟩

theorem step_inv (hs : Inv s) (h : step s e = some s') : Inv s' := by
  cases step_moves h with
  | share hidle hptr =>
      exact ⟨fun id hid => List.mem_cons_of_mem _ (hs.callers id hid), hs.batch, hs.inlined⟩
  | drop hidle hmem =>
      refine ⟨fun id hid => ?_, hs.batch, hs.inlined⟩
      -- A thread that is in a call does not drop its pointer.
      rename_i t
      have hne : .other id ≠ t := by
        rintro rfl
        exact hid hidle
      exact (List.mem_erase_of_ne hne).2 (hs.callers id hid)
  | sendTest hcontent hmay => exact hs.called hmay _
  | shutdownTest hmay hconn => exact hs.called hmay _
  | sendRun hcall hstate hfs houtcome =>
      have hret := hs.returned .loop
      exact ⟨hret.callers, hret.batch, hret.inlined⟩
  | sendPush hcall hbind => exact (hs.returned _).queueInLoop _
  | shutdownStore htested =>
      rename_i t
      have hstored : Inv (s.setCall t .shutdownStored) := by
        refine hs.setCall fun id htid _ => ?_
        subst htid
        exact hs.mem_holders htested (by simp)
      exact ⟨hstored.callers, hstored.batch, hstored.inlined⟩
  | shutdownRun => exact hs.returned .loop
  | shutdownPush hstored => exact (hs.returned _).queueInLoop _
  | handleEvent hat => exact hs.setPc hat (by decide) _
  | handleRead hat hread =>
      exact ⟨hs.callers, (hs.setPc hat (by decide) _).batch, hs.inlined⟩
  | handleClose hat => exact ⟨hs.callers, (hs.setPc hat (by decide) _).batch, hs.inlined⟩
  | closeHere hat => exact ⟨hs.callers, (hs.setPc hat (by decide) _).batch, hs.inlined⟩
  | closeQueued hat => exact ⟨hs.callers, (hs.setPc hat (by decide) _).batch, hs.inlined⟩
  | endEvent hat => exact hs.setPc hat (by decide) _
  | serverDestroyedHere hmap hnone => exact ⟨hs.callers, hs.batch, fun _ => rfl⟩
  | doPendingFunctors hat => exact ⟨hs.callers, fun hpc => absurd rfl hpc, hs.inlined⟩
  | beginFunctor htodo hat =>
      refine ⟨hs.callers, hs.batch, fun hin => ?_⟩
      rw [hs.inlined_eq_false hat.2.2] at hin
      cases hin
  | runSend hrun hstate hfs houtcome =>
      have hret := hs.functorReturned hrun (by simp)
      exact ⟨hret.callers, hret.batch, hret.inlined⟩
  | runOther hrun hf => exact hs.functorReturned hrun hf
  | runDestroyed hr =>
      refine ⟨hs.callers, hs.batch, fun _ => ?_⟩
      rcases hr with rfl | rfl <;> rfl
  | destroyStore => exact ⟨hs.callers, hs.batch, fun _ => rfl⟩
  | endDestroyed hrun => exact ⟨hs.callers, hs.batch, fun hin => nomatch hin⟩
  | endFunctors hat htodo => exact ⟨hs.callers, fun _ => rfl, hs.inlined⟩
  | _ => exact ⟨hs.callers, hs.batch, hs.inlined⟩

/-! ## Functors that wait -/

theorem strong_pos_of_mem_holders {t : Thread} (h : t ∈ s.holders) : 0 < s.strong := by
  have hlen := List.length_pos_of_mem h
  simp only [State.strong]
  omega

/-- Callbacks are queued. -/
theorem rawIn_of_append {fs gs : List Functor} (hgs : ∀ f ∈ gs, f = .callback)
    (h : RawIn (fs ++ gs)) : RawIn fs :=
  (rawIn_append.1 h).resolve_right (not_rawIn_callbacks hgs)

/-- A functor of `send` or `shutdown` is queued by a thread that has a pointer. -/
theorem step_waiting (hs : Inv s) (h : step s e = some s') (hw : s'.waiting) :
    s.waiting ∨ 0 < s'.strong := by
  cases step_moves h with
  | sendPush hcall hbind =>
      exact .inr (strong_pos_of_mem_holders (hs.mem_holders hcall (by simp)))
  | shutdownPush hstored =>
      exact .inr (strong_pos_of_mem_holders (hs.mem_holders hstored (by simp)))
  | sendRun hcall hstate hfs houtcome => exact .inl (hw.imp_left (rawIn_of_append hfs))
  | handleWrite =>
      exact .inl (hw.imp_left (rawIn_of_append fun f => eq_callback_of_mem_queued))
  | closeHere hat => exact .inl (hw.imp_left rawIn_of_queued_connectDestroyed)
  | removeConnectionInLoop hpos => exact .inl (hw.imp_left rawIn_of_queued_connectDestroyed)
  | serverDestroyed hmap => exact .inl (hw.imp_left rawIn_of_queued_connectDestroyed)
  | serverDestroyedHere hmap hnone =>
      refine .inl (hw.imp_right (Or.imp_right ?_))
      rintro ⟨f, hf, howns⟩
      cases hf
      cases howns
  -- The swap moves the functors from the queue into the batch.
  | doPendingFunctors hat =>
      rcases hw with ⟨f, hf, -⟩ | hraw | hraw
      · cases hf
      · exact .inl (.inl hraw)
      · exact .inl (.inr (.inr hraw))
  | beginFunctor htodo hat =>
      refine .inl (hw.imp_right fun hbatch => .inl ?_)
      rw [htodo]
      rcases hbatch with ⟨g, hg, howns⟩ | ⟨g, hg, howns⟩
      · exact ⟨g, List.mem_cons_of_mem _ hg, howns⟩
      · cases hg
        exact ⟨_, List.mem_cons_self, howns⟩
  | runSend hrun hstate hfs houtcome =>
      rcases hw with hraw | hraw | ⟨f, hf, -⟩
      · exact .inl (.inl (rawIn_of_append hfs hraw))
      · exact .inl (.inr (.inl hraw))
      · cases hf
  | runOther hrun hf => exact .inl (hw.imp_right (Or.imp_right fun ⟨f, hf, _⟩ => nomatch hf))
  | runDestroyed hr =>
      refine .inl (hw.imp_right (Or.imp_right ?_))
      rintro ⟨f, hf, -⟩
      cases hf
      rcases hr with hr | hr <;> cases hr
  | destroyStore => exact .inl (hw.imp_right (Or.imp_right fun ⟨f, hf, _⟩ => nomatch hf))
  | endDestroyed hrun => exact .inl (hw.imp_right (Or.imp_right fun ⟨f, hf, _⟩ => nomatch hf))
  | _ => exact .inl hw

theorem State.exposed.waiting (h : s.exposed) : s.waiting :=
  h.2.imp_right And.left

/-- The references that a functor which is not exposed can count on are not among those that a step
releases. -/
theorem releases_lt_strong (h : step s e = some s') (hw : s.waiting) (halive : 0 < s.strong)
    (hne : ¬ s.exposed) : releases s e < s.strong := by
  -- Something of the server or of a functor is there, and if nothing is queued it is in the batch.
  have hshelter : 0 < s.ahead + s.functors.countP Functor.owns := by
    by_contra hzero
    refine hne ⟨by omega, hw.imp_right fun hbatch => ⟨hbatch, by omega⟩⟩
  cases step_moves h with
  | drop hidle hmem =>
      have hlen := List.length_pos_of_mem hmem
      simp only [releases, State.strong, State.ahead] at hshelter ⊢
      omega
  | closeHere hat =>
      simp only [releases, State.strong, hat.1, LoopPc.refs]
      omega
  | closeQueued hat =>
      simp only [releases, State.strong, hat.1, LoopPc.refs]
      omega
  | endEvent hat =>
      simp only [releases, State.strong, State.ahead, hat.1, LoopPc.refs] at hshelter ⊢
      omega
  | endRemovals =>
      simp only [releases, State.strong, State.ahead] at hshelter ⊢
      omega
  | endDestroyed hrun =>
      simp only [releases, State.strong, State.ahead] at hshelter ⊢
      omega
  | endFunctors hat htodo =>
      -- The batch has run, so the functor is queued for the next one.
      have hraw : RawIn s.pendingFunctors := by
        rcases hw with hraw | ⟨f, hf, -⟩ | ⟨f, hf, -⟩
        · exact hraw
        · rw [htodo] at hf
          cases hf
        · rw [hat.2.2] at hf
          cases hf
      have hahead : s.ahead ≠ 0 := fun hzero => hne ⟨hzero, .inl hraw⟩
      simp only [releases, State.strong, State.ahead] at hahead ⊢
      omega
  | _ => exact halive

/-- If the last reference is released while a functor is exposed, the functor is left without the
object. -/
theorem step_last (h : step s e = some s') (halive : 0 < s.strong) (hexposed : s.exposed)
    (hlast : s.strong ≤ releases s e) : s'.waiting ∧ s'.strong = 0 := by
  have hw := hexposed.waiting
  cases step_moves h with
  | drop hidle hmem =>
      have hlen := List.length_erase_of_mem hmem
      have hpos := List.length_pos_of_mem hmem
      refine ⟨hw, ?_⟩
      simp only [releases, State.strong] at hlast ⊢
      omega
  | closeHere hat =>
      simp only [releases, State.strong, hat.1, LoopPc.refs] at hlast
      omega
  | closeQueued hat =>
      simp only [releases, State.strong, hat.1, LoopPc.refs] at hlast
      omega
  | endEvent hat =>
      refine ⟨hw, ?_⟩
      simp only [releases, State.strong, hat.1, LoopPc.refs] at hlast ⊢
      omega
  | endRemovals =>
      refine ⟨hw, ?_⟩
      simp only [releases, State.strong] at hlast ⊢
      omega
  | endDestroyed hrun =>
      refine ⟨hw.imp_right (Or.imp_right ?_), ?_⟩
      · rintro ⟨f, hf, -⟩
        rcases hrun with hrun | hrun <;> rw [hrun] at hf <;> cases hf
      · simp only [releases, State.strong, Bool.toNat_false] at hlast ⊢
        omega
  | endFunctors hat htodo =>
      refine ⟨hw, ?_⟩
      simp only [releases, State.strong, hat.1, LoopPc.refs, List.countP_nil] at hlast ⊢
      omega
  | _ =>
      simp only [releases] at hlast
      omega

/-! ## Runs -/

theorem step_alive_iff (hs : Inv s) (halive : FunctorsAlive s) (h : step s e = some s') :
    FunctorsAlive s' ↔ KeepsLast s e := by
  constructor
  · intro halive' hexposed
    -- A release that the condition forbids leaves the functor behind without the object.
    by_contra hlast
    obtain ⟨hw', hzero⟩ := step_last h (halive hexposed.waiting) hexposed (by omega)
    have := halive' hw'
    omega
  · intro hok hw'
    rcases step_waiting hs h hw' with hw | hpos
    · have hlt : releases s e < s.strong := by
        by_cases hexposed : s.exposed
        · exact hok hexposed
        · exact releases_lt_strong h hw (halive hw) hexposed
      have := step_strong hs h
      omega
    · exact hpos

/-- In the runs of an established connection, whoever uses it, every functor of `send` or `shutdown`
is queued for and runs on an object with a strong reference exactly when the last reference is never
released while such a functor is exposed. -/
theorem functors_alive_iff {c : TcpConnection} {base : Thread} {holders : List Thread}
    {strings : Cell → Option Bytes} {es : List Event} {t : State}
    (hrun : Run step (State.start c base holders strings) es t) :
    AllAlong step (State.start c base holders strings) es FunctorsAlive ↔
      RunWithin step KeepsLast (State.start c base holders strings) es t := by
  have hinv : Inv (State.start c base holders strings) :=
    ⟨fun id hid => absurd rfl hid, fun _ => rfl, fun hin => nomatch hin⟩
  have hstart : FunctorsAlive (State.start c base holders strings) := by
    rintro (⟨f, hf, -⟩ | ⟨f, hf, -⟩ | ⟨f, hf, -⟩) <;> cases hf
  exact allAlong_iff_runWithin (I := Inv)
    (fun s e t hs halive hstep => ⟨step_alive_iff hs halive hstep, fun _ => step_inv hs hstep⟩)
    hrun hinv hstart

set_option maxRecDepth 20000 in
/-- A message is queued and the pointer dropped while the connection is in the map; the connection is
closed and removed, and the message is written in the batch that holds `connectDestroyed`. -/
theorem functors_alive_dropped :
    AllAlong step (State.start freshConnection (.other 0) [.other 1] (fun _ => some [65]))
      [.sendTest (.other 1) (.string 0), .sendRun (.other 1) (.wrote 0), .drop (.other 1),
        .handleEvent, .handleClose, .closeCallback, .endEvent, .removeConnectionInLoop, .endRemovals,
        .doPendingFunctors, .beginFunctor, .runFunctor (.wrote 1)] FunctorsAlive := by
  have hwithin : ∃ t, RunWithin step KeepsLast
      (State.start freshConnection (.other 0) [.other 1] (fun _ => some [65]))
      [.sendTest (.other 1) (.string 0), .sendRun (.other 1) (.wrote 0), .drop (.other 1),
        .handleEvent, .handleClose, .closeCallback, .endEvent, .removeConnectionInLoop, .endRemovals,
        .doPendingFunctors, .beginFunctor, .runFunctor (.wrote 1)] t := by
    refine ⟨_, .cons ?_ rfl (.cons ?_ rfl (.cons ?_ rfl (.cons ?_ rfl (.cons ?_ rfl (.cons ?_ rfl
      (.cons ?_ rfl (.cons ?_ rfl (.cons ?_ rfl (.cons ?_ rfl (.cons ?_ rfl (.cons ?_ rfl
        (.nil _))))))))))))⟩
    all_goals exact fun _ => by decide
  obtain ⟨t, hwithin⟩ := hwithin
  exact (functors_alive_iff hwithin.toRun).2 hwithin

/-- A `send` finds `kConnected`; the connection is closed, removed and destroyed before the functor is
queued, and the thread drops its pointer before the functor runs. -/
theorem not_functors_alive :
    ¬ ∀ (c : TcpConnection) (base : Thread) (holders : List Thread) (strings : Cell → Option Bytes)
      (es : List Event) (s : State), Run step (State.start c base holders strings) es s →
      ∀ f, s.running = some (.functor f) → f.owns = false → 0 < s.strong := by
  intro hall
  obtain ⟨s, hexec, hrunning, hzero⟩ : ∃ s,
      exec step (State.start freshConnection (.other 0) [.other 1] (fun _ => some [65]))
        [.sendTest (.other 1) (.string 0), .handleEvent, .handleClose, .closeCallback, .endEvent,
          .removeConnectionInLoop, .endRemovals, .doPendingFunctors, .beginFunctor,
          .runFunctor (.wrote 0), .endDestroyed, .endFunctors, .sendRun (.other 1) (.wrote 0),
          .drop (.other 1), .doPendingFunctors, .beginFunctor] = some s ∧
      s.running = some (.functor (.sendInLoop (.chars (.other 1, 0) 1) [65])) ∧ s.strong = 0 :=
    ⟨_, rfl, rfl, rfl⟩
  have halive := hall _ _ _ _ _ s (run_of_exec hexec) _ hrunning rfl
  omega

end SharedConnection
end MyServer
end MyCppCode
