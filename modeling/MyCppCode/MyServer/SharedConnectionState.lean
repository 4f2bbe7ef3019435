import MyCppCode.MyServer.SharedConnection
import MyCppCode.MyServer.TcpConnectionStream

/-!
# SharedConnectionState — when `kDisconnected` is the last value of `m_state`

`shutdown()` loads `m_state`, finds `kConnected`, and stores `kDisconnecting` in a second step.  Between
the two the loop thread may store `kDisconnected`, and the store of `shutdown()` then takes it back.
-/

namespace MyCppCode
namespace MyServer
namespace SharedConnection

open Foundation
open EventLoop (Thread)
open TcpConnection (freshConnection)

variable {s s' : State} {e : Event}

/-- The event stores `kDisconnected`: `handleClose`, reached from the channel or from a read that
returns zero, and `connectDestroyed` after it has found `kConnected`. -/
def Event.StoresDisconnected : Event → Prop
  | .handleClose => True
  | .handleRead r => r = .delivered []
  | .destroyStore => True
  | _ => False

/-- `kDisconnected` is not stored while a `shutdown()` stands between its test and its store. -/
def NoShutdownBetween (s : State) (e : Event) : Prop :=
  e.StoresDisconnected → ∀ t, s.calls t ≠ .shutdownTested

/-! ## What a step does to `m_state` -/

/-- The three ways in which a step treats `m_state`. -/
inductive Stores (s : State) (e : Event) (s' : State) : Prop
  | nothing (h : s'.conn.state = s.conn.state)
  | disconnected (he : e.StoresDisconnected) (h : s'.conn.state = .kDisconnected)
  | disconnecting {t : Thread} (ht : s.calls t = .shutdownTested)
      (h : s'.conn.state = .kDisconnecting)

theorem step_stores (h : step s e = some s') : Stores s e s' := by
  cases step_moves h with
  | shutdownStore htested => exact .disconnecting htested rfl
  | handleRead hat hread =>
      rename_i r c done
      by_cases hr : r = .delivered []
      · subst hr
        exact .disconnected rfl (TcpConnection.handleRead_nil hread).1
      · exact .nothing (TcpConnection.handleRead_of_ne_nil hr hread).1
  | handleClose hat => exact .disconnected trivial rfl
  | destroyStore => exact .disconnected trivial rfl
  | handleWrite => exact .nothing (TcpConnection.handleWrite_state _ _)
  | sendRun hcall hstate hfs houtcome => exact .nothing hstate
  | runSend hrun hstate hfs houtcome => exact .nothing hstate
  | _ => exact .nothing rfl

/-- Thread `u` goes on to a call that is not between the test and the store. -/
theorem tested_of_setCall {t u : Thread} {call : Call} (hcall : call ≠ .shutdownTested)
    (ht : (s.setCall u call).calls t = .shutdownTested) : s.calls t = .shutdownTested := by
  simp only [State.setCall] at ht
  by_cases htu : t = u
  · subst htu
    rw [Function.update_self] at ht
    exact absurd ht hcall
  · rwa [Function.update_of_ne htu] at ht

/-- A `shutdown()` comes to stand between its test and its store only where it finds `kConnected`. -/
theorem step_tested (h : step s e = some s') {t : Thread} (ht : s'.calls t = .shutdownTested) :
    s.calls t = .shutdownTested ∨ s'.conn.state = .kConnected := by
  cases step_moves h with
  | shutdownTest hmay hconn => exact .inr hconn
  | sendTest hcontent hmay => exact .inl (tested_of_setCall (by simp) ht)
  | sendRun hcall hstate hfs houtcome => exact .inl (tested_of_setCall (by simp) ht)
  | sendPush hcall hbind => exact .inl (tested_of_setCall (by simp) ht)
  | shutdownStore htested => exact .inl (tested_of_setCall (by simp) ht)
  | shutdownRun => exact .inl (tested_of_setCall (by simp) ht)
  | shutdownPush hstored => exact .inl (tested_of_setCall (by simp) ht)
  | _ => exact .inl ht

/-- An event that stores `kDisconnected` leaves every call where it is. -/
theorem StoresDisconnected.step_eq (he : e.StoresDisconnected) (h : step s e = some s') :
    s'.conn.state = .kDisconnected ∧ s'.calls = s.calls := by
  cases step_moves h with
  | handleRead hat hread =>
      cases he
      exact ⟨(TcpConnection.handleRead_nil hread).1, rfl⟩
  | handleClose hat => exact ⟨rfl, rfl⟩
  | destroyStore => exact ⟨rfl, rfl⟩
  | _ => exact he.elim

/-! ## Runs -/

/-- From here on `m_state` keeps the value `kDisconnected`, if it has it. -/
def Final (s : State) : Prop :=
  s.conn.state = .kDisconnected →
    ∀ es t, Run step s es t → t.conn.state = .kDisconnected

/-- If the connection is disconnected, no store of `shutdown()` is on its way. -/
def Settled (s : State) : Prop :=
  s.conn.state = .kDisconnected → ∀ t, s.calls t ≠ .shutdownTested

theorem step_disconnected (hs : Settled s) (hstate : s.conn.state = .kDisconnected)
    (h : step s e = some s') : s'.conn.state = .kDisconnected ∧ Settled s' := by
  have hstate' : s'.conn.state = .kDisconnected := by
    cases step_stores h with
    | nothing hsame => exact hsame.trans hstate
    | disconnected _ hclosed => exact hclosed
    | disconnecting ht _ => exact absurd ht (hs hstate _)
  refine ⟨hstate', ?_⟩
  intro _ t ht
  rcases step_tested h ht with hbefore | hconn
  · exact hs hstate t hbefore
  · exact absurd (hstate'.symm.trans hconn) (by decide)

theorem final_iff_settled : Final s ↔ Settled s := by
  constructor
  · intro hfinal hstate t ht
    -- The store that is on its way can be made at once.
    have hstep : step s (.shutdownStore t) = some
        { s.setCall t .shutdownStored with conn := { s.conn with state := .kDisconnecting } } := by
      simp only [step, if_pos ht]
    have hback := hfinal hstate _ _ (Run.cons hstep (Run.nil _))
    cases hback
  · intro hs hstate es t hrun
    have hkept : t.conn.state = .kDisconnected ∧ Settled t :=
      hrun.invariant (I := fun s => s.conn.state = .kDisconnected ∧ Settled s)
        (fun _ _ _ hI hstep => step_disconnected hI.2 hI.1 hstep) ⟨hstate, hs⟩
    exact hkept.1

theorem step_settled_iff (hs : Settled s) (h : step s e = some s') :
    Settled s' ↔ NoShutdownBetween s e := by
  constructor
  · intro hs' he t ht
    obtain ⟨hstate', hcalls⟩ := StoresDisconnected.step_eq he h
    exact hs' hstate' t (by rw [hcalls, ht])
  · intro hok hstate' t ht
    rcases step_tested h ht with hbefore | hconn
    · cases step_stores h with
      | nothing hsame => exact hs (hsame.symm.trans hstate') t hbefore
      | disconnected he _ => exact hok he t hbefore
      | disconnecting _ hstore => exact absurd (hstate'.symm.trans hstore) (by decide)
    · exact absurd (hstate'.symm.trans hconn) (by decide)

/-- In the runs of an established connection, whichever threads call `send` and `shutdown`,
`kDisconnected` is final in every state that is reached exactly when it is never stored while a
`shutdown()` stands between its test and its store. -/
theorem disconnected_final_iff {c : TcpConnection} {base : Thread} {holders : List Thread}
    {strings : Cell → Option Bytes} {es : List Event} {t : State}
    (hrun : Run step (State.start c base holders strings) es t) :
    AllAlong step (State.start c base holders strings) es Final ↔
      RunWithin step NoShutdownBetween (State.start c base holders strings) es t := by
  have hstart : Settled (State.start c base holders strings) := fun h => nomatch h
  -- Finality is about all continuations, but it can be read off the calls.
  have hfinal : Final = Settled := funext fun s => propext final_iff_settled
  rw [hfinal]
  exact allAlong_iff_runWithin (I := fun _ => True)
    (fun s e t _ hs hstep => ⟨step_settled_iff hs hstep, fun _ => trivial⟩) hrun trivial hstart

set_option maxRecDepth 20000 in
/-- Another thread calls `shutdown()` and is done before the peer closes: the two stores come in the
order of the states. -/
theorem disconnected_final_afterShutdown :
    AllAlong step (State.start freshConnection (.other 0) [.other 1] (fun _ => none))
      [.shutdownTest (.other 1), .shutdownStore (.other 1), .shutdownRun (.other 1), .handleEvent,
        .handleRead (.delivered [])] Final := by
  have hwithin : ∃ t, RunWithin step NoShutdownBetween
      (State.start freshConnection (.other 0) [.other 1] (fun _ => none))
      [.shutdownTest (.other 1), .shutdownStore (.other 1), .shutdownRun (.other 1), .handleEvent,
        .handleRead (.delivered [])] t := by
    refine ⟨_, .cons ?_ rfl (.cons ?_ rfl (.cons ?_ rfl (.cons ?_ rfl (.cons ?_ rfl (.nil _)))))⟩
    · exact fun he => he.elim
    · exact fun he => he.elim
    · exact fun he => he.elim
    · exact fun he => he.elim
    · intro _ t ht
      rcases t with _ | _ | _ | id <;> cases ht
  obtain ⟨t, hwithin⟩ := hwithin
  exact (disconnected_final_iff hwithin.toRun).2 hwithin

/-- The peer closes between the test and the store of a `shutdown()` on another thread: `m_state` goes
from `kDisconnected` back to `kDisconnecting`. -/
theorem not_disconnected_final :
    ¬ ∀ (c : TcpConnection) (base : Thread) (holders : List Thread) (strings : Cell → Option Bytes)
      (es fs : List Event) (s t : State), Run step (State.start c base holders strings) es s →
      s.conn.state = .kDisconnected → Run step s fs t → t.conn.state = .kDisconnected := by
  intro hall
  obtain ⟨s, hexec, hstate, t, hexec', hback⟩ : ∃ s,
      exec step (State.start freshConnection (.other 0) [.other 1] (fun _ => none))
        [.shutdownTest (.other 1), .handleEvent, .handleClose] = some s ∧
      s.conn.state = .kDisconnected ∧
      ∃ t, exec step s [.shutdownStore (.other 1)] = some t ∧ t.conn.state = .kDisconnecting :=
    ⟨_, rfl, rfl, _, rfl, rfl⟩
  have hfinal := hall _ _ _ _ _ _ s t (run_of_exec hexec) hstate (run_of_exec hexec')
  exact absurd (hfinal.symm.trans hback) (by decide)

end SharedConnection
end MyServer
end MyCppCode
