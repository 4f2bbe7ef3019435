import MyCppCode.Foundation.TransitionSystem
import MyCppCode.MyServer.HttpServer

/-!
# HttpServerOnce — one response in the life of a connection

Every answer of `onMessage` is followed by `shutdown`, and `send` passes nothing on once the connection
is not `kConnected` any more.  So a call either hands nothing to `sendInLoop` or hands one response and
ends the sending (`RepliesOnce`); calls of this kind compose, in any number.
-/

namespace MyCppCode
namespace MyServer

open Foundation

namespace HttpServer

/-! ## What happens on the loop thread -/

/-- What the loop thread does with a connection.  A callback with a state of its own may act
differently in every call, so every chunk comes with what the callback does to it. -/
inductive ServerEvent
  | readable (httpCallback : HttpCallback) (d : Delivery)
  | readFailed (errno : Int)
  | writable (w : WriteResult)
  | closed
  | destroyed

/-- The HTTP callback does not clear the close flag of the response. -/
def ServerEvent.KeepsClose : ServerEvent → Prop
  | .readable httpCallback _ =>
      ∀ req resp, resp.closeConnection = true → (httpCallback req resp).closeConnection = true
  | _ => True

/-- One event; `none` if the call does not return. -/
def serve (s : Session) : ServerEvent → Option Session
  | .readable httpCallback d =>
      match handleRead httpCallback d s with
      | .ok _ s' => some s'
      | .error _ _ => none
  | .readFailed errno =>
      match s.conn.handleRead (.error errno) with
      | .ok (conn, _) => some { s with conn := conn }
      | .error _ => none
  | .writable w => some { s with conn := (s.conn.handleWrite w).1 }
  | .closed => some { s with conn := s.conn.handleClose.1 }
  | .destroyed => some { s with conn := s.conn.connectDestroyed.1 }

/-- The 400 line, or a serialized response. -/
def IsResponse (msg : Bytes) : Prop :=
  msg = badRequest ∨
    ∃ httpCallback req buf, serialize httpCallback req = .ok buf ∧ msg = buf.readable

/-! ## At most one response -/

/-- Between the two sessions at most one response was handed to `sendInLoop`, and with it the
connection stopped being connected. -/
inductive RepliesOnce (s s' : Session) : Prop
  | silent :
      s'.handed = s.handed → (s'.conn.state = .kConnected → s.conn.state = .kConnected) →
        RepliesOnce s s'
  | replied (msg : Bytes) :
      IsResponse msg → s.conn.state = .kConnected → s'.handed = s.handed ++ [msg] →
        s'.conn.state ≠ .kConnected → RepliesOnce s s'

variable {s s' s'' : Session}

theorem RepliesOnce.refl (s : Session) : RepliesOnce s s :=
  .silent rfl id

theorem RepliesOnce.trans (h : RepliesOnce s s') (h' : RepliesOnce s' s'') : RepliesOnce s s'' := by
  cases h with
  | silent hhanded hstate =>
      cases h' with
      | silent hhanded' hstate' =>
          exact .silent (hhanded'.trans hhanded) fun h => hstate (hstate' h)
      | replied msg hmsg hconn hhanded' hclosed =>
          exact .replied msg hmsg (hstate hconn) (by rw [hhanded', hhanded]) hclosed
  | replied msg hmsg hconn hhanded hclosed =>
      -- The sending has ended, so the second half is silent.
      cases h' with
      | silent hhanded' hstate' =>
          exact .replied msg hmsg hconn (hhanded'.trans hhanded) fun h => hclosed (hstate' h)
      | replied msg' _ hconn' _ _ => exact absurd hconn' hclosed

/-- Once the connection is not connected, nothing more is handed over. -/
theorem RepliesOnce.silent_of_not_connected (h : RepliesOnce s s')
    (hs : s.conn.state ≠ .kConnected) : s'.handed = s.handed ∧ s'.conn.state ≠ .kConnected := by
  cases h with
  | silent hhanded hstate => exact ⟨hhanded, fun h => hs (hstate h)⟩
  | replied msg _ hconn _ _ => exact absurd hconn hs

/-! ## The functions of the server -/

/-- A sequence of two calls that returned: the first one did. -/
theorem bind_returned {α β : Type} {x : Serving α} {f : α → Serving β} {b : β}
    (h : (x >>= f) s = .ok b s'') : ∃ a s', x s = .ok a s' ∧ f a s' = .ok b s'' := by
  cases hx : x s with
  | ok a s' => exact ⟨a, s', rfl, (bind_ok hx f).symm.trans h⟩
  | error e s' =>
      rw [bind_error hx] at h
      cases h

theorem call_returned {α : Type} {x : Except Halt α} {a : α} (h : call x s = .ok a s') :
    x = .ok a ∧ s = s' := by
  cases x with
  | error e => cases h
  | ok b =>
      cases h
      exact ⟨rfl, rfl⟩

/-- The messages that were handed over after `msg` was given to `send`. -/
def handedWith (s : Session) (msg : Bytes) : List Bytes :=
  if s.conn.state = .kConnected then s.handed ++ [msg] else s.handed

/-- The common end of the two `send` functions: record the message, pass it on, store the object. -/
theorem passOn_returned {α : Type} {msg : Bytes} {x : Except Halt α} (conn : α → TcpConnection)
    (hstate : ∀ a, x = .ok a → (conn a).state = s.conn.state)
    (h : (do
        when (s.conn.state = .kConnected) do
          modify fun s => { s with handed := s.handed ++ [msg] }
        let a ← call x
        modify fun s => { s with conn := conn a } : Serving Unit) s = .ok () s') :
    s'.conn.state = s.conn.state ∧ s'.handed = handedWith s msg := by
  obtain ⟨_, s₁, hrecord, h⟩ := bind_returned h
  obtain ⟨a, s₂, hcall, hstore⟩ := bind_returned h
  obtain ⟨hx, rfl⟩ := call_returned hcall
  cases hstore
  refine ⟨hstate a hx, ?_⟩
  unfold when at hrecord
  unfold handedWith
  split at hrecord
  · rename_i hconn
    cases hrecord
    rw [if_pos hconn]
  · rename_i hconn
    cases hrecord
    rw [if_neg hconn]

theorem send_returned {msg : Bytes} {w : WriteResult} (h : send msg w s = .ok () s') :
    s'.conn.state = s.conn.state ∧ s'.handed = handedWith s msg := by
  refine passOn_returned Prod.fst ?_ h
  rintro ⟨conn, effects⟩ hsend
  unfold TcpConnection.send at hsend
  split at hsend
  · exact TcpConnection.sendInLoop_state hsend
  · cases hsend
    rfl

theorem sendBuffer_returned {buf : Buffer} {w : WriteResult} (h : sendBuffer buf w s = .ok () s') :
    s'.conn.state = s.conn.state ∧ s'.handed = handedWith s buf.readable := by
  refine passOn_returned Prod.fst ?_ h
  rintro ⟨conn, buf', effects⟩ hsend
  unfold TcpConnection.sendBuffer at hsend
  split at hsend
  · obtain ⟨data, -, hsend⟩ := bind_eq_ok hsend
    obtain ⟨⟨conn', done⟩, hsend, hret⟩ := bind_eq_ok hsend
    cases hret
    exact TcpConnection.sendInLoop_state hsend
  · cases hsend
    rfl

theorem shutdown_returned (h : shutdown s = .ok () s') :
    s'.conn.state ≠ .kConnected ∧ s'.handed = s.handed := by
  cases h
  refine ⟨?_, rfl⟩
  change s.conn.shutdown.1.state ≠ .kConnected
  unfold TcpConnection.shutdown
  split
  · exact fun h => (nomatch h)
  · assumption

/-- A response and the `shutdown` behind it. -/
theorem repliesOnce_of_closed {msg : Bytes} (hmsg : IsResponse msg)
    (hhanded : s'.handed = handedWith s msg) (hclosed : s'.conn.state ≠ .kConnected) :
    RepliesOnce s s' := by
  unfold handedWith at hhanded
  split at hhanded
  · exact .replied msg hmsg ‹_› hhanded hclosed
  · exact .silent hhanded fun h => absurd h hclosed

theorem repliesOnce_badRequest {w : WriteResult}
    (h : (do send badRequest w; shutdown : Serving Unit) s = .ok () s') : RepliesOnce s s' := by
  obtain ⟨_, s₁, hsend, hshutdown⟩ := bind_returned h
  obtain ⟨-, hhanded⟩ := send_returned hsend
  obtain ⟨hclosed, hsame⟩ := shutdown_returned hshutdown
  exact repliesOnce_of_closed (.inl rfl) (hsame.trans hhanded) hclosed

variable {httpCallback : HttpCallback}

theorem repliesOnce_onRequest {req : HttpRequest} {w : WriteResult}
    (hcb : ∀ req resp, resp.closeConnection = true → (httpCallback req resp).closeConnection = true)
    (h : onRequest httpCallback req w s = .ok () s') : RepliesOnce s s' := by
  obtain ⟨_, s₁, hrequest, h⟩ := bind_returned h
  cases hrequest
  obtain ⟨buf, s₂, hcall, h⟩ := bind_returned h
  obtain ⟨hserialize, rfl⟩ := call_returned hcall
  obtain ⟨_, s₃, hsend, h⟩ := bind_returned h
  obtain ⟨-, hhanded⟩ := sendBuffer_returned hsend
  -- The response was made with the flag set, and the callback has kept it.
  have hclose : (httpCallback req (HttpResponse.new true)).closeConnection = true := hcb _ _ rfl
  rw [when, if_pos hclose] at h
  obtain ⟨hclosed, hsame⟩ := shutdown_returned h
  exact repliesOnce_of_closed (.inr ⟨httpCallback, req, buf, hserialize, rfl⟩)
    (hsame.trans hhanded) hclosed

/-! ## The result flag of the parser -/

/-- The parser has left its first state only with a result that says so. -/
def Flagged (p : HttpContext.Progress) : Prop :=
  p.ok = true ∨ p.context.state = .kExpectRequestLine

theorem parseIteration_flagged {p : HttpContext.Progress} (receiveTime : Int) (h : Flagged p) :
    Flagged (HttpContext.parseIteration receiveTime p) := by
  unfold HttpContext.parseIteration Flagged at *
  cases hstate : p.context.state with
  | kExpectRequestLine =>
      simp only
      split
      · split
        · exact .inl rfl
        · exact .inr hstate
      · exact .inr hstate
  | kExpectHeaders =>
      have hok : p.ok = true := h.resolve_right (by simp [hstate])
      simp only
      split
      · split <;> exact .inl hok
      · exact .inl hok
  | kExpectBody => exact h
  | kGotAll => exact h

theorem parseLoop_flagged {p p' : HttpContext.Progress} {receiveTime : Int} {fuel : Nat}
    (hloop : HttpContext.parseLoop receiveTime fuel p = some p') (h : Flagged p) : Flagged p' := by
  induction fuel generalizing p with
  | zero =>
      unfold HttpContext.parseLoop at hloop
      split at hloop
      · cases hloop
      · cases hloop
        exact h
  | succ fuel ih =>
      unfold HttpContext.parseLoop at hloop
      split at hloop
      · exact ih hloop (parseIteration_flagged receiveTime h)
      · cases hloop
        exact h

/-- A fresh context that reports failure has not got everything: `onMessage` does not take both of its
branches. -/
theorem isGotAll_of_not_ok {b b' : Buffer} {receiveTime : Int} {context : HttpContext}
    (h : HttpContext.new.parseRequest b receiveTime = .ok (false, context, b')) :
    context.isGotAll = false := by
  unfold HttpContext.parseRequest at h
  simp only at h
  split at h
  · rename_i p hloop
    obtain ⟨hok, rfl, -⟩ : p.ok = false ∧ p.context = context ∧ p.buffer = b' := by simpa using h
    have hflag : Flagged p := parseLoop_flagged hloop (.inr rfl)
    have hstate := hflag.resolve_left (by simp [hok])
    simp [HttpContext.isGotAll, hstate]
  · cases h

/-! ## Whole calls and whole lives -/

theorem repliesOnce_onMessage {receiveTime : Int} {w : WriteResult}
    (hcb : ∀ req resp, resp.closeConnection = true → (httpCallback req resp).closeConnection = true)
    (h : onMessage httpCallback receiveTime w s = .ok () s') : RepliesOnce s s' := by
  obtain ⟨_, s₁, hget, h⟩ := bind_returned h
  cases hget
  obtain ⟨⟨ok, context, inputBuffer⟩, s₂, hcall, h⟩ := bind_returned h
  obtain ⟨hparse, rfl⟩ := call_returned hcall
  simp only at h
  obtain ⟨_, s₃, hstore, h⟩ := bind_returned h
  have hinput : RepliesOnce s s₃ := by
    cases hstore
    exact .silent rfl id
  obtain ⟨_, s₄, hfailed, hgot⟩ := bind_returned h
  refine hinput.trans ?_
  cases ok with
  | false =>
      -- The 400 line: the second branch is not taken.
      have hnot : ¬ context.isGotAll = true := by simp [isGotAll_of_not_ok hparse]
      rw [when, if_pos rfl] at hfailed
      rw [when, if_neg hnot] at hgot
      cases hgot
      exact repliesOnce_badRequest hfailed
  | true =>
      rw [when, if_neg (by decide)] at hfailed
      cases hfailed
      unfold when at hgot
      split at hgot
      · exact repliesOnce_onRequest hcb hgot
      · cases hgot
        exact RepliesOnce.refl _

theorem connection_handleRead_state {c c' : TcpConnection} {r : Readv} {effects : List Effect}
    (h : c.handleRead r = .ok (c', effects)) :
    c'.state = .kConnected → c.state = .kConnected := by
  intro hconn
  by_cases hr : r = .delivered []
  · subst hr
    have hclosed := (TcpConnection.handleRead_nil h).1
    exact absurd (hclosed.symm.trans hconn) (by decide)
  · have hsame := (TcpConnection.handleRead_of_ne_nil hr h).1
    exact hsame.symm.trans hconn

theorem repliesOnce_handleRead {d : Delivery}
    (hcb : ∀ req resp, resp.closeConnection = true → (httpCallback req resp).closeConnection = true)
    (h : handleRead httpCallback d s = .ok () s') : RepliesOnce s s' := by
  obtain ⟨_, s₁, hget, h⟩ := bind_returned h
  cases hget
  obtain ⟨⟨conn, effects⟩, s₂, hcall, h⟩ := bind_returned h
  obtain ⟨hread, rfl⟩ := call_returned hcall
  simp only at h
  obtain ⟨_, s₃, hstore, h⟩ := bind_returned h
  have hconn : RepliesOnce s s₃ := by
    cases hstore
    exact .silent rfl (connection_handleRead_state hread)
  refine hconn.trans ?_
  unfold when at h
  split at h
  · exact repliesOnce_onMessage hcb h
  · cases h
    exact RepliesOnce.refl _

theorem serve_repliesOnce {e : ServerEvent} (hcb : e.KeepsClose) (h : serve s e = some s') :
    RepliesOnce s s' := by
  cases e with
  | readable httpCallback d =>
      simp only [serve] at h
      split at h
      · rename_i s₁ hread
        cases h
        exact repliesOnce_handleRead hcb hread
      · cases h
  | readFailed errno =>
      simp only [serve] at h
      split at h
      · rename_i conn effects hread
        cases h
        exact .silent rfl (connection_handleRead_state hread)
      · cases h
  | writable w =>
      cases h
      refine .silent rfl fun h => ?_
      rwa [← TcpConnection.handleWrite_state s.conn w]
  | closed =>
      cases h
      exact .silent rfl fun h => (nomatch h)
  | destroyed =>
      cases h
      refine .silent rfl fun h => ?_
      change s.conn.connectDestroyed.1.state = .kConnected at h
      unfold TcpConnection.connectDestroyed at h
      split at h
      · cases h
      · exact h

theorem run_repliesOnce {es : List ServerEvent} (hcb : ∀ e ∈ es, e.KeepsClose)
    (h : Run serve s es s') : RepliesOnce s s' := by
  induction h with
  | nil s => exact RepliesOnce.refl s
  | cons hstep _ ih =>
      exact (serve_repliesOnce (hcb _ (by simp)) hstep).trans (ih fun e he => hcb e (by simp [he]))

/-- Over the life of a connection at most one response is handed to `sendInLoop`; from then on the
connection is not connected, and nothing more is handed over. -/
theorem responds_at_most_once {c : TcpConnection} {es fs : List ServerEvent}
    (hcb : ∀ e ∈ es ++ fs, e.KeepsClose) (hes : Run serve (Session.new c) es s)
    (hfs : Run serve s fs s') :
    s.handed.length ≤ 1 ∧ (∀ msg ∈ s.handed, IsResponse msg) ∧
      (s.handed ≠ [] → s.conn.state ≠ .kConnected ∧ s'.handed = s.handed) := by
  have hfirst := run_repliesOnce (fun e he => hcb e (by simp [he])) hes
  have hsecond := run_repliesOnce (fun e he => hcb e (by simp [he])) hfs
  cases hfirst with
  | silent hhanded hstate =>
      have hnil : s.handed = [] := hhanded
      simp [hnil]
  | replied msg hmsg _ hhanded hclosed =>
      have hone : s.handed = [msg] := hhanded
      refine ⟨by simp [hone], by simpa [hone] using hmsg, fun _ => ⟨hclosed, ?_⟩⟩
      exact (hsecond.silent_of_not_connected hclosed).1

/-- A chunk of which the socket takes ten bytes of the answer. -/
def requests (data : String) : ServerEvent :=
  .readable defaultHttpCallback
    { data := ascii data
      receiveTime := 0
      written := .wrote 10 }

set_option maxRecDepth 20000 in
/-- Two requests in one chunk, the rest of the answer, and a third request: one response. -/
theorem responds_once_pipelined :
    ∃ c s s', TcpConnection.new 5 = .ok c ∧
      Run serve (Session.new c.connectEstablished.1)
        [requests "GET / HTTP/1.1\r\n\r\nGET / HTTP/1.1\r\n\r\n"] s ∧
      Run serve s [.writable (.wrote 20), requests "GET / HTTP/1.1\r\n\r\n"] s' ∧
      s.handed ≠ [] ∧ s.handed.length ≤ 1 ∧ s.conn.state ≠ .kConnected ∧ s'.handed = s.handed := by
  obtain ⟨c, s, s', hc, hexec, hexec', hne⟩ :
      ∃ c s s', TcpConnection.new 5 = .ok c ∧
        exec serve (Session.new c.connectEstablished.1)
          [requests "GET / HTTP/1.1\r\n\r\nGET / HTTP/1.1\r\n\r\n"] = some s ∧
        exec serve s [.writable (.wrote 20), requests "GET / HTTP/1.1\r\n\r\n"] = some s' ∧
        s.handed ≠ [] :=
    ⟨_, _, _, rfl, rfl, rfl, fun h => (nomatch h)⟩
  have hcb : ∀ data, (requests data).KeepsClose := fun data req resp _ => rfl
  have hwritable : (ServerEvent.writable (.wrote 20)).KeepsClose := trivial
  obtain ⟨hone, -, hafter⟩ := responds_at_most_once (by simp [hcb, hwritable])
    (run_of_exec hexec) (run_of_exec hexec')
  exact ⟨c, s, s', hc, run_of_exec hexec, run_of_exec hexec', hne, hone, hafter hne⟩

end HttpServer

end MyServer
end MyCppCode
