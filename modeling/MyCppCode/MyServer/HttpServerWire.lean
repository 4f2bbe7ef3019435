import MyCppCode.MyServer.HttpServerChunks
import MyCppCode.MyServer.TcpConnectionStream

/-!
# HttpServerWire — a served connection together with its socket

`HttpServer` follows the callbacks and `TcpConnectionStream` the socket.  Here the two run together: a
wire is a connection with the actions on its socket, and its events are chunks that arrive and reports
that the socket is writable.

`Wire.handleRead_agrees`: without its trace, a wire does what `HttpServer.handleRead` does.
-/

namespace MyCppCode
namespace MyServer
namespace HttpServer

open Foundation

/-! ## The connection and its socket -/

/-- What `::write` answers to the bytes it is given, while the peer is there. -/
abbrev Answer := (data : Bytes) → { w : WriteResult // w.Allowed data.length }

/-- A connection with what it did on its socket, and what its server did. -/
structure Wire where
  out : TcpConnection.Session
  requests : List HttpRequest
  handed : List Bytes

namespace Wire

def start (c : TcpConnection) : Wire :=
  { out := TcpConnection.Session.start c
    requests := []
    handed := [] }

/-- The wire without its trace. -/
def session (x : Wire) : Session :=
  { conn := x.out.conn
    requests := x.requests
    handed := x.handed }

/-- Record what `send` did. -/
def sendDone (x : Wire) (msg : Bytes) (r : TcpConnection × List Effect) : Wire :=
  { x with
    out := x.out.sendDone msg r
    handed := if x.out.conn.state = .kConnected then x.handed ++ [msg] else x.handed }

/-- `conn->send(const std::string&)`. -/
def send (x : Wire) (msg : Bytes) (w : Answer) : Except Halt Wire := do
  let r ← x.out.conn.send msg (w msg).1
  return x.sendDone msg r

/-- `conn->send(Buffer*)`. -/
def sendBuffer (x : Wire) (buf : Buffer) (w : Answer) : Except Halt Wire := do
  let (conn, _, done) ← x.out.conn.sendBuffer buf (w buf.readable).1
  return x.sendDone buf.readable (conn, done)

/-- `conn->shutdown()`. -/
def shutdown (x : Wire) : Wire :=
  { x with
    out :=
      { x.out with
        conn := x.out.conn.shutdown.1
        trace := x.out.trace ++ x.out.conn.shutdown.2
        shutdownCalled := true } }

/-- The 400 line, and the half-close. -/
def refuse (x : Wire) (w : Answer) : Except Halt Wire := do
  let x ← x.send badRequest w
  return x.shutdown

def onRequest (httpCallback : HttpCallback) (x : Wire) (req : HttpRequest) (w : Answer) :
    Except Halt Wire := do
  let buf ← serialize httpCallback req
  let x ← sendBuffer { x with requests := x.requests ++ [req] } buf w
  return if (httpCallback req (HttpResponse.new true)).closeConnection then x.shutdown else x

def withInput (x : Wire) (b : Buffer) : Wire :=
  { x with out := { x.out with conn := { x.out.conn with inputBuffer := b } } }

def onMessage (httpCallback : HttpCallback) (x : Wire) (receiveTime : Int) (w : Answer) :
    Except Halt Wire := do
  let (ok, context, inputBuffer) ←
    HttpContext.new.parseRequest x.out.conn.inputBuffer receiveTime
  let x := x.withInput inputBuffer
  let x ← if ok then pure x else x.refuse w
  if context.isGotAll then onRequest httpCallback x context.request w else return x

/-- `TcpConnection::handleRead`, when data have arrived. -/
def handleRead (httpCallback : HttpCallback) (x : Wire) (data : Bytes) (receiveTime : Int)
    (w : Answer) : Except Halt Wire := do
  let (conn, effects) ← x.out.conn.handleRead (.delivered data)
  let x := { x with out := { x.out with conn := conn } }
  if .messageCallback ∈ effects then onMessage httpCallback x receiveTime w else return x

/-- `TcpConnection::handleWrite`. -/
def handleWrite (x : Wire) (w : Answer) : Wire :=
  { x with
    out :=
      { x.out with
        conn := (x.out.conn.handleWrite (w x.out.conn.outputBuffer.readable).1).1
        trace := x.out.trace ++ (x.out.conn.handleWrite (w x.out.conn.outputBuffer.readable).1).2 } }

end Wire

inductive Event
  | chunk (data : Bytes) (receiveTime : Int) (w : Answer)
  | writable (w : Answer)

/-- One event; a chunk is what one `::readv` of `readFd` can deliver. -/
def step (httpCallback : HttpCallback) (x : Wire) : Event → Option Wire
  | .chunk data receiveTime w =>
      if data ≠ [] ∧ data.length ≤ x.out.conn.inputBuffer.readvCapacity then
        (x.handleRead httpCallback data receiveTime w).toOption
      else none
  | .writable w => some (x.handleWrite w)

/-! ## Without the trace, the callbacks of `HttpServer` -/

/-- The same end: a return to the same session, or the same failure. -/
inductive Agrees : Except Halt Wire → EStateM.Result Halt Session Unit → Prop
  | ok (x : Wire) : Agrees (.ok x) (.ok () x.session)
  | error (e : Halt) (s : Session) : Agrees (.error e) (.error e s)

/-- Both go on in the same way. -/
theorem Agrees.bind {y : Except Halt Wire} {z : Serving Unit} {s : Session} (h : Agrees y (z s))
    {f : Wire → Except Halt Wire} {g : Unit → Serving Unit}
    (hfg : ∀ x, Agrees (f x) (g () x.session)) : Agrees (y >>= f) ((z >>= g) s) := by
  generalize hz : z s = r at h
  cases h with
  | ok x =>
      rw [bind_ok hz]
      exact hfg x
  | error e s' =>
      rw [bind_error hz]
      exact .error e s'

/-- A call on the connection, recorded in the session or on the wire. -/
theorem agrees_call {α : Type} {s : Session} (y : Except Halt α) {f : α → Wire}
    {conn : α → TcpConnection} (hf : ∀ a, { s with conn := conn a } = (f a).session) :
    Agrees (y >>= fun a => pure (f a))
      ((call y >>= fun a => modify fun s => { s with conn := conn a }) s) := by
  cases y with
  | error e =>
      rw [bind_error (call_error rfl)]
      exact .error e s
  | ok a =>
      have hset : (modify fun s => { s with conn := conn a } : Serving Unit) s =
          .ok () { s with conn := conn a } := rfl
      rw [bind_ok (call_ok rfl), hset, hf a]
      exact .ok (f a)

namespace Wire

variable {httpCallback : HttpCallback} {x : Wire}

/-- Recording a message, or nothing. -/
theorem when_handed (s : Session) (msg : Bytes) :
    when (s.conn.state = .kConnected) (modify fun s => { s with handed := s.handed ++ [msg] }) s =
      .ok () { s with
        handed := if s.conn.state = .kConnected then s.handed ++ [msg] else s.handed } := by
  unfold when
  split <;> rfl

theorem send_agrees (x : Wire) (msg : Bytes) (w : Answer) :
    Agrees (x.send msg w) (HttpServer.send msg (w msg).1 x.session) := by
  have hget : (get : Serving Session) x.session = .ok x.session x.session := rfl
  unfold HttpServer.send Wire.send
  rw [bind_ok hget, bind_ok (when_handed x.session msg)]
  exact agrees_call (x.out.conn.send msg (w msg).1) fun r => rfl

theorem sendBuffer_agrees (x : Wire) (buf : Buffer) (w : Answer) :
    Agrees (x.sendBuffer buf w) (HttpServer.sendBuffer buf (w buf.readable).1 x.session) := by
  have hget : (get : Serving Session) x.session = .ok x.session x.session := rfl
  unfold HttpServer.sendBuffer Wire.sendBuffer
  rw [bind_ok hget, bind_ok (when_handed x.session buf.readable)]
  exact agrees_call (x.out.conn.sendBuffer buf (w buf.readable).1) fun r => rfl

theorem shutdown_agrees (x : Wire) (c : Prop) [Decidable c] :
    Agrees (pure (if c then x.shutdown else x)) (when c HttpServer.shutdown x.session) := by
  unfold when
  split
  · exact .ok x.shutdown
  · exact .ok x

/-- For some answer of `::write`, for it is reached at most once. -/
theorem onRequest_agrees (httpCallback : HttpCallback) (x : Wire) (req : HttpRequest) (w : Answer) :
    ∃ w', Agrees (x.onRequest httpCallback req w)
      (HttpServer.onRequest httpCallback req w' x.session) := by
  unfold HttpServer.onRequest Wire.onRequest
  have hcalled : (modify fun s => { s with requests := s.requests ++ [req] } : Serving Unit) x.session =
      .ok () { x.session with requests := x.session.requests ++ [req] } := rfl
  cases hbuf : serialize httpCallback req with
  | error e =>
      refine ⟨.wrote 0, ?_⟩
      rw [bind_ok hcalled, bind_error (call_error rfl)]
      exact .error e _
  | ok buf =>
      refine ⟨(w buf.readable).1, ?_⟩
      rw [bind_ok hcalled, bind_ok (call_ok rfl)]
      exact Agrees.bind (sendBuffer_agrees { x with requests := x.requests ++ [req] } buf w)
        fun y => shutdown_agrees y _

/-- `parseRequest` returns false without a complete line only. -/
theorem parseLines_false {receiveTime : Int} {ls left : List Bytes} {context : HttpContext}
    (h : HttpContext.new.parseLines receiveTime ls = .ok (false, context, left)) :
    context.isGotAll = false := by
  cases ls with
  | nil =>
      cases h
      rfl
  | cons l ls =>
      cases hl : (HttpRequest.new.processRequestLine l).1 with
      | false => simp [HttpContext.parseLines, HttpContext.new, hl] at h
      | true => simp [HttpContext.parseLines, HttpContext.new, hl] at h

theorem not_isGotAll {b b' : Buffer} (h : b.Inv) {receiveTime : Int} {context : HttpContext}
    (hparse : HttpContext.new.parseRequest b receiveTime = .ok (false, context, b')) :
    context.isGotAll = false := by
  have hspec := HttpContext.parseRequest_spec HttpContext.new h receiveTime
  cases hlines : HttpContext.new.parseLines receiveTime b.lines.1 with
  | error e =>
      rw [hlines, hparse] at hspec
      cases hspec.2.1
  | ok r =>
      obtain ⟨ok, context', left⟩ := r
      rw [hlines, hparse] at hspec
      obtain ⟨b₁, -, heq⟩ := hspec
      cases heq
      exact parseLines_false hlines

theorem refuse_agrees (x : Wire) (w : Answer) :
    Agrees (x.refuse w)
      ((do HttpServer.send badRequest (w badRequest).1; HttpServer.shutdown : Serving Unit) x.session) :=
  Agrees.bind (send_agrees x badRequest w) fun y => .ok y.shutdown

theorem onMessage_eq {receiveTime : Int} {ok : Bool} {context : HttpContext} {b : Buffer} (w : Answer)
    (h : HttpContext.new.parseRequest x.out.conn.inputBuffer receiveTime = .ok (ok, context, b)) :
    x.onMessage httpCallback receiveTime w =
      (if ok then pure (x.withInput b) else (x.withInput b).refuse w) >>= fun y =>
        if context.isGotAll then y.onRequest httpCallback context.request w else pure y := by
  unfold Wire.onMessage
  rw [h]
  cases ok <;> rfl

theorem onMessage_error {receiveTime : Int} {e : Halt} (w : Answer)
    (h : HttpContext.new.parseRequest x.out.conn.inputBuffer receiveTime = .error e) :
    x.onMessage httpCallback receiveTime w = .error e := by
  unfold Wire.onMessage
  rw [h]
  rfl

theorem when_false (y : Serving Unit) (s : Session) : when (true = false) y s = .ok () s := rfl

/-- A request line is there, and perhaps a whole request. -/
theorem onMessage_agrees_ok (httpCallback : HttpCallback) {receiveTime : Int} {context : HttpContext}
    {b : Buffer} (w : Answer)
    (hparse : HttpContext.new.parseRequest x.out.conn.inputBuffer receiveTime = .ok (true, context, b)) :
    ∃ w', Agrees (x.onMessage httpCallback receiveTime w)
      (HttpServer.onMessage httpCallback receiveTime w' x.session) := by
  obtain ⟨w', hrequest⟩ := onRequest_agrees httpCallback (x.withInput b) context.request w
  refine ⟨w', ?_⟩
  rw [onMessage_eq w hparse, HttpServer.onMessage_eq (s := x.session) httpCallback w' hparse,
    bind_ok (when_false _ _), if_pos rfl, pure_bind, when]
  by_cases hgot : context.isGotAll = true
  · rw [if_pos hgot, if_pos hgot]
    exact hrequest
  · rw [if_neg hgot, if_neg hgot]
    exact .ok (x.withInput b)

theorem onMessage_agrees (httpCallback : HttpCallback) (h : x.out.conn.inputBuffer.Inv)
    (receiveTime : Int) (w : Answer) :
    ∃ w', Agrees (x.onMessage httpCallback receiveTime w)
      (HttpServer.onMessage httpCallback receiveTime w' x.session) := by
  have hget : (get : Serving Session) x.session = .ok x.session x.session := rfl
  cases hparse : HttpContext.new.parseRequest x.session.conn.inputBuffer receiveTime with
  | error e =>
      refine ⟨.wrote 0, ?_⟩
      unfold HttpServer.onMessage
      rw [onMessage_error w hparse, bind_ok hget, bind_error (call_error hparse)]
      exact .error e x.session
  | ok r =>
      obtain ⟨ok, context, b⟩ := r
      cases ok with
      | false =>
          refine ⟨(w badRequest).1, ?_⟩
          rw [onMessage_eq w hparse, HttpServer.onMessage_eq httpCallback _ hparse,
            not_isGotAll h hparse]
          refine Agrees.bind (refuse_agrees (x.withInput b) w) fun y => ?_
          rw [when, if_neg Bool.false_ne_true, if_neg Bool.false_ne_true]
          exact .ok y
      | true => exact onMessage_agrees_ok httpCallback w hparse

theorem conn_handleRead {c : TcpConnection} {data : Bytes} (hne : data ≠ []) {b : Buffer}
    {errno : Option Int}
    (hread : c.inputBuffer.readFd (.delivered data) = .ok ((data.length : Int), errno, b)) :
    c.handleRead (.delivered data) = .ok ({ c with inputBuffer := b }, [.messageCallback]) := by
  have hpos : (0 : Int) < data.length := by
    have := List.length_pos_iff.2 hne
    omega
  unfold TcpConnection.handleRead
  rw [hread]
  exact if_pos hpos

/-- What `readFd` reads goes to `onMessage`. -/
theorem handleRead_eq {data : Bytes} (hne : data ≠ []) {b : Buffer} {errno : Option Int}
    (hread : x.out.conn.inputBuffer.readFd (.delivered data) = .ok ((data.length : Int), errno, b))
    (receiveTime : Int) (w : Answer) :
    x.handleRead httpCallback data receiveTime w =
      (x.withInput b).onMessage httpCallback receiveTime w := by
  have hmem : Effect.messageCallback ∈ [Effect.messageCallback] := List.mem_singleton.2 rfl
  unfold Wire.handleRead
  rw [conn_handleRead hne hread]
  change ite (Effect.messageCallback ∈ [Effect.messageCallback])
    (onMessage httpCallback (x.withInput b) receiveTime w) (pure (x.withInput b)) = _
  exact if_pos hmem

theorem serving_handleRead (httpCallback : HttpCallback) {s : Session} {d : Delivery}
    (hne : d.data ≠ []) {b : Buffer} {errno : Option Int}
    (hread : s.conn.inputBuffer.readFd (.delivered d.data) = .ok ((d.data.length : Int), errno, b)) :
    HttpServer.handleRead httpCallback d s =
      HttpServer.onMessage httpCallback d.receiveTime d.written (HttpServer.withInput s b) := by
  have hget : (get : Serving Session) s = .ok s s := rfl
  have hset : (modify fun s' => { s' with conn := { s.conn with inputBuffer := b } } : Serving Unit) s =
      .ok () (HttpServer.withInput s b) := rfl
  unfold HttpServer.handleRead
  rw [bind_ok hget, bind_ok (call_ok (conn_handleRead hne hread))]
  simp only
  rw [bind_ok hset, when, if_pos (List.mem_singleton.2 rfl)]

/-- Without its trace, a wire takes a chunk as the callbacks of `HttpServer` do. -/
theorem handleRead_agrees (httpCallback : HttpCallback) (h : x.out.conn.inputBuffer.Inv) {data : Bytes}
    (hne : data ≠ []) (hcap : data.length ≤ x.out.conn.inputBuffer.readvCapacity) (receiveTime : Int)
    (w : Answer) :
    ∃ w', Agrees (x.handleRead httpCallback data receiveTime w)
      (HttpServer.handleRead httpCallback
        { data := data, receiveTime := receiveTime, written := w' } x.session) := by
  have hread := Buffer.readFd_spec h hcap
  cases hfd : x.out.conn.inputBuffer.readFd (.delivered data) with
  | error e =>
      have hget : (get : Serving Session) x.session = .ok x.session x.session := rfl
      have hconn : x.session.conn.handleRead (.delivered data) = .error e := by
        change (x.out.conn.inputBuffer.readFd (.delivered data) >>= _) = _
        rw [hfd]
        rfl
      refine ⟨.wrote 0, ?_⟩
      unfold Wire.handleRead HttpServer.handleRead
      change Agrees (x.session.conn.handleRead (.delivered data) >>= _) _
      rw [hconn, bind_ok hget, bind_error (call_error hconn)]
      exact .error e x.session
  | ok r =>
      obtain ⟨n, errno, b⟩ := r
      rw [hfd] at hread
      obtain ⟨hn, -, hinv, -⟩ := hread.of_ok
      simp only at hn hinv
      subst hn
      obtain ⟨w', hagrees⟩ := onMessage_agrees httpCallback (x := x.withInput b) hinv receiveTime w
      refine ⟨w', ?_⟩
      have hserving := serving_handleRead httpCallback (s := x.session)
        (d := { data := data, receiveTime := receiveTime, written := w' }) hne hfd
      rw [handleRead_eq hne hfd, hserving]
      exact hagrees

end Wire

end HttpServer
end MyServer
end MyCppCode
