import MyCppCode.MyServer.HttpContext
import MyCppCode.MyServer.HttpResponse
import MyCppCode.MyServer.TcpConnection

/-!
# HttpServer — one connection between `handleRead` and the HTTP callback

The functions run on the loop thread of the connection, one call after the other.  They are written in
`Serving`: the session is what other calls see afterwards, and it stays as it is at the point where a
call does not return.

The HTTP callback is a function of the request and the response object.  `::write` is reached at most
once in a call of `onMessage`, for `shutdown` follows the 400 line; one answer is enough.
-/

namespace MyCppCode
namespace MyServer

open Foundation

/-- A connection, with the history of what the server did with it. -/
structure Session where
  conn : TcpConnection
  /-- The requests that the HTTP callback was called with. -/
  requests : List HttpRequest
  /-- The messages that `send` passed on to `sendInLoop`. -/
  handed : List Bytes

def Session.new (c : TcpConnection) : Session :=
  { conn := c
    requests := []
    handed := [] }

abbrev Serving := EStateM Halt Session

abbrev HttpCallback := HttpRequest → HttpResponse → HttpResponse

/-- One chunk: what `::readv` delivered, when, and the answer of the `::write` that may follow. -/
structure Delivery where
  data : Bytes
  receiveTime : Int
  written : WriteResult

def defaultHttpCallback : HttpCallback := fun _ resp =>
  { resp with
    statusCode := .k404_notFound
    statusMsg := ascii "Not Found"
    closeConnection := true }

namespace HttpServer

/-- A call of a function that knows nothing of the session. -/
def call {α : Type} (x : Except Halt α) : Serving α := fun s =>
  match x with
  | .ok a => .ok a s
  | .error e => .error e s

/-- An `if` without `else`. -/
def when (c : Prop) [Decidable c] (x : Serving Unit) : Serving Unit :=
  if c then x else pure ()

/-- `conn->send(const std::string&)`. -/
def send (msg : Bytes) (w : WriteResult) : Serving Unit := do
  let s ← get
  when (s.conn.state = .kConnected) do
    modify fun s => { s with handed := s.handed ++ [msg] }
  let (conn, _) ← call (s.conn.send msg w)
  modify fun s => { s with conn := conn }

/-- `conn->send(Buffer*)`. -/
def sendBuffer (buf : Buffer) (w : WriteResult) : Serving Unit := do
  let s ← get
  when (s.conn.state = .kConnected) do
    modify fun s => { s with handed := s.handed ++ [buf.readable] }
  let (conn, _, _) ← call (s.conn.sendBuffer buf w)
  modify fun s => { s with conn := conn }

/-- `conn->shutdown()`. -/
def shutdown : Serving Unit :=
  modify fun s => { s with conn := s.conn.shutdown.1 }

/-- `"HTTP/1.1 400 Bad Request\r\n\r\n"`. -/
def badRequest : Bytes := ascii "HTTP/1.1 400 Bad Request\r\n\r\n"

/-- The response that the callback makes, in a buffer of its own. -/
def serialize (httpCallback : HttpCallback) (req : HttpRequest) : Except Halt Buffer := do
  let buf ← Buffer.new Buffer.kInitialSize
  (httpCallback req (HttpResponse.new true)).appendToBuffer buf

/-- `onRequest`; what it makes of the `Connection` header is overwritten by `close = true`. -/
def onRequest (httpCallback : HttpCallback) (req : HttpRequest) (w : WriteResult) : Serving Unit := do
  modify fun s => { s with requests := s.requests ++ [req] }
  let buf ← call (serialize httpCallback req)
  sendBuffer buf w
  when ((httpCallback req (HttpResponse.new true)).closeConnection = true) shutdown

/-- `onMessage`: a new context for every call. -/
def onMessage (httpCallback : HttpCallback) (receiveTime : Int) (w : WriteResult) : Serving Unit := do
  let s ← get
  let (ok, context, inputBuffer) ←
    call (HttpContext.new.parseRequest s.conn.inputBuffer receiveTime)
  modify fun s => { s with conn := { s.conn with inputBuffer := inputBuffer } }
  when (ok = false) do
    send badRequest w
    shutdown
  when (context.isGotAll = true) do
    onRequest httpCallback context.request w

/-- `TcpConnection::handleRead` with `onMessage` as the message callback. -/
def handleRead (httpCallback : HttpCallback) (d : Delivery) : Serving Unit := do
  let s ← get
  let (conn, effects) ← call (s.conn.handleRead (.delivered d.data))
  modify fun s => { s with conn := conn }
  when (.messageCallback ∈ effects) do
    onMessage httpCallback d.receiveTime d.written

/-- Successive chunks. -/
def deliver (httpCallback : HttpCallback) : List Delivery → Serving Unit
  | [] => pure ()
  | d :: ds => do
      handleRead httpCallback d
      deliver httpCallback ds

/-! ## Where a call leaves the session -/

/-- The session after a call, whether or not it returned. -/
def final {α : Type} (x : Serving α) (s : Session) : Session :=
  match x s with
  | .ok _ s' => s'
  | .error _ s' => s'

section Final

variable {α β : Type} {s s' : Session} {x : Serving α}

theorem bind_ok {a : α} (h : x s = .ok a s') (f : α → Serving β) : (x >>= f) s = f a s' := by
  change EStateM.bind x f s = _
  rw [EStateM.bind, h]

theorem bind_error {e : Halt} (h : x s = .error e s') (f : α → Serving β) :
    (x >>= f) s = .error e s' := by
  change EStateM.bind x f s = _
  rw [EStateM.bind, h]

theorem final_bind_ok {a : α} (h : x s = .ok a s') (f : α → Serving β) :
    final (x >>= f) s = final (f a) s' := by
  rw [final, bind_ok h, final]

theorem final_bind_error {e : Halt} (h : x s = .error e s') (f : α → Serving β) :
    final (x >>= f) s = s' := by
  rw [final, bind_error h]

theorem final_of_ok {a : α} (h : x s = .ok a s') : final x s = s' := by
  rw [final, h]

theorem final_of_error {e : Halt} (h : x s = .error e s') : final x s = s' := by
  rw [final, h]

theorem final_bind_pure (x : Serving Unit) (s : Session) :
    final (x >>= fun _ => pure ()) s = final x s := by
  cases hx : x s with
  | ok a s' => rw [final_bind_ok hx, final_of_ok hx]; rfl
  | error e s' => rw [final_bind_error hx, final_of_error hx]

theorem final_congr {y : Serving α} (h : x s = y s') : final x s = final y s' := by
  rw [final, h, final]

end Final

/-! ## Nothing is taken back -/

/-- The messages that were handed to the connection stay handed. -/
def Grows {α : Type} (x : Serving α) : Prop :=
  ∀ s, s.handed <+: (final x s).handed

namespace Grows

variable {α β : Type} {x : Serving α}

theorem bind_final {f : α → Serving β} (hf : ∀ a, Grows (f a)) (s : Session) :
    (final x s).handed <+: (final (x >>= f) s).handed := by
  cases hx : x s with
  | ok a s' =>
      rw [final_bind_ok hx, final_of_ok hx]
      exact hf a s'
  | error e s' => rw [final_bind_error hx, final_of_error hx]

theorem of_bind (hx : Grows x) {f : α → Serving β} (hf : ∀ a, Grows (f a)) : Grows (x >>= f) :=
  fun s => (hx s).trans (bind_final hf s)

theorem of_pure (a : α) : Grows (pure a : Serving α) := fun _ => List.prefix_rfl

theorem of_get : Grows (get : Serving Session) := fun _ => List.prefix_rfl

theorem of_call (y : Except Halt α) : Grows (call y) := by
  intro s
  cases y <;> exact List.prefix_rfl

theorem of_modify {g : Session → Session} (hg : ∀ s, s.handed <+: (g s).handed) :
    Grows (modify g : Serving Unit) := hg

theorem of_when {c : Prop} [Decidable c] {y : Serving Unit} (hy : Grows y) : Grows (when c y) := by
  unfold when
  split
  · exact hy
  · exact of_pure ()

end Grows

theorem grows_send (msg : Bytes) (w : WriteResult) : Grows (send msg w) := by
  refine Grows.of_bind Grows.of_get fun s => ?_
  refine Grows.of_bind (Grows.of_when (Grows.of_modify fun s => List.prefix_append _ _)) fun _ => ?_
  refine Grows.of_bind (Grows.of_call _) fun r => ?_
  exact Grows.of_modify fun s => List.prefix_rfl

theorem grows_sendBuffer (buf : Buffer) (w : WriteResult) : Grows (sendBuffer buf w) := by
  refine Grows.of_bind Grows.of_get fun s => ?_
  refine Grows.of_bind (Grows.of_when (Grows.of_modify fun s => List.prefix_append _ _)) fun _ => ?_
  refine Grows.of_bind (Grows.of_call _) fun r => ?_
  exact Grows.of_modify fun s => List.prefix_rfl

theorem grows_shutdown : Grows shutdown :=
  Grows.of_modify fun _ => List.prefix_rfl

variable (httpCallback : HttpCallback)

theorem grows_onRequest (req : HttpRequest) (w : WriteResult) :
    Grows (onRequest httpCallback req w) := by
  refine Grows.of_bind (Grows.of_modify ?_) fun _ => Grows.of_bind (Grows.of_call _) fun buf => ?_
  · exact fun s => List.prefix_rfl
  · exact Grows.of_bind (grows_sendBuffer buf w) fun _ => Grows.of_when grows_shutdown

theorem grows_onMessage (receiveTime : Int) (w : WriteResult) :
    Grows (onMessage httpCallback receiveTime w) := by
  refine Grows.of_bind Grows.of_get fun s => ?_
  refine Grows.of_bind (Grows.of_call _) fun r => ?_
  obtain ⟨ok, context, inputBuffer⟩ := r
  refine Grows.of_bind (Grows.of_modify ?_) fun _ =>
    Grows.of_bind (Grows.of_when ?_) fun _ => Grows.of_when ?_
  · exact fun s => List.prefix_rfl
  · exact Grows.of_bind (grows_send badRequest w) fun _ => grows_shutdown
  · exact grows_onRequest httpCallback context.request w

theorem grows_handleRead (d : Delivery) : Grows (handleRead httpCallback d) := by
  refine Grows.of_bind Grows.of_get fun s => ?_
  refine Grows.of_bind (Grows.of_call _) fun r => ?_
  obtain ⟨conn, effects⟩ := r
  refine Grows.of_bind (Grows.of_modify ?_) fun _ => Grows.of_when ?_
  · exact fun s => List.prefix_rfl
  · exact grows_onMessage httpCallback d.receiveTime d.written

theorem grows_deliver (ds : List Delivery) : Grows (deliver httpCallback ds) := by
  induction ds with
  | nil => exact Grows.of_pure ()
  | cons d ds ih => exact Grows.of_bind (grows_handleRead httpCallback d) fun _ => ih

/-! ## What the functions do on a connected connection -/

section Connected

variable {s : Session}

theorem call_ok {α : Type} {x : Except Halt α} {a : α} (h : x = .ok a) : call x s = .ok a s := by
  subst h
  rfl

theorem call_error {α : Type} {x : Except Halt α} {e : Halt} (h : x = .error e) :
    call x s = .error e s := by
  subst h
  rfl

/-- Recording a message on a connected connection. -/
theorem when_connected (hs : s.conn.state = .kConnected) (msg : Bytes) :
    when (s.conn.state = .kConnected) (modify fun s => { s with handed := s.handed ++ [msg] }) s =
      .ok () { s with handed := s.handed ++ [msg] } := by
  rw [when, if_pos hs]
  rfl

/-- A call on the connection hands over nothing more, whether it returns or not. -/
theorem final_call (s : Session) {α : Type} (x : Except Halt α) (conn : α → TcpConnection) :
    (final (call x >>= fun r => modify fun s => { s with conn := conn r }) s).handed = s.handed ∧
      (final (call x >>= fun r => modify fun s => { s with conn := conn r }) s).requests =
        s.requests := by
  cases x with
  | ok r =>
      rw [final_bind_ok (call_ok rfl)]
      exact ⟨rfl, rfl⟩
  | error e =>
      rw [final_bind_error (call_error rfl)]
      exact ⟨rfl, rfl⟩

theorem final_send (hs : s.conn.state = .kConnected) (msg : Bytes) (w : WriteResult) :
    (final (send msg w) s).handed = s.handed ++ [msg] ∧
      (final (send msg w) s).requests = s.requests := by
  unfold send
  have hget : (get : Serving Session) s = .ok s s := rfl
  rw [final_bind_ok hget, final_bind_ok (when_connected hs msg)]
  exact final_call _ (s.conn.send msg w) fun r => r.1

theorem final_sendBuffer (hs : s.conn.state = .kConnected) (buf : Buffer) (w : WriteResult) :
    (final (sendBuffer buf w) s).handed = s.handed ++ [buf.readable] ∧
      (final (sendBuffer buf w) s).requests = s.requests := by
  unfold sendBuffer
  have hget : (get : Serving Session) s = .ok s s := rfl
  rw [final_bind_ok hget, final_bind_ok (when_connected hs buf.readable)]
  exact final_call _ (s.conn.sendBuffer buf w) fun r => r.1

/-- What `onRequest` hands to the connection: one message, or nothing if it did not get so far. -/
def response (httpCallback : HttpCallback) (req : HttpRequest) : List Bytes :=
  match serialize httpCallback req with
  | .ok buf => [buf.readable]
  | .error _ => []

theorem final_onRequest (hs : s.conn.state = .kConnected) (req : HttpRequest) (w : WriteResult) :
    (final (onRequest httpCallback req w) s).requests = s.requests ++ [req] ∧
      (final (onRequest httpCallback req w) s).handed = s.handed ++ response httpCallback req := by
  unfold onRequest response
  have hcalled : (modify fun s => { s with requests := s.requests ++ [req] } : Serving Unit) s =
      .ok () { s with requests := s.requests ++ [req] } := rfl
  rw [final_bind_ok hcalled]
  cases hbuf : serialize httpCallback req with
  | error e =>
      rw [final_bind_error (call_error rfl)]
      exact ⟨rfl, (List.append_nil _).symm⟩
  | ok buf =>
      rw [final_bind_ok (call_ok rfl)]
      generalize hs₁ : ({ s with requests := s.requests ++ [req] } : Session) = s₁
      have hconn : s₁.conn.state = .kConnected := by rw [← hs₁]; exact hs
      obtain ⟨hhanded, hrequests⟩ := final_sendBuffer hconn buf w
      cases hsend : sendBuffer buf w s₁ with
      | error e s₂ =>
          rw [final_of_error hsend] at hhanded hrequests
          rw [final_bind_error hsend, hrequests, hhanded, ← hs₁]
          exact ⟨rfl, rfl⟩
      | ok u s₂ =>
          rw [final_of_ok hsend] at hhanded hrequests
          rw [final_bind_ok hsend]
          have hkeep : ∀ c : Prop, [Decidable c] →
              (final (when c shutdown) s₂).requests = s₂.requests ∧
                (final (when c shutdown) s₂).handed = s₂.handed := by
            intro c _
            unfold when
            split <;> exact ⟨rfl, rfl⟩
          rw [(hkeep _).1, (hkeep _).2, hrequests, hhanded, ← hs₁]
          exact ⟨rfl, rfl⟩

/-- No response is the 400 line of `onMessage`. -/
theorem badRequest_not_prefix (req : HttpRequest) :
    ¬ [badRequest] <+: response httpCallback req := by
  intro hbegins
  unfold response at hbegins
  cases hbuf : serialize httpCallback req with
  | error e => simp [hbuf] at hbegins
  | ok buf =>
      simp only [hbuf, List.cons_prefix_cons, List.prefix_rfl, and_true] at hbegins
      obtain ⟨b₀, hnew, happend⟩ := bind_eq_ok hbuf
      obtain ⟨hinv, -⟩ := Buffer.new_simulates (by decide) hnew
      obtain ⟨-, hread⟩ := HttpResponse.appendToBuffer_of_ok hinv happend
      have hlen := HttpResponse.length_pieces (httpCallback req (HttpResponse.new true))
      have hbad : badRequest.length = 28 := rfl
      rw [hbegins, hread, List.length_append] at hbad
      omega

/-! ## `onMessage` and the lines of the input buffer -/

variable (receiveTime : Int) (w : WriteResult) {l t : Bytes} {ls : List Bytes}

/-- The session with another input buffer. -/
def withInput (s : Session) (b : Buffer) : Session :=
  { s with conn := { s.conn with inputBuffer := b } }

theorem onMessage_eq {receiveTime : Int} {ok : Bool} {context : HttpContext} {b : Buffer}
    (h : HttpContext.new.parseRequest s.conn.inputBuffer receiveTime = .ok (ok, context, b)) :
    onMessage httpCallback receiveTime w s =
      (do
        when (ok = false) do
          send badRequest w
          shutdown
        when (context.isGotAll = true) do
          onRequest httpCallback context.request w : Serving Unit) (withInput s b) := by
  unfold onMessage
  have hget : (get : Serving Session) s = .ok s s := rfl
  rw [bind_ok hget, bind_ok (call_ok h)]
  rfl

/-- No complete line yet: the 400 line. -/
theorem onMessage_unfinished (h : s.conn.inputBuffer.Inv) (hs : s.conn.state = .kConnected)
    (hlines : s.conn.inputBuffer.lines.1 = []) :
    s.handed ++ [badRequest] <+: (final (onMessage httpCallback receiveTime w) s).handed := by
  have hspec := HttpContext.parseRequest_spec HttpContext.new h receiveTime
  rw [hlines] at hspec
  obtain ⟨b, -, hparse⟩ := hspec
  rw [final_congr (onMessage_eq httpCallback w hparse)]
  have hsend : (final (send badRequest w) (withInput s b)).handed = s.handed ++ [badRequest] :=
    (final_send (s := withInput s b) hs badRequest w).1
  have hbad : s.handed ++ [badRequest] <+:
      (final (when (false = false) (do send badRequest w; shutdown)) (withInput s b)).handed := by
    rw [when, if_pos rfl, ← hsend]
    exact Grows.bind_final (fun _ => grows_shutdown) (withInput s b)
  exact hbad.trans
    (Grows.bind_final (fun _ => Grows.of_when (grows_onRequest httpCallback _ w)) (withInput s b))

/-- A first line that is no request line: the call does not return. -/
theorem onMessage_rejected (h : s.conn.inputBuffer.Inv)
    (hlines : s.conn.inputBuffer.lines = (l :: ls, t)) (hl : HttpRequest.acceptable l = false) :
    onMessage httpCallback receiveTime w s = .error .diverges s := by
  have hspec := HttpContext.parseRequest_spec HttpContext.new h receiveTime
  have hparse : HttpContext.new.parseLines receiveTime (l :: ls) = .error .diverges := by
    have hfst : (HttpRequest.new.processRequestLine l).1 = false := hl
    simp [HttpContext.parseLines, HttpContext.new, hfst]
  rw [hlines, hparse] at hspec
  have hget : (get : Serving Session) s = .ok s s := rfl
  unfold onMessage
  rw [bind_ok hget, bind_error (call_error hspec.2.1)]

/-- A request line and header lines, and no more: the call returns and has taken them out of the
buffer. -/
theorem onMessage_headers (h : s.conn.inputBuffer.Inv) {hs : List Bytes}
    (hlines : s.conn.inputBuffer.lines = (l :: hs, t)) (hl : HttpRequest.acceptable l = true)
    (hcolon : ∀ h ∈ hs, (58 : UInt8) ∈ h) :
    ∃ b, s.conn.inputBuffer.Leaves t b ∧
      onMessage httpCallback receiveTime w s = .ok () (withInput s b) := by
  have hspec := HttpContext.parseRequest_spec HttpContext.new h receiveTime
  have hend : HttpContext.readHeaders (HttpRequest.ofLines receiveTime l hs) [] =
      ({ state := .kExpectHeaders, request := HttpRequest.ofLines receiveTime l hs }, []) := rfl
  rw [hlines, ← List.append_nil hs, HttpContext.parseLines_accepted receiveTime hl hcolon, hend] at hspec
  obtain ⟨b, hleaves, hresult⟩ := hspec
  exact ⟨b, hleaves, onMessage_eq httpCallback w hresult⟩

/-- A whole request: `onRequest` is called with it. -/
theorem onMessage_complete (h : s.conn.inputBuffer.Inv) {hs : List Bytes}
    (hlines : s.conn.inputBuffer.lines = (l :: (hs ++ [] :: ls), t))
    (hl : HttpRequest.acceptable l = true) (hcolon : ∀ h ∈ hs, (58 : UInt8) ∈ h) :
    ∃ b, s.conn.inputBuffer.Leaves (joinLines 13 10 ls ++ t) b ∧
      onMessage httpCallback receiveTime w s =
        onRequest httpCallback (HttpRequest.ofLines receiveTime l hs) w (withInput s b) := by
  have hspec := HttpContext.parseRequest_spec HttpContext.new h receiveTime
  have hend : HttpContext.readHeaders (HttpRequest.ofLines receiveTime l hs) ([] :: ls) =
      ({ state := .kGotAll, request := HttpRequest.ofLines receiveTime l hs }, ls) := rfl
  rw [hlines, HttpContext.parseLines_accepted receiveTime hl hcolon, hend] at hspec
  obtain ⟨b, hleaves, hresult⟩ := hspec
  refine ⟨b, hleaves, ?_⟩
  have hskip : when (true = false) (do send badRequest w; shutdown) (withInput s b) =
      .ok () (withInput s b) := rfl
  have hgot : (HttpContext.mk .kGotAll (HttpRequest.ofLines receiveTime l hs)).isGotAll = true := rfl
  rw [onMessage_eq httpCallback w hresult, bind_ok hskip, when, if_pos hgot]

/-- The data of a chunk go behind what is in the input buffer, and `onMessage` is called. -/
theorem handleRead_eq (h : s.conn.inputBuffer.Inv) {d : Delivery} (hne : d.data ≠ [])
    (hcap : d.data.length ≤ s.conn.inputBuffer.readvCapacity)
    (hmax : s.conn.inputBuffer.writerIndex + d.data.length ≤ maxSize) :
    ∃ b : Buffer, b.Inv ∧ b.readable = s.conn.inputBuffer.readable ++ d.data ∧
      b.writerIndex ≤ s.conn.inputBuffer.writerIndex + d.data.length ∧
      handleRead httpCallback d s =
        onMessage httpCallback d.receiveTime d.written (withInput s b) := by
  obtain ⟨⟨n, errno, b⟩, hread, hn, -, hinv, hcontent⟩ :=
    (Buffer.readFd_spec h hcap).exists_ok (not_lt.2 hmax)
  simp only at hn hinv hcontent
  refine ⟨b, hinv, hcontent, Buffer.readFd_writerIndex_le h hread, ?_⟩
  have hpos : 0 < n := by
    have := List.length_pos_iff.2 hne
    omega
  have hconn : s.conn.handleRead (.delivered d.data) =
      .ok ({ s.conn with inputBuffer := b }, [.messageCallback]) := by
    simp only [TcpConnection.handleRead, hread, bind, Except.bind, if_pos hpos]
    rfl
  have hget : (get : Serving Session) s = .ok s s := rfl
  have hset : (modify fun s' => { s' with conn := { s.conn with inputBuffer := b } } : Serving Unit) s =
      .ok () (withInput s b) := rfl
  unfold handleRead
  rw [bind_ok hget, bind_ok (call_ok hconn)]
  simp only
  rw [bind_ok hset, when, if_pos (List.mem_singleton.2 rfl)]

end Connected

end HttpServer

end MyServer
end MyCppCode
