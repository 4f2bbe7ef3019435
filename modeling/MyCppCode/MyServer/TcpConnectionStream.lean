import MyCppCode.MyServer.TcpConnection

/-!
# TcpConnectionStream — integrity of the outgoing byte stream on the loop thread

A session is a connection together with what has been sent on it and what it has done so far.  Its
events are calls of `send` (both overloads) and `shutdown` made on the loop thread, and reports that
the socket is writable; each `::write` may answer with any count or with an error that leaves the peer
there.
-/

namespace MyCppCode
namespace MyServer
namespace TcpConnection

open Foundation

structure Session where
  conn : TcpConnection
  /-- The messages sent while the state was `kConnected`, one after the other. -/
  sent : Bytes
  trace : List Effect
  shutdownCalled : Bool

inductive Event
  | send (msg : Bytes) (w : WriteResult)
  | sendBuffer (buf : { b : Buffer // b.Inv }) (w : WriteResult)
  | shutdown
  | writable (w : WriteResult)

/-- The message of an event, if it is one of the two `send`. -/
def Event.message : Event → Bytes
  | .send msg _ => msg
  | .sendBuffer buf _ => buf.1.readable
  | .shutdown => []
  | .writable _ => []

/-- Each `::write` answers for the bytes it is given. -/
def Event.Legal (s : Session) : Event → Prop
  | .send msg w => w.Allowed msg.length
  | .sendBuffer buf w => w.Allowed buf.1.readable.length
  | .shutdown => True
  | .writable w => w.Allowed s.conn.outputBuffer.readable.length

instance (s : Session) : (e : Event) → Decidable (e.Legal s)
  | .send msg w => inferInstanceAs (Decidable (w.Allowed msg.length))
  | .sendBuffer buf w => inferInstanceAs (Decidable (w.Allowed buf.1.readable.length))
  | .shutdown => inferInstanceAs (Decidable True)
  | .writable w => inferInstanceAs (Decidable (w.Allowed s.conn.outputBuffer.readable.length))

/-- No call of `makeSpace` is handed a length that its `int` parameter cannot hold. -/
def Event.Fits (s : Session) : Event → Prop
  | .send msg w => s.conn.state = .kConnected → SendFits s.conn msg w
  | .sendBuffer buf w => s.conn.state = .kConnected → SendFits s.conn buf.1.readable w
  | .shutdown => True
  | .writable _ => True

/-- Record a call of `send`. -/
def Session.sendDone (s : Session) (msg : Bytes) (r : TcpConnection × List Effect) : Session :=
  { s with
    conn := r.1
    trace := s.trace ++ r.2
    sent := if s.conn.state = .kConnected then s.sent ++ msg else s.sent }

def perform (s : Session) : Event → Except Halt Session
  | .send msg w => do
      let r ← s.conn.send msg w
      return s.sendDone msg r
  | .sendBuffer buf w => do
      let (c, _, done) ← s.conn.sendBuffer buf w
      return s.sendDone buf.1.readable (c, done)
  | .shutdown =>
      let (c, done) := s.conn.shutdown
      .ok { s with conn := c, trace := s.trace ++ done, shutdownCalled := true }
  | .writable w =>
      let (c, done) := s.conn.handleWrite w
      .ok { s with conn := c, trace := s.trace ++ done }

def step (s : Session) (e : Event) : Option Session :=
  if e.Legal s then (perform s e).toOption else none

/-- A connection on which nothing has been sent yet. -/
structure Established (c : TcpConnection) : Prop where
  state : c.state = .kConnected
  idle : c.channel.isWrite = false
  output : c.outputBuffer.Inv
  empty : c.outputBuffer.readable = []

theorem established_connectEstablished {fd : Int} {c : TcpConnection}
    (h : TcpConnection.new fd = .ok c) : Established c.connectEstablished.1 := by
  unfold TcpConnection.new at h
  cases hb : Buffer.new Buffer.kInitialSize with
  | error e =>
      rw [hb] at h
      cases h
  | ok b =>
      rw [hb] at h
      cases h
      obtain ⟨hinv, hread⟩ := Buffer.new_simulates (by decide) hb
      refine ⟨rfl, ?_, hinv, hread⟩
      have htie : ((Channel.new fd).tie.enableRead).isWrite = (Channel.new fd).tie.isWrite :=
        Channel.isWrite_enableRead _
      exact htie.trans (Channel.isWrite_new fd)

def Session.start (c : TcpConnection) : Session :=
  { conn := c
    sent := []
    trace := []
    shutdownCalled := false }

/-! ## Integrity -/

/-- No byte is lost, repeated or reordered; the channel waits for the socket exactly while bytes are
waiting; and the half-close comes once, after `shutdown()`, behind all the bytes and behind every
`::write`. -/
structure Integrity (s : Session) : Prop where
  stream : accepted s.trace ++ s.conn.outputBuffer.readable = s.sent
  interest : s.conn.state ≠ .kDisconnected →
    (s.conn.channel.isWrite = true ↔ s.conn.outputBuffer.readable ≠ [])
  halfClose : ∀ pre post, s.trace = pre ++ .shutdownWrite :: post →
    s.shutdownCalled = true ∧ accepted pre = s.sent ∧ .shutdownWrite ∉ post ∧
      ∀ data w, .write data w ∉ post

/-- How far the half-close has come: before `shutdown()` there is none, afterwards it is the last
action as soon as nothing is waiting any more. -/
inductive Phase (s : Session) : Prop
  | opened : s.conn.state = .kConnected → .shutdownWrite ∉ s.trace → Phase s
  | closing (pre : List Effect) : s.conn.state = .kDisconnecting → s.shutdownCalled = true →
      .shutdownWrite ∉ pre → s.trace = pre ++ halfClose (s.conn.channel.isWrite = false) → Phase s

structure SessionInv (s : Session) : Prop where
  flowing : Flowing s.conn
  stream : accepted s.trace ++ s.conn.outputBuffer.readable = s.sent
  phase : Phase s

theorem Established.sessionInv {c : TcpConnection} (h : Established c) :
    SessionInv (Session.start c) where
  flowing := ⟨h.output, by simp [Session.start, h.idle, h.empty]⟩
  stream := by simp [Session.start, h.empty]
  phase := .opened h.state (by simp [Session.start])

theorem SessionInv.integrity {s : Session} (h : SessionInv s) : Integrity s := by
  refine ⟨h.stream, fun _ => h.flowing.interest, ?_⟩
  intro pre post htrace
  cases h.phase with
  | opened _ hno =>
      simp [htrace] at hno
  | closing pre' _ hcalled hno hend =>
      by_cases hoff : s.conn.channel.isWrite = false
      · have hempty : s.conn.outputBuffer.readable = [] := h.flowing.isWrite_eq_false.1 hoff
        rw [halfClose, if_pos hoff] at hend
        obtain ⟨rfl, -, rfl⟩ := (List.append_cons_inj_of_notMem hno (by simp)).1
          (hend.symm.trans htrace)
        have hstream : accepted s.trace = s.sent := by simpa [hempty] using h.stream
        rw [hend, accepted_append] at hstream
        exact ⟨hcalled, by simpa [Effect.accepted] using hstream, by simp, by simp⟩
      · rw [halfClose, if_neg hoff, List.append_nil] at hend
        simp [← hend, htrace] at hno

/-! ## Steps -/

variable {s : Session}

theorem send_keeps (h : SessionInv s) {msg : Bytes} {w : WriteResult} (hw : w.Allowed msg.length)
    (hfit : s.conn.state = .kConnected → SendFits s.conn msg w) :
    Completes (fun r => SessionInv (s.sendDone msg r))
      (maxSize < s.conn.outputBuffer.writerIndex + msg.length) (s.conn.send msg w) := by
  by_cases hconn : s.conn.state = .kConnected
  · rw [send, if_pos hconn]
    have hno : .shutdownWrite ∉ s.trace := by
      cases h.phase with
      | opened _ hno => exact hno
      | closing _ hstate => simp [hconn] at hstate
    refine (sendInLoop_spec h.flowing (by simp [hconn]) hw (hfit hconn)).mono ?_ id
    rintro r ⟨⟨hstate, hflow, hstream⟩, hquiet⟩
    refine ⟨hflow, ?_, .opened (hstate.trans hconn) ?_⟩
    · simp only [Session.sendDone, if_pos hconn, accepted_append]
      rw [List.append_assoc, hstream, ← List.append_assoc, h.stream]
    · simp [Session.sendDone, hno, hquiet]
  · rw [send, if_neg hconn]
    refine Completes.ok ?_
    simpa [Session.sendDone, hconn] using h

/-- On a buffer that is in order, `send(Buffer*)` sends what `send(const std::string&)` would. -/
theorem sendBuffer_eq (c : TcpConnection) (buf : { b : Buffer // b.Inv }) (w : WriteResult) :
    c.sendBuffer buf w = (do
      let r ← c.send buf.1.readable w
      return (r.1, if c.state = .kConnected then buf.1.retrieveAll else buf.1, r.2)) := by
  obtain ⟨b, hb⟩ := buf
  have hread : readRange b.buffer b.readerIndex (b.readerIndex + b.readableBytes) =
      .ok b.readable := by
    have h₁ := hb.reader_le
    have h₂ := hb.writer_le
    have h₃ := hb.readableBytes_eq
    rw [readRange_eq_ok (Nat.le_add_right _ _) (by unfold Buffer.size at h₂; omega), h₃]
    simp [Buffer.readable]
  by_cases hconn : c.state = .kConnected
  · simp only [sendBuffer, send, if_pos hconn, hread]
    rfl
  · simp only [sendBuffer, send, if_neg hconn]
    rfl

theorem shutdownInLoop_eq (c : TcpConnection) :
    c.shutdownInLoop = halfClose (c.channel.isWrite = false) := by
  unfold shutdownInLoop halfClose
  cases c.channel.isWrite <;> rfl

theorem shutdown_keeps (h : SessionInv s) :
    SessionInv
      { s with
        conn := s.conn.shutdown.1
        trace := s.trace ++ s.conn.shutdown.2
        shutdownCalled := true } := by
  cases h.phase with
  | opened hconn hno =>
      simp only [shutdown, if_pos hconn, shutdownInLoop_eq]
      refine ⟨⟨h.flowing.output, h.flowing.interest⟩, ?_, .closing s.trace rfl rfl hno rfl⟩
      simp [h.stream]
  | closing pre hstate hcalled hno hend =>
      have hnot : s.conn.state ≠ .kConnected := by simp [hstate]
      simp only [shutdown, if_neg hnot, List.append_nil]
      exact ⟨h.flowing, h.stream, .closing pre hstate rfl hno hend⟩

theorem handleWrite_keeps (h : SessionInv s) (w : WriteResult) :
    SessionInv
      { s with
        conn := (s.conn.handleWrite w).1
        trace := s.trace ++ (s.conn.handleWrite w).2 } := by
  cases hwrite : s.conn.channel.isWrite with
  | false =>
      simpa [handleWrite_of_isWrite_eq_false hwrite] using h
  | true =>
      obtain ⟨⟨hstate, hflow, hstream⟩, done, hquiet, hdone⟩ := handleWrite_spec h.flowing hwrite w
      refine ⟨hflow, ?_, ?_⟩
      · simp only [List.append_nil] at hstream
        rw [accepted_append, List.append_assoc, hstream, h.stream]
      · cases h.phase with
        | opened hconn hno =>
            refine .opened (hstate.trans hconn) ?_
            simp [hdone, halfClose, hconn, hno, hquiet]
        | closing pre hdis hcalled hno hend =>
            refine .closing (pre ++ done) (hstate.trans hdis) hcalled (by simp [hno, hquiet]) ?_
            simp [hdone, hend, halfClose, hwrite, hdis]

/-- A legal event whose lengths fit is carried out, unless the output buffer cannot grow any more, and
keeps the invariant. -/
theorem perform_keeps (h : SessionInv s) {e : Event} (hlegal : e.Legal s) (hfit : e.Fits s) :
    Completes SessionInv (maxSize < s.conn.outputBuffer.writerIndex + e.message.length)
      (perform s e) := by
  cases e with
  | send msg w =>
      exact Completes.bind (send_keeps h hlegal hfit) fun _ hr => Completes.ok hr
  | sendBuffer buf w =>
      simp only [perform, sendBuffer_eq, bind_assoc, pure_bind]
      exact Completes.bind (send_keeps h hlegal hfit) fun _ hr => Completes.ok hr
  | shutdown =>
      exact Completes.ok (shutdown_keeps h)
  | writable w =>
      exact Completes.ok (handleWrite_keeps h w)

theorem step_keeps {t : Session} {e : Event} (h : SessionInv s) (hfit : e.Fits s)
    (hstep : step s e = some t) : SessionInv t := by
  unfold step at hstep
  split at hstep
  · rename_i hlegal
    have hspec := perform_keeps h hlegal hfit
    cases hp : perform s e with
    | error x =>
        simp [hp, Except.toOption] at hstep
    | ok t' =>
        obtain rfl : t' = t := by simpa [hp, Except.toOption] using hstep
        rw [hp] at hspec
        exact hspec.of_ok
  · cases hstep

/-! ## Runs -/

/-- As long as no event hands `makeSpace` a length beyond `int`, every state reached on the loop
thread has a sound outgoing stream, and the next legal event is carried out, or throws because the
output buffer would exceed `max_size()`. -/
theorem outgoing_stream_integrity {c : TcpConnection} (hc : Established c) {es : List Event}
    {s : Session} (hrun : RunWithin step (fun s e => e.Fits s) (Session.start c) es s) :
    Integrity s ∧ ∀ e : Event, e.Legal s → e.Fits s →
      Completes Integrity (maxSize < s.conn.outputBuffer.writerIndex + e.message.length)
        (perform s e) := by
  have hinv : SessionInv s :=
    hrun.invariant (fun _ _ _ h hfit hstep => step_keeps h hfit hstep) hc.sessionInv
  refine ⟨hinv.integrity, ?_⟩
  intro e hlegal hfit
  exact (perform_keeps hinv hlegal hfit).mono (fun _ h => h.integrity) id

/-- A connection as the constructor and `connectEstablished` leave it. -/
def freshConnection : TcpConnection :=
  let b : Buffer :=
    { buffer := List.replicate 1032 0
      readerIndex := 8
      writerIndex := 8 }
  { state := .kConnected
    channel := (Channel.new 5).tie.enableRead
    inputBuffer := b
    outputBuffer := b
    highWaterMark := 64 * 1024 * 1024
    writeCompleteCallback := false
    highWaterMarkCallback := false }

theorem established_freshConnection : Established freshConnection := by
  have hnew : TcpConnection.new 5 =
      .ok { freshConnection with state := .kConnecting, channel := Channel.new 5 } := rfl
  exact established_connectEstablished hnew

set_option maxRecDepth 20000 in
/-- A message cut by the socket, a `shutdown()` while its rest is waiting, and the half-close that
follows the last byte. -/
theorem outgoing_stream_integrity_deferred :
    ∃ s : Session, Established freshConnection ∧
      RunWithin step (fun s e => e.Fits s) (Session.start freshConnection)
        [.send [1, 2, 3] (.wrote 1), .shutdown, .writable (.wrote 2)] s ∧
      s.trace.getLast? = some .shutdownWrite ∧ Integrity s := by
  have hfits : Event.Fits (Session.start freshConnection) (.send [1, 2, 3] (.wrote 1)) :=
    fun _ _ => by decide
  have hrun : RunWithin step (fun s e => e.Fits s) (Session.start freshConnection)
      [.send [1, 2, 3] (.wrote 1), .shutdown, .writable (.wrote 2)] _ :=
    .cons hfits rfl (.cons trivial rfl (.cons trivial rfl (.nil _)))
  exact ⟨_, established_freshConnection, hrun, rfl,
    (outgoing_stream_integrity established_freshConnection hrun).1⟩

/-- A message of `2 ^ 32` bytes of which the socket takes none: its length reaches `makeSpace` as zero,
and the message is copied over the end of the vector. -/
theorem outgoing_stream_not_intact :
    ¬ ∀ c : TcpConnection, Established c → ∀ es s, Run step (Session.start c) es s →
      Integrity s ∧ ∀ e : Event, e.Legal s →
        Completes Integrity (maxSize < s.conn.outputBuffer.writerIndex + e.message.length)
          (perform s e) := by
  intro hall
  obtain ⟨msg, hlen⟩ : ∃ msg : Bytes, msg.length = 2 ^ 32 :=
    ⟨List.replicate (2 ^ 32) 0, List.length_replicate⟩
  have hc := established_freshConnection
  have hreturns := (hall _ hc [] _ (.nil _)).2 (.send msg (.wrote 0)) (Nat.zero_le _)
  have hint : SizeT.toInt msg.length = 0 := by
    rw [hlen, SizeT.toInt_two_pow]
  have happend : freshConnection.outputBuffer.append msg = .error .undefinedBehaviour := by
    have hsize : freshConnection.outputBuffer.size = 1032 := List.length_replicate
    refine Buffer.append_undefinedBehaviour hc.output hint ?_
    omega
  have hpos : 0 < msg.length := by omega
  have hdirect : freshConnection.writesDirectly := by decide
  have hperform : perform (Session.start freshConnection) (.send msg (.wrote 0)) =
      .error .undefinedBehaviour := by
    simp only [perform, Session.start, send, if_pos hc.state, sendInLoop, firstWrite, if_pos hdirect,
      writeDirectly, List.drop_zero, hpos, keepRest, happend]
    rfl
  rw [hperform] at hreturns
  cases hreturns

end TcpConnection
end MyServer
end MyCppCode
