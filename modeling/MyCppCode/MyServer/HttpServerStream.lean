import MyCppCode.MyServer.HttpResponseDecoding
import MyCppCode.MyServer.HttpServerWire

/-!
# HttpServerStream — from the chunks that come in to the bytes that go out

A dialogue says what the server is for: it knows no buffers and no `::write`, only which requests it takes
from the chunks and what it answers to them.

`served_stream`: the bytes that go out are the answers of the dialogue, in every run, however the socket
takes them.
-/

namespace MyCppCode
namespace MyServer
namespace HttpServer

open Foundation

/-! ## What the server is for -/

/-- The server as its peer sees it: the bytes that it has not looked at for good, whether it still
answers, the requests that it took, and its answers. -/
structure Dialogue where
  unread : Bytes
  opened : Bool
  requests : List HttpRequest
  answers : List Bytes

namespace Dialogue

def start : Dialogue :=
  { unread := []
    opened := true
    requests := []
    answers := [] }

/-- After the last answer there is no other. -/
def answer (a : Dialogue) (msg : Bytes) : Dialogue :=
  { a with answers := if a.opened then a.answers ++ [msg] else a.answers }

def close (a : Dialogue) : Dialogue :=
  { a with opened := false }

/-- The bytes of the response to a request. -/
def reply (httpCallback : HttpCallback) (req : HttpRequest) : Bytes :=
  (httpCallback req (HttpResponse.new true)).pieces.flatten

/-- A request is answered; the last answer is the one whose response closes the connection. -/
def respond (httpCallback : HttpCallback) (a : Dialogue) (req : HttpRequest) : Dialogue :=
  let a := { a with requests := a.requests ++ [req] }.answer (reply httpCallback req)
  if (httpCallback req (HttpResponse.new true)).closeConnection then a.close else a

/-- What `onMessage` makes of the result of `parseRequest`. -/
def take (httpCallback : HttpCallback) (a : Dialogue) (ok : Bool) (context : HttpContext) : Dialogue :=
  let a := if ok then a else (a.answer badRequest).close
  if context.isGotAll then a.respond httpCallback context.request else a

/-- A chunk arrives: its lines are read behind what is unread. -/
def receive (httpCallback : HttpCallback) (a : Dialogue) (data : Bytes) (receiveTime : Int) :
    Except Halt Dialogue := do
  let (ls, t) := splitLines 13 10 (a.unread ++ data)
  let (ok, context, left) ← HttpContext.new.parseLines receiveTime ls
  return { a with unread := joinLines 13 10 left ++ t }.take httpCallback ok context

/-- Successive chunks, each with its time. -/
def converse (httpCallback : HttpCallback) (a : Dialogue) (chunks : List (Bytes × Int)) :
    Except Halt Dialogue :=
  chunks.foldlM (fun a chunk => a.receive httpCallback chunk.1 chunk.2) a

theorem receive_of_ok {httpCallback : HttpCallback} {a : Dialogue} {data : Bytes} {receiveTime : Int}
    {ok : Bool} {context : HttpContext} {left : List Bytes}
    (h : HttpContext.new.parseLines receiveTime (splitLines 13 10 (a.unread ++ data)).1 =
      .ok (ok, context, left)) :
    a.receive httpCallback data receiveTime =
      .ok ({ a with
          unread := joinLines 13 10 left ++ (splitLines 13 10 (a.unread ++ data)).2 }.take httpCallback
        ok context) := by
  unfold receive
  simp only
  rw [h]
  rfl

theorem receive_of_error {httpCallback : HttpCallback} {a : Dialogue} {data : Bytes}
    {receiveTime : Int} {e : Halt}
    (h : HttpContext.new.parseLines receiveTime (splitLines 13 10 (a.unread ++ data)).1 = .error e) :
    a.receive httpCallback data receiveTime = .error e := by
  unfold receive
  simp only
  rw [h]
  rfl

end Dialogue

/-- The chunks among the events. -/
def chunks (es : List Event) : List (Bytes × Int) :=
  es.filterMap fun
    | .chunk data receiveTime _ => some (data, receiveTime)
    | .writable _ => none

/-- The responses of the callback are shorter than an `int` can say. -/
def Modest (httpCallback : HttpCallback) : Prop :=
  ∀ req, (Dialogue.reply httpCallback req).length < 2 ^ 31

/-- The wire is as the dialogue says, and its stream carries the answers. -/
structure Serves (x : Wire) (a : Dialogue) : Prop where
  stream : TcpConnection.SessionInv x.out
  input : x.out.conn.inputBuffer.Inv
  unread : x.out.conn.inputBuffer.readable = a.unread
  opened : x.out.conn.state = .kConnected ↔ a.opened = true
  requests : x.requests = a.requests
  handed : x.handed = a.answers
  sent : x.out.sent = a.answers.flatten

/-- The output buffer can take another message. -/
def Wire.Room (x : Wire) : Prop :=
  x.out.conn.outputBuffer.writerIndex + 2 ^ 31 ≤ maxSize

section Serves

variable {httpCallback : HttpCallback} {x : Wire} {a : Dialogue}

theorem serves_start {fd : Int} {c : TcpConnection} (h : TcpConnection.new fd = .ok c) :
    Serves (Wire.start c.connectEstablished.1) Dialogue.start := by
  have hest := TcpConnection.established_connectEstablished h
  have hidle := idle_connectEstablished h
  refine ⟨hest.sessionInv, hidle.inv, ?_, iff_of_true hidle.connected rfl, rfl, rfl, rfl⟩
  exact (hidle.pending (n := 0) (by decide)).readable

theorem Serves.sendDone (h : Serves x a) {msg : Bytes} {r : TcpConnection × List Effect}
    (hr : TcpConnection.SessionInv (x.out.sendDone msg r))
    (hstate : r.1.state = x.out.conn.state) (hinput : r.1.inputBuffer = x.out.conn.inputBuffer) :
    Serves (x.sendDone msg r) (a.answer msg) := by
  refine ⟨hr, ?_, ?_, ?_, h.requests, ?_, ?_⟩
  · exact hinput ▸ h.input
  · exact (congrArg Buffer.readable hinput).trans h.unread
  · exact (Iff.of_eq (congrArg (· = StateE.kConnected) hstate)).trans h.opened
  · simp only [Wire.sendDone, Dialogue.answer, h.opened, h.handed]
  · simp only [Wire.sendDone, TcpConnection.Session.sendDone, Dialogue.answer, h.opened, h.sent]
    split <;> simp

theorem firstWrite_length_le (c : TcpConnection) (msg : Bytes) (w : WriteResult) :
    (c.firstWrite msg w).1.length ≤ msg.length := by
  unfold TcpConnection.firstWrite
  split
  · cases w with
    | wrote n => exact (List.drop_sublist n msg).length_le
    | failed errno => exact le_refl _
  · exact le_refl _

/-- `send` has to do with the output only. -/
theorem send_frame {c : TcpConnection} {msg : Bytes} {w : WriteResult}
    {r : TcpConnection × List Effect} (h : c.send msg w = .ok r) :
    r.1.state = c.state ∧ r.1.inputBuffer = c.inputBuffer := by
  unfold TcpConnection.send TcpConnection.sendInLoop at h
  split at h
  · split at h
    · cases h
      exact ⟨rfl, rfl⟩
    · simp only at h
      split at h
      · obtain ⟨⟨c', kept⟩, hkeep, hret⟩ := bind_eq_ok h
        cases hret
        unfold TcpConnection.keepRest at hkeep
        obtain ⟨output, -, hret⟩ := bind_eq_ok hkeep
        split at hret <;> cases hret <;> exact ⟨rfl, rfl⟩
      · cases h
        exact ⟨rfl, rfl⟩
  · cases h
    exact ⟨rfl, rfl⟩

theorem send_serves (h : Serves x a) {msg : Bytes} (hmsg : msg.length < 2 ^ 31) (w : Answer) :
    Completes (fun y => Serves y (a.answer msg)) (¬ x.Room) (x.send msg w) := by
  have hfit : x.out.conn.state = .kConnected → TcpConnection.SendFits x.out.conn msg (w msg).1 :=
    fun _ _ => lt_of_le_of_lt (firstWrite_length_le ..) hmsg
  have hspec := TcpConnection.send_keeps h.stream (w msg).2 hfit
  unfold Wire.send
  cases hsend : x.out.conn.send msg (w msg).1 with
  | error e =>
      rw [hsend] at hspec
      cases hspec with
      | lengthError hfull =>
          refine .lengthError fun hroom => ?_
          unfold Wire.Room at hroom
          omega
  | ok r =>
      rw [hsend] at hspec
      obtain ⟨hstate, hinput⟩ := send_frame hsend
      exact .ok (h.sendDone hspec.of_ok hstate hinput)

theorem sendBuffer_serves (h : Serves x a) {buf : Buffer} (hbuf : buf.Inv)
    (hmsg : buf.readable.length < 2 ^ 31) (w : Answer) :
    Completes (fun y => Serves y (a.answer buf.readable)) (¬ x.Room) (x.sendBuffer buf w) := by
  have heq : x.sendBuffer buf w = x.send buf.readable w := by
    unfold Wire.sendBuffer Wire.send
    rw [TcpConnection.sendBuffer_eq x.out.conn ⟨buf, hbuf⟩]
    cases x.out.conn.send buf.readable (w buf.readable).1 <;> rfl
  rw [heq]
  exact send_serves h hmsg w

theorem shutdown_serves (h : Serves x a) : Serves x.shutdown a.close := by
  have hstream := TcpConnection.shutdown_keeps h.stream
  by_cases hconn : x.out.conn.state = .kConnected
  · have heq : x.out.conn.shutdown.1 = { x.out.conn with state := .kDisconnecting } := by
      rw [TcpConnection.shutdown, if_pos hconn]
    refine ⟨hstream, ?_, ?_, ?_, h.requests, h.handed, h.sent⟩
    · rw [Wire.shutdown, heq]
      exact h.input
    · rw [Wire.shutdown, heq]
      exact h.unread
    · rw [Wire.shutdown, heq]
      exact iff_of_false StateE.noConfusion Bool.false_ne_true
  · have heq : x.out.conn.shutdown.1 = x.out.conn := by
      rw [TcpConnection.shutdown, if_neg hconn]
    refine ⟨hstream, ?_, ?_, ?_, h.requests, h.handed, h.sent⟩
    · rw [Wire.shutdown, heq]
      exact h.input
    · rw [Wire.shutdown, heq]
      exact h.unread
    · rw [Wire.shutdown, heq]
      exact iff_of_false hconn Bool.false_ne_true

/-- The response of the callback fits the buffer that it is written to. -/
theorem serialize_eq (hcb : Modest httpCallback) (req : HttpRequest) :
    ∃ buf, serialize httpCallback req = .ok buf ∧ buf.Inv ∧
      buf.readable = Dialogue.reply httpCallback req := by
  obtain ⟨b, hb⟩ : ∃ b, Buffer.new Buffer.kInitialSize = .ok b := ⟨_, rfl⟩
  obtain ⟨hinv, hempty⟩ := Buffer.new_simulates (by decide) hb
  obtain ⟨-, -, -, hw⟩ := Buffer.new_eq _ hb
  have hlen := hcb req
  have hfit : ∀ p ∈ (httpCallback req (HttpResponse.new true)).pieces, p.length < 2 ^ 31 :=
    fun p hp => lt_of_le_of_lt (List.sublist_flatten_of_mem hp).length_le hlen
  obtain ⟨buf, hbuf, hinv', hread⟩ := (HttpResponse.foldlM_append_completes hfit hinv).exists_ok (by
    unfold Dialogue.reply at hlen
    have hmax : maxSize = 2 ^ 63 - 1 := rfl
    rw [hw, hmax, Buffer.kCheapPrepend]
    omega)
  refine ⟨buf, ?_, hinv', ?_⟩
  · unfold serialize
    rw [hb]
    exact hbuf
  · rw [hread, hempty]
    rfl

theorem Serves.addRequest (h : Serves x a) (req : HttpRequest) :
    Serves { x with requests := x.requests ++ [req] } { a with requests := a.requests ++ [req] } :=
  ⟨h.stream, h.input, h.unread, h.opened, congrArg (· ++ [req]) h.requests, h.handed, h.sent⟩

theorem onRequest_serves (hcb : Modest httpCallback) (h : Serves x a) (req : HttpRequest) (w : Answer) :
    Completes (fun y => Serves y (a.respond httpCallback req)) (¬ x.Room)
      (x.onRequest httpCallback req w) := by
  obtain ⟨buf, hbuf, hinv, hread⟩ := serialize_eq hcb req
  have hlen : buf.readable.length < 2 ^ 31 := by
    rw [hread]
    exact hcb req
  have hsend := sendBuffer_serves (h.addRequest req) hinv hlen w
  rw [hread] at hsend
  have heq : x.onRequest httpCallback req w =
      Wire.sendBuffer { x with requests := x.requests ++ [req] } buf w >>= fun y =>
        pure (if (httpCallback req (HttpResponse.new true)).closeConnection then y.shutdown else y) := by
    unfold Wire.onRequest
    rw [hbuf]
    rfl
  rw [heq]
  refine Completes.bind hsend fun y hy => .ok ?_
  unfold Dialogue.respond
  simp only
  split
  · exact shutdown_serves hy
  · exact hy

theorem refuse_serves (h : Serves x a) (w : Answer) :
    Completes (fun y => Serves y (a.answer badRequest).close) (¬ x.Room) (x.refuse w) :=
  Completes.bind (send_serves h (by decide) w) fun _ hy => .ok (shutdown_serves hy)

theorem Serves.withInput (h : Serves x a) {b : Buffer} (hb : b.Inv) {q : Bytes} (hq : b.readable = q) :
    Serves (x.withInput b) { a with unread := q } :=
  ⟨⟨⟨h.stream.flowing.output, h.stream.flowing.interest⟩, h.stream.stream, by
    cases h.stream.phase with
    | opened hstate hno => exact .opened hstate hno
    | closing pre hstate hcalled hno hend => exact .closing pre hstate hcalled hno hend⟩,
    hb, hq, h.opened, h.requests, h.handed, h.sent⟩

/-- `onMessage` does with the lines of the buffer what the dialogue does with them. -/
theorem onMessage_serves (hcb : Modest httpCallback) {data : Bytes}
    (h : Serves x { a with unread := a.unread ++ data }) (receiveTime : Int) (w : Answer) :
    (∀ a', a.receive httpCallback data receiveTime = .ok a' →
      Completes (fun y => Serves y a') (¬ x.Room) (x.onMessage httpCallback receiveTime w)) ∧
      ∀ e, a.receive httpCallback data receiveTime = .error e →
        x.onMessage httpCallback receiveTime w = .error .diverges := by
  have hspec := HttpContext.parseRequest_spec HttpContext.new h.input receiveTime
  have hlines : x.out.conn.inputBuffer.lines = splitLines 13 10 (a.unread ++ data) :=
    congrArg (splitLines 13 10) h.unread
  rw [hlines] at hspec
  cases hparse : HttpContext.new.parseLines receiveTime (splitLines 13 10 (a.unread ++ data)).1 with
  | error e =>
      rw [hparse] at hspec
      rw [Dialogue.receive_of_error hparse]
      exact ⟨fun _ ha' => (by cases ha'), fun _ _ => Wire.onMessage_error w hspec.2.1⟩
  | ok r =>
      obtain ⟨ok, context, left⟩ := r
      rw [hparse] at hspec
      obtain ⟨b, hleaves, hresult⟩ := hspec
      rw [Dialogue.receive_of_ok hparse]
      refine ⟨?_, fun _ ha' => (by cases ha')⟩
      intro a' ha'
      cases ha'
      have hserves := h.withInput hleaves.inv hleaves.readable_eq
      rw [Wire.onMessage_eq w hresult]
      cases ok with
      | false =>
          rw [Dialogue.take, Wire.not_isGotAll h.input hresult]
          exact Completes.bind (refuse_serves hserves w) fun _ hy => .ok hy
      | true =>
          rw [Dialogue.take, if_pos rfl, if_pos rfl, pure_bind]
          by_cases hgot : context.isGotAll = true
          · rw [if_pos hgot, if_pos hgot]
            exact onRequest_serves hcb hserves context.request w
          · rw [if_neg hgot, if_neg hgot]
            exact .ok hserves

/-- A chunk does to the wire what it does to the dialogue, as far as there is room. -/
theorem handleRead_serves (hcb : Modest httpCallback) (h : Serves x a) {data : Bytes} (hne : data ≠ [])
    (hcap : data.length ≤ x.out.conn.inputBuffer.readvCapacity) (receiveTime : Int) (w : Answer) :
    (∀ a', a.receive httpCallback data receiveTime = .ok a' →
      Completes (fun y => Serves y a')
        (¬ x.Room ∨ maxSize < x.out.conn.inputBuffer.writerIndex + data.length)
        (x.handleRead httpCallback data receiveTime w)) ∧
      ∀ e, a.receive httpCallback data receiveTime = .error e →
        ∀ y, x.handleRead httpCallback data receiveTime w ≠ .ok y := by
  have hread := Buffer.readFd_spec h.input hcap
  cases hfd : x.out.conn.inputBuffer.readFd (.delivered data) with
  | error e =>
      rw [hfd] at hread
      have herror : x.handleRead httpCallback data receiveTime w = .error e := by
        unfold Wire.handleRead TcpConnection.handleRead
        rw [hfd]
        rfl
      rw [herror]
      refine ⟨fun _ _ => ?_, fun _ _ _ hy => (by cases hy)⟩
      cases hread with
      | lengthError hfull => exact .lengthError (Or.inr hfull)
  | ok r =>
      obtain ⟨n, errno, b⟩ := r
      rw [hfd] at hread
      obtain ⟨hn, -, hinv, hcontent⟩ := hread.of_ok
      simp only at hn hinv hcontent
      subst hn
      have hserves : Serves (x.withInput b) { a with unread := a.unread ++ data } :=
        h.withInput hinv (by rw [hcontent, h.unread])
      obtain ⟨hok, herror⟩ := onMessage_serves hcb hserves receiveTime w
      rw [Wire.handleRead_eq hne hfd]
      refine ⟨fun a' ha' => (hok a' ha').mono (fun _ hy => hy) Or.inl, fun e he y hy => ?_⟩
      rw [herror e he] at hy
      cases hy

theorem handleWrite_inputBuffer (c : TcpConnection) (w : WriteResult) :
    (c.handleWrite w).1.inputBuffer = c.inputBuffer := by
  unfold TcpConnection.handleWrite
  split
  · cases w with
    | failed errno => rfl
    | wrote n =>
        simp only
        split
        · split <;> rfl
        · rfl
  · rfl

theorem handleWrite_serves (h : Serves x a) (w : Answer) : Serves (x.handleWrite w) a := by
  have hstate := TcpConnection.handleWrite_state x.out.conn (w x.out.conn.outputBuffer.readable).1
  have hinput := handleWrite_inputBuffer x.out.conn (w x.out.conn.outputBuffer.readable).1
  refine ⟨TcpConnection.handleWrite_keeps h.stream _, ?_, ?_, ?_, h.requests, h.handed, h.sent⟩
  · rw [Wire.handleWrite, hinput]
    exact h.input
  · rw [Wire.handleWrite, hinput]
    exact h.unread
  · rw [Wire.handleWrite, hstate]
    exact h.opened

/-! ## Runs -/

theorem step_serves (hcb : Modest httpCallback) (h : Serves x a) {e : Event} {y : Wire}
    (hstep : step httpCallback x e = some y) :
    ∃ a', a.converse httpCallback (chunks [e]) = .ok a' ∧ Serves y a' := by
  cases e with
  | chunk data receiveTime w =>
      simp only [step] at hstep
      split at hstep
      · rename_i hlegal
        obtain ⟨hok, herror⟩ := handleRead_serves hcb h hlegal.1 hlegal.2 receiveTime w
        cases hread : x.handleRead httpCallback data receiveTime w with
        | error e =>
            rw [hread] at hstep
            cases hstep
        | ok y' =>
            rw [hread] at hstep hok herror
            cases hstep
            cases hreceive : a.receive httpCallback data receiveTime with
            | error e => exact absurd rfl (herror e hreceive y)
            | ok a' =>
                refine ⟨a', ?_, (hok a' hreceive).of_ok⟩
                simp [Dialogue.converse, chunks, hreceive]
      · cases hstep
  | writable w =>
      cases hstep
      exact ⟨a, rfl, handleWrite_serves h w⟩

theorem chunks_cons (e : Event) (es : List Event) : chunks (e :: es) = chunks [e] ++ chunks es := by
  rw [chunks, chunks, chunks, ← List.filterMap_append, List.singleton_append]

theorem converse_append {c₁ c₂ : List (Bytes × Int)} {a' : Dialogue}
    (h : a.converse httpCallback c₁ = .ok a') :
    a.converse httpCallback (c₁ ++ c₂) = a'.converse httpCallback c₂ := by
  unfold Dialogue.converse at h ⊢
  rw [List.foldlM_append, h]
  rfl

theorem run_serves (hcb : Modest httpCallback) (h : Serves x a) {es : List Event} {y : Wire}
    (hrun : Run (step httpCallback) x es y) :
    ∃ a', a.converse httpCallback (chunks es) = .ok a' ∧ Serves y a' := by
  induction hrun generalizing a with
  | nil x => exact ⟨a, rfl, h⟩
  | @cons x x' y e es hstep _ ih =>
      obtain ⟨a₁, hfirst, h₁⟩ := step_serves hcb h hstep
      obtain ⟨a', hrest, h'⟩ := ih h₁
      refine ⟨a', ?_, h'⟩
      rw [chunks_cons, converse_append hfirst, hrest]

end Serves

/-- What is known of the peer's side: the stream and the half-close behind it. -/
theorem Serves.halfClosed {x : Wire} {a : Dialogue} (h : Serves x a) (hclosed : a.opened = false)
    (hdone : x.out.conn.outputBuffer.readable = []) :
    ∃ pre, .shutdownWrite ∉ pre ∧ x.out.trace = pre ++ [.shutdownWrite] := by
  cases h.stream.phase with
  | opened hstate _ =>
      rw [h.opened, hclosed] at hstate
      exact absurd hstate Bool.false_ne_true
  | closing pre _ _ hno hend =>
      have hoff := h.stream.flowing.isWrite_eq_false.2 hdone
      refine ⟨pre, hno, ?_⟩
      rw [hend, TcpConnection.halfClose, if_pos hoff]

/-- In every run of a new connection, the bytes that the socket has taken and those that still wait are
the answers of the dialogue on the chunks that have arrived: which bytes go out, and in which order,
does not depend on how the socket takes them.  Behind the last answer comes the half-close.  With room
in the buffers, a chunk is taken unless the dialogue does not go on. -/
theorem served_stream {httpCallback : HttpCallback} (hcb : Modest httpCallback) {fd : Int}
    {c : TcpConnection} (hnew : TcpConnection.new fd = .ok c) {es : List Event} {x : Wire}
    (hrun : Run (step httpCallback) (Wire.start c.connectEstablished.1) es x) :
    ∃ a, Dialogue.start.converse httpCallback (chunks es) = .ok a ∧ x.requests = a.requests ∧
      accepted x.out.trace ++ x.out.conn.outputBuffer.readable = a.answers.flatten ∧
      TcpConnection.Integrity x.out ∧
      (a.opened = false → x.out.conn.outputBuffer.readable = [] →
        ∃ pre, .shutdownWrite ∉ pre ∧ x.out.trace = pre ++ [.shutdownWrite]) ∧
      ∀ data receiveTime w, data ≠ [] → data.length ≤ x.out.conn.inputBuffer.readvCapacity →
        x.out.conn.inputBuffer.writerIndex + data.length ≤ maxSize → x.Room →
        ((∃ y, step httpCallback x (.chunk data receiveTime w) = some y) ↔
          ∃ a', a.receive httpCallback data receiveTime = .ok a') := by
  obtain ⟨a, hconverse, h⟩ := run_serves hcb (serves_start hnew) hrun
  refine ⟨a, hconverse, h.requests, ?_, h.stream.integrity, h.halfClosed, ?_⟩
  · rw [h.stream.stream, h.sent]
  · intro data receiveTime w hne hcap hmax hroom
    obtain ⟨hok, herror⟩ := handleRead_serves hcb h hne hcap receiveTime w
    simp only [step, if_pos (And.intro hne hcap)]
    constructor
    · rintro ⟨y, hy⟩
      cases hreceive : a.receive httpCallback data receiveTime with
      | ok a' => exact ⟨a', rfl⟩
      | error e =>
          cases hread : x.handleRead httpCallback data receiveTime w with
          | ok y' => exact absurd hread (herror e hreceive y')
          | error e' =>
              rw [hread] at hy
              cases hy
    · rintro ⟨a', ha'⟩
      obtain ⟨y, hy, -⟩ := (hok a' ha').exists_ok
        (not_or.2 ⟨not_not.2 hroom, not_lt.2 hmax⟩)
      exact ⟨y, by rw [hy]; rfl⟩

/-- The socket takes no more than `n` bytes at a time. -/
def upTo (n : Nat) : Answer := fun data => ⟨.wrote (min n data.length), Nat.min_le_right ..⟩

theorem modest_defaultHttpCallback : Modest defaultHttpCallback := by
  intro req
  have hshort : (Dialogue.reply defaultHttpCallback HttpRequest.new).length < 2 ^ 31 := by decide
  exact hshort

set_option maxRecDepth 20000 in
/-- A request whose first byte arrives alone: the peer gets the 400 line, in two parts, and nothing
else. -/
theorem served_stream_cut :
    ∃ c x, TcpConnection.new 5 = .ok c ∧
      Run (step defaultHttpCallback) (Wire.start c.connectEstablished.1)
        [.chunk (ascii "G") 0 (upTo 20), .writable (upTo 20)] x ∧
      ∃ a, Dialogue.start.converse defaultHttpCallback [(ascii "G", 0)] = .ok a ∧
        accepted x.out.trace ++ x.out.conn.outputBuffer.readable = a.answers.flatten := by
  obtain ⟨c, hc⟩ : ∃ c, TcpConnection.new 5 = .ok c := ⟨_, rfl⟩
  obtain ⟨x, hexec⟩ : ∃ x, exec (step defaultHttpCallback) (Wire.start c.connectEstablished.1)
      [.chunk (ascii "G") 0 (upTo 20), .writable (upTo 20)] = some x := by
    cases hc
    exact ⟨_, rfl⟩
  have hrun := run_of_exec hexec
  obtain ⟨a, hconverse, -, hstream, -⟩ := served_stream modest_defaultHttpCallback hc hrun
  exact ⟨c, x, hc, hrun, a, hconverse, hstream⟩

end HttpServer
end MyServer
end MyCppCode
