import MyCppCode.MyServer.BufferFifo
import MyCppCode.MyServer.Channel

/-!
# TcpConnection — the member functions that run on the loop thread

Each function returns the object and the list of what it did to the outside, in order: system calls
on the socket, changes of the registration of the channel, functors handed to `queueInLoop`, and
callbacks to the user and to the server.  The answers of `::write` and `::readv` are arguments; a call
that does not reach its `::write` ignores the answer.

The second half is about the outgoing stream: what `sendInLoop` and `handleWrite` do to the bytes that
are waiting in the output buffer.
-/

namespace MyCppCode
namespace MyServer

open Foundation

def EWOULDBLOCK : Int := 11
def EPIPE : Int := 32
def ECONNRESET : Int := 104

/-- `TcpConnection::StateE`. -/
inductive StateE
  | kDisconnected
  | kConnecting
  | kConnected
  | kDisconnecting
  deriving DecidableEq, Repr

/-- What `::write` returned: a count, or `-1` with `errno`. -/
inductive WriteResult
  | wrote (n : Nat)
  | failed (errno : Int)
  deriving DecidableEq, Repr

/-- What a member function does to the outside. -/
inductive Effect
  | write (data : Bytes) (w : WriteResult)
  | shutdownWrite
  | updateChannel (events : EventMask)
  | removeChannel
  | connectionCallback
  | messageCallback
  | closeCallback
  | queueWriteComplete
  | queueHighWaterMark (size : Nat)
  deriving DecidableEq, Repr

/-- The fields of the class that these functions read or write.  Of the two optional callbacks only
their presence matters. -/
structure TcpConnection where
  state : StateE
  channel : Channel
  inputBuffer : Buffer
  outputBuffer : Buffer
  highWaterMark : Nat
  writeCompleteCallback : Bool
  highWaterMarkCallback : Bool
  deriving DecidableEq, Repr

namespace TcpConnection

/-- The constructor, on a socket that `accept` returned. -/
def new (fd : Int) : Except Halt TcpConnection := do
  let inputBuffer ← Buffer.new Buffer.kInitialSize
  let outputBuffer ← Buffer.new Buffer.kInitialSize
  return { state := .kConnecting
           channel := Channel.new fd
           inputBuffer := inputBuffer
           outputBuffer := outputBuffer
           highWaterMark := 64 * 1024 * 1024
           writeCompleteCallback := false
           highWaterMarkCallback := false }

def connectEstablished (c : TcpConnection) : TcpConnection × List Effect :=
  let channel := c.channel.tie.enableRead
  ({ c with state := .kConnected, channel := channel },
    [.updateChannel channel.events, .connectionCallback])

def connectDestroyed (c : TcpConnection) : TcpConnection × List Effect :=
  if c.state = .kConnected then
    let channel := c.channel.disableAll
    ({ c with state := .kDisconnected, channel := channel },
      [.updateChannel channel.events, .connectionCallback, .removeChannel])
  else
    (c, [.removeChannel])

def handleClose (c : TcpConnection) : TcpConnection × List Effect :=
  let channel := c.channel.disableAll
  ({ c with state := .kDisconnected, channel := channel },
    [.updateChannel channel.events, .connectionCallback, .closeCallback])

/-- `handleRead`; `handleError`, which follows a failed `::readv`, only reads `SO_ERROR` and logs. -/
def handleRead (c : TcpConnection) (r : Readv) : Except Halt (TcpConnection × List Effect) := do
  let (n, _, inputBuffer) ← c.inputBuffer.readFd r
  let c' := { c with inputBuffer := inputBuffer }
  if 0 < n then
    return (c', [.messageCallback])
  else if n = 0 then
    return c'.handleClose
  else
    return (c', [])

/-- `::write` straight from the message: the bytes that remain, `faultError`, and what was done. -/
def writeDirectly (c : TcpConnection) (data : Bytes) :
    WriteResult → Bytes × Bool × List Effect
  | .wrote n =>
      let rest := data.drop n
      (rest, false, .write data (.wrote n) ::
        if rest.length = 0 ∧ c.writeCompleteCallback = true then [.queueWriteComplete] else [])
  | .failed errno =>
      (data, errno ≠ EWOULDBLOCK ∧ (errno = EPIPE ∨ errno = ECONNRESET),
        [.write data (.failed errno)])

/-- The second half of `sendInLoop`: keep what remains and wait for the socket to be writable. -/
def keepRest (c : TcpConnection) (rest : Bytes) : Except Halt (TcpConnection × List Effect) := do
  let oldLen := c.outputBuffer.readableBytes
  let total := SizeT.add oldLen rest.length
  let highWater : List Effect :=
    if c.highWaterMark ≤ total ∧ oldLen < c.highWaterMark ∧ c.highWaterMarkCallback = true then
      [.queueHighWaterMark total]
    else []
  let outputBuffer ← c.outputBuffer.append rest
  if c.channel.isWrite then
    return ({ c with outputBuffer := outputBuffer }, highWater)
  else
    let channel := c.channel.enableWrite
    return ({ c with outputBuffer := outputBuffer, channel := channel },
      highWater ++ [.updateChannel channel.events])

/-- `sendInLoop` writes by itself: nothing is waiting in front of the message. -/
def writesDirectly (c : TcpConnection) : Prop :=
  c.channel.isWrite = false ∧ c.outputBuffer.readableBytes = 0

instance (c : TcpConnection) : Decidable c.writesDirectly :=
  inferInstanceAs (Decidable (_ ∧ _))

/-- The first half of `sendInLoop`. -/
def firstWrite (c : TcpConnection) (data : Bytes) (w : WriteResult) : Bytes × Bool × List Effect :=
  if c.writesDirectly then c.writeDirectly data w else (data, false, [])

/-- `sendInLoop(data, len)`. -/
def sendInLoop (c : TcpConnection) (data : Bytes) (w : WriteResult) :
    Except Halt (TcpConnection × List Effect) :=
  if c.state = .kDisconnected then
    .ok (c, [])
  else
    let (rest, faultError, done) := c.firstWrite data w
    if faultError = false ∧ 0 < rest.length then do
      let (c', kept) ← c.keepRest rest
      return (c', done ++ kept)
    else
      .ok (c, done)

/-- `send(const std::string&)` on the loop thread. -/
def send (c : TcpConnection) (msg : Bytes) (w : WriteResult) :
    Except Halt (TcpConnection × List Effect) :=
  if c.state = .kConnected then c.sendInLoop msg w
  else .ok (c, [])

/-- `send(Buffer*)` on the loop thread; the caller's buffer is emptied. -/
def sendBuffer (c : TcpConnection) (buf : Buffer) (w : WriteResult) :
    Except Halt (TcpConnection × Buffer × List Effect) :=
  if c.state = .kConnected then do
    let data ← readRange buf.buffer buf.readerIndex (buf.readerIndex + buf.readableBytes)
    let (c', done) ← c.sendInLoop data w
    return (c', buf.retrieveAll, done)
  else
    .ok (c, buf, [])

def shutdownInLoop (c : TcpConnection) : List Effect :=
  if c.channel.isWrite then [] else [.shutdownWrite]

/-- `shutdown()` on the loop thread, where `runInLoop` calls the functor at once. -/
def shutdown (c : TcpConnection) : TcpConnection × List Effect :=
  if c.state = .kConnected then
    let c' := { c with state := .kDisconnecting }
    (c', c'.shutdownInLoop)
  else
    (c, [])

/-- The branch of `handleWrite` in which `::write` has emptied the output buffer. -/
def finishWrite (c : TcpConnection) : TcpConnection × List Effect :=
  let channel := c.channel.disableWrite
  let c' := { c with channel := channel }
  (c', .updateChannel channel.events ::
    ((if c.writeCompleteCallback = true then [.queueWriteComplete] else []) ++
      (if c.state = .kDisconnecting then c'.shutdownInLoop else [])))

/-- `handleWrite`: the socket is reported writable. -/
def handleWrite (c : TcpConnection) (w : WriteResult) : TcpConnection × List Effect :=
  if c.channel.isWrite then
    let wrote : Effect := .write c.outputBuffer.readable w
    match w with
    | .wrote n =>
        if 0 < n then
          let c' := { c with outputBuffer := c.outputBuffer.retrieve n }
          if c'.outputBuffer.readableBytes = 0 then
            let (c'', done) := c'.finishWrite
            (c'', wrote :: done)
          else
            (c', [wrote])
        else
          (c, [wrote])
    | .failed _ => (c, [wrote])
  else
    (c, [])

end TcpConnection

/-! ## The outgoing stream -/

/-- The answers of `::write` to `len` bytes while the peer is there. -/
def WriteResult.Allowed (len : Nat) : WriteResult → Prop
  | .wrote n => n ≤ len
  | .failed errno => errno ≠ EPIPE ∧ errno ≠ ECONNRESET

instance (len : Nat) : (w : WriteResult) → Decidable (w.Allowed len)
  | .wrote n => inferInstanceAs (Decidable (n ≤ len))
  | .failed errno => inferInstanceAs (Decidable (errno ≠ EPIPE ∧ errno ≠ ECONNRESET))

/-- The bytes that the kernel took with one effect. -/
def Effect.accepted : Effect → Bytes
  | .write data (.wrote n) => data.take n
  | _ => []

/-- The bytes that the kernel took in the course of `effects`. -/
def accepted (effects : List Effect) : Bytes :=
  effects.flatMap Effect.accepted

@[simp] theorem accepted_nil : accepted [] = [] := rfl

@[simp] theorem accepted_cons (e : Effect) (effects : List Effect) :
    accepted (e :: effects) = e.accepted ++ accepted effects := rfl

@[simp] theorem accepted_append (xs ys : List Effect) :
    accepted (xs ++ ys) = accepted xs ++ accepted ys :=
  List.flatMap_append

namespace TcpConnection

variable {c : TcpConnection}

/-- The output buffer is in order, and the channel waits for the socket exactly while something is in
it. -/
structure Flowing (c : TcpConnection) : Prop where
  output : c.outputBuffer.Inv
  interest : c.channel.isWrite = true ↔ c.outputBuffer.readable ≠ []

theorem Flowing.readableBytes_eq_zero (h : Flowing c) :
    c.outputBuffer.readableBytes = 0 ↔ c.outputBuffer.readable = [] := by
  rw [← h.output.length_readable, List.length_eq_zero_iff]

theorem Flowing.isWrite_eq_false (h : Flowing c) :
    c.channel.isWrite = false ↔ c.outputBuffer.readable = [] := by
  have := h.interest
  cases hw : c.channel.isWrite <;> simp_all

theorem Flowing.writesDirectly_iff (h : Flowing c) :
    c.writesDirectly ↔ c.outputBuffer.readable = [] := by
  rw [writesDirectly, h.isWrite_eq_false, h.readableBytes_eq_zero, and_self]

/-- The bytes that `sendInLoop` leaves to `keepRest` fit the `int` of `makeSpace`. -/
def SendFits (c : TcpConnection) (data : Bytes) (w : WriteResult) : Prop :=
  Buffer.FitsInt c.outputBuffer (c.firstWrite data w).1.length

/-- What one call leaves behind: the stream flows, and the bytes that were waiting or came in are
accepted by the kernel or waiting, in their order. -/
structure Carries (c : TcpConnection) (data : Bytes) (r : TcpConnection × List Effect) : Prop where
  state : r.1.state = c.state
  flowing : Flowing r.1
  stream : accepted r.2 ++ r.1.outputBuffer.readable = c.outputBuffer.readable ++ data

theorem keepRest_spec (h : Flowing c) {rest : Bytes} (hne : rest ≠ [])
    (hfit : Buffer.FitsInt c.outputBuffer rest.length) :
    Completes (fun r => Carries c rest r ∧ .shutdownWrite ∉ r.2)
      (maxSize < c.outputBuffer.writerIndex + rest.length) (c.keepRest rest) := by
  refine Completes.bind (Buffer.append_spec h.output hfit) ?_
  rintro output ⟨hinv, hread⟩
  have hne' : output.readable ≠ [] := by simp [hread, hne]
  split
  · rename_i hwrite
    refine Completes.ok ⟨⟨rfl, ⟨hinv, ?_⟩, ?_⟩, ?_⟩
    · simp [hwrite, hne']
    · dsimp only
      split <;> simp [Effect.accepted, hread]
    · dsimp only
      split <;> simp
  · refine Completes.ok ⟨⟨rfl, ⟨hinv, ?_⟩, ?_⟩, ?_⟩
    · simp [hne']
    · dsimp only
      split <;> simp [Effect.accepted, hread]
    · dsimp only
      split <;> simp

/-- The first half of `sendInLoop` passes a prefix of the message to the kernel, and only when
nothing is waiting in front of it. -/
theorem firstWrite_spec {data : Bytes} {w : WriteResult} (hw : w.Allowed data.length) :
    (c.firstWrite data w).2.1 = false ∧
      accepted (c.firstWrite data w).2.2 ++ (c.firstWrite data w).1 = data ∧
      (¬ c.writesDirectly → (c.firstWrite data w).1 = data) ∧
      .shutdownWrite ∉ (c.firstWrite data w).2.2 := by
  unfold firstWrite
  split
  · cases w with
    | wrote n =>
        refine ⟨rfl, ?_, by simp_all, ?_⟩
        · simp only [writeDirectly]
          split <;> simp [Effect.accepted]
        · simp only [writeDirectly]
          split <;> simp
    | failed errno =>
        obtain ⟨h₁, h₂⟩ : errno ≠ EPIPE ∧ errno ≠ ECONNRESET := hw
        simp [writeDirectly, Effect.accepted, h₁, h₂]
  · simp

theorem sendInLoop_spec (h : Flowing c) (hstate : c.state ≠ .kDisconnected) {data : Bytes}
    {w : WriteResult} (hw : w.Allowed data.length) (hfit : SendFits c data w) :
    Completes (fun r => Carries c data r ∧ .shutdownWrite ∉ r.2)
      (maxSize < c.outputBuffer.writerIndex + data.length) (c.sendInLoop data w) := by
  obtain ⟨hfault, hsplit, hkept, hquiet⟩ := firstWrite_spec (c := c) hw
  unfold SendFits at hfit
  simp only [sendInLoop, if_neg hstate]
  generalize hfw : c.firstWrite data w = fw at *
  obtain ⟨rest, fault, done⟩ := fw
  simp only at hfault hsplit hkept hquiet hfit ⊢
  have hle : rest.length ≤ data.length := by
    rw [← hsplit, List.length_append]
    omega
  -- Bytes go past the output buffer only when it is empty.
  have horder : accepted done = [] ∨ c.outputBuffer.readable = [] := by
    by_cases hdirect : c.writesDirectly
    · exact .inr (h.writesDirectly_iff.1 hdirect)
    · have := hkept hdirect
      subst this
      exact .inl (by simpa using hsplit)
  split
  · rename_i hgo
    have hne : rest ≠ [] := List.ne_nil_of_length_pos hgo.2
    refine Completes.bind (Completes.mono (keepRest_spec h hne hfit) (fun _ hr => hr) (by omega)) ?_
    rintro ⟨c', kept⟩ ⟨⟨hst, hflow, hstream⟩, hno⟩
    refine Completes.ok ⟨⟨hst, hflow, ?_⟩, by simp [hquiet, hno]⟩
    simp only at hstream
    rw [accepted_append, List.append_assoc, hstream, ← hsplit]
    rcases horder with hnil | hnil <;> simp [hnil]
  · rename_i hstop
    have hnil : rest = [] := by
      have : ¬ 0 < rest.length := fun hpos => hstop ⟨hfault, hpos⟩
      exact List.eq_nil_of_length_eq_zero (by omega)
    refine Completes.ok ⟨⟨rfl, h, ?_⟩, hquiet⟩
    subst hnil
    have hdone : accepted done = data := by simpa using hsplit
    rcases horder with hempty | hempty <;> simp_all

/-- Whether a call made `shutdownWrite` its last action, and only that. -/
def halfClose (yes : Prop) [Decidable yes] : List Effect :=
  if yes then [.shutdownWrite] else []

@[simp] theorem accepted_halfClose (yes : Prop) [Decidable yes] : accepted (halfClose yes) = [] := by
  unfold halfClose
  split <;> rfl

/-- The branch of `handleWrite` that has emptied the buffer half-closes if that was asked for. -/
theorem finishWrite_spec (hinv : c.outputBuffer.Inv) (hempty : c.outputBuffer.readable = []) :
    Carries c [] c.finishWrite ∧ c.finishWrite.1.channel.isWrite = false ∧
      ∃ pre, .shutdownWrite ∉ pre ∧
        c.finishWrite.2 = pre ++ halfClose (c.state = .kDisconnecting) := by
  have hpre : c.finishWrite.2 = (.updateChannel c.channel.disableWrite.events ::
      if c.writeCompleteCallback = true then [.queueWriteComplete] else []) ++
        halfClose (c.state = .kDisconnecting) := by
    simp [finishWrite, shutdownInLoop, halfClose]
  refine ⟨⟨rfl, ⟨hinv, ?_⟩, ?_⟩, ?_, _, ?_, hpre⟩
  · simp [finishWrite, hempty]
  · rw [hpre]
    simp only [accepted_append, accepted_halfClose]
    split <;> simp [Effect.accepted, finishWrite]
  · simp [finishWrite]
  · split <;> simp

theorem handleWrite_of_isWrite_eq_false (h : c.channel.isWrite = false) (w : WriteResult) :
    c.handleWrite w = (c, []) := by
  simp [handleWrite, h]

/-- What `handleWrite` does while the channel waits for the socket: it writes from the front of the
buffer, and if that takes the last byte and a half-close was asked for, it ends with it. -/
structure Drains (c : TcpConnection) (r : TcpConnection × List Effect) : Prop where
  carries : Carries c [] r
  ends : ∃ pre, .shutdownWrite ∉ pre ∧
    r.2 = pre ++ halfClose (c.state = .kDisconnecting ∧ r.1.channel.isWrite = false)

/-- One `::write` after which something is still waiting. -/
theorem drains_of_readable_ne_nil (hwrite : c.channel.isWrite = true) {output : Buffer}
    {e : Effect} (he : e ≠ .shutdownWrite) (hinv : output.Inv) (hne : output.readable ≠ [])
    (hstream : e.accepted ++ output.readable = c.outputBuffer.readable) :
    Drains c ({ c with outputBuffer := output }, [e]) where
  carries := ⟨rfl, ⟨hinv, by simp [hwrite, hne]⟩, by simp [hstream]⟩
  ends := ⟨[e], by simp [Ne.symm he], by simp [halfClose, hwrite]⟩

theorem handleWrite_spec (h : Flowing c) (hwrite : c.channel.isWrite = true) (w : WriteResult) :
    Drains c (c.handleWrite w) := by
  have hne : c.outputBuffer.readable ≠ [] := h.interest.1 hwrite
  simp only [handleWrite, if_pos hwrite]
  cases w with
  | failed errno =>
      exact drains_of_readable_ne_nil hwrite (by simp) h.output hne (by simp [Effect.accepted])
  | wrote n =>
      obtain ⟨hinv, hread⟩ := Buffer.retrieve_spec h.output n
      have hzero : (c.outputBuffer.retrieve n).readableBytes = 0 ↔
          (c.outputBuffer.retrieve n).readable = [] := by
        rw [← hinv.length_readable, List.length_eq_zero_iff]
      have htook : c.outputBuffer.readable.take n ++ (c.outputBuffer.retrieve n).readable =
          c.outputBuffer.readable := by
        rw [hread, List.take_append_drop]
      simp only
      split
      · split
        · rename_i hempty
          rw [hzero] at hempty
          obtain ⟨⟨hst, hflow, hstream⟩, hoff, pre, hpre, heff⟩ :=
            finishWrite_spec (c := { c with outputBuffer := c.outputBuffer.retrieve n }) hinv hempty
          refine ⟨⟨hst, hflow, ?_⟩, .write c.outputBuffer.readable (.wrote n) :: pre, ?_, ?_⟩
          · simp only [accepted_cons, List.append_assoc, hstream, Effect.accepted, htook,
              List.append_nil]
          · simp [hpre]
          · simp [heff, hoff]
        · rename_i hmore
          exact drains_of_readable_ne_nil hwrite (by simp) hinv (mt hzero.2 hmore) htook
      · rename_i hn
        have hn0 : n = 0 := by omega
        subst hn0
        exact drains_of_readable_ne_nil hwrite (by simp) h.output hne (by simp [Effect.accepted])

/-- Only a `::write` that takes everything makes `handleWrite` stop waiting for the socket. -/
theorem handleWrite_drained (h : Flowing c) (hwrite : c.channel.isWrite = true) {w : WriteResult}
    (hoff : (c.handleWrite w).1.channel.isWrite = false) :
    ∃ n, w = .wrote n ∧ c.outputBuffer.readable.length ≤ n := by
  simp only [handleWrite, if_pos hwrite] at hoff
  cases w with
  | failed errno =>
      simp [hwrite] at hoff
  | wrote n =>
      obtain ⟨hinv, hread⟩ := Buffer.retrieve_spec h.output n
      refine ⟨n, rfl, ?_⟩
      simp only at hoff
      split at hoff
      · split at hoff
        · rename_i hzero
          rw [← hinv.length_readable, hread, List.length_drop] at hzero
          omega
        · simp [hwrite] at hoff
      · simp [hwrite] at hoff

/-! ## What the member functions leave alone -/

/-- `sendInLoop` leaves the state of the connection alone. -/
theorem sendInLoop_state {c' : TcpConnection} {data : Bytes} {w : WriteResult}
    {effects : List Effect} (h : c.sendInLoop data w = .ok (c', effects)) : c'.state = c.state := by
  unfold sendInLoop at h
  split at h
  · cases h
    rfl
  · simp only at h
    split at h
    · obtain ⟨⟨c₁, kept⟩, hkeep, hret⟩ := bind_eq_ok h
      cases hret
      unfold keepRest at hkeep
      obtain ⟨output, -, hret⟩ := bind_eq_ok hkeep
      split at hret <;> cases hret <;> rfl
    · cases h
      rfl

theorem handleWrite_state (c : TcpConnection) (w : WriteResult) :
    (c.handleWrite w).1.state = c.state := by
  unfold handleWrite
  split
  · cases w with
    | failed errno => rfl
    | wrote n =>
        simp only
        split
        · split <;> rfl
        · rfl
  · rfl

/-- `handleRead`, when the peer has closed: it ends in `handleClose`. -/
theorem handleRead_nil {r : TcpConnection × List Effect} (h : c.handleRead (.delivered []) = .ok r) :
    r.1.state = .kDisconnected ∧ r.1.channel = c.channel.disableAll ∧
      r.2 = [.updateChannel Channel.kNoneEvent, .connectionCallback, .closeCallback] := by
  obtain ⟨⟨n, errno, inputBuffer⟩, hfd, hclose⟩ := bind_eq_ok h
  -- Nothing was delivered, so the read returned zero.
  have hn : n = 0 := by
    simp only [Buffer.readFd, List.length_nil, Nat.zero_le, if_true] at hfd
    obtain ⟨v, -, hv⟩ := bind_eq_ok hfd
    cases hv
    rfl
  subst hn
  cases hclose
  exact ⟨rfl, rfl, by simp [handleClose]⟩

/-- `handleRead`, when something was read or the read failed. -/
theorem handleRead_of_ne_nil {r : TcpConnection × List Effect} {readv : Readv}
    (hreadv : readv ≠ .delivered []) (h : c.handleRead readv = .ok r) :
    r.1.state = c.state ∧ r.1.channel = c.channel ∧ (r.2 = [] ∨ r.2 = [.messageCallback]) := by
  obtain ⟨⟨n, errno, inputBuffer⟩, hfd, hr⟩ := bind_eq_ok h
  have hn : n ≠ 0 := by
    rintro rfl
    cases readv with
    | error errno => cases hfd
    | delivered data =>
        have hlen : data.length ≠ 0 := fun hz => hreadv (by rw [List.length_eq_zero_iff.1 hz])
        simp only [Buffer.readFd] at hfd
        split at hfd
        · obtain ⟨v, -, hv⟩ := bind_eq_ok hfd
          have hz : ((data.length : Nat) : Int) = 0 := congrArg Prod.fst (Except.ok.inj hv)
          omega
        · obtain ⟨v, -, hv⟩ := bind_eq_ok hfd
          obtain ⟨b, -, hv⟩ := bind_eq_ok hv
          have hz : ((data.length : Nat) : Int) = 0 := congrArg Prod.fst (Except.ok.inj hv)
          omega
  simp only at hr
  split at hr
  · cases hr
    exact ⟨rfl, rfl, .inr rfl⟩
  · cases hr
    exact ⟨rfl, rfl, .inl rfl⟩

end TcpConnection

end MyServer
end MyCppCode
