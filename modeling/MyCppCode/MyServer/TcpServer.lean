import Mathlib.Data.Int.DivMod
import MyCppCode.MyServer.EpollPoller
import MyCppCode.MyServer.TcpConnection

/-!
# TcpServer — accepting, dispatching and tearing down connections

The server with its loops: loop `0` is the main loop, which accepts and owns `m_connections`; the
loops `1 … numThreads` are the io loops.  A `TcpConnection` object is a number, in the order of
`accept`.  What a loop thread still has to do inside the call that it is in is its `stack`; one step
takes the top off it.  So the two halves of `newConnection`, of `handleClose` and of
`removeConnectionInLoop` are steps of their own, and the steps of other threads may come in between.

The handlers of a channel are those of `TcpConnection`.  The registration changes among their effects
are carried out on the poller of the connection's loop; user callbacks may call `send` and `shutdown` on
their connection any number of times.
-/

namespace MyCppCode
namespace MyServer

open Foundation

/-! ## Names -/

/-- `sockaddr_in`: the four bytes of the address, and the port. -/
structure InetAddress where
  a : UInt8
  b : UInt8
  c : UInt8
  d : UInt8
  port : UInt16
  deriving DecidableEq, Repr

def InetAddress.toIpPort (addr : InetAddress) : List Char :=
  decimal addr.a.toNat ++ '.' :: decimal addr.b.toNat ++ '.' :: decimal addr.c.toNat ++
    '.' :: decimal addr.d.toNat ++ ':' :: decimal addr.port.toNat

namespace TcpServer

structure Config where
  name : List Char
  listenAddr : InetAddress
  numThreads : Nat
  deriving DecidableEq, Repr

/-- The name that `newConnection` gives to a connection. -/
def connName (cfg : Config) (nextConnId : Int) : List Char :=
  cfg.name ++ snprintf 64 ('-' :: cfg.listenAddr.toIpPort ++ '#' :: formatInt nextConnId)

/-! ## State -/

/-- A functor bound to a connection by `TcpServer`; each holds a `TcpConnectionPtr`. -/
inductive Functor
  | connectEstablished (x : Nat)
  | removeConnectionInLoop (x : Nat)
  | connectDestroyed (x : Nat)
  deriving DecidableEq, Repr

def Functor.conn : Functor → Nat
  | .connectEstablished x => x
  | .removeConnectionInLoop x => x
  | .connectDestroyed x => x

/-- What a loop thread still has to do inside a call. -/
inductive Task
  /-- `newConnection`, from its `runInLoop` on. -/
  | establish (x : Nat)
  | callback (x : Nat) (cb : Channel.Callback)
  /-- `handleClose`, from its `m_closeCallback` on. -/
  | closeCallback (x : Nat)
  | removeConnectionInLoop (x : Nat)
  /-- `removeConnectionInLoop`, from its `queueInLoop` on. -/
  | queueDestroyed (x : Nat)
  deriving DecidableEq, Repr

/-- The connection of the `TcpConnectionPtr` that a running functor of `TcpServer` holds.  The local
variables of the handlers do not count. -/
def Task.bound : Task → Option Nat
  | .establish x => some x
  | .callback _ _ => none
  | .closeCallback _ => none
  | .removeConnectionInLoop x => some x
  | .queueDestroyed x => some x

inductive Phase
  | poll
  | dispatch
  | functors
  deriving DecidableEq, Repr

structure Loop where
  poller : Poller Nat
  phase : Phase
  /-- `m_activeChannels` while the iteration is being dispatched. -/
  active : List Nat
  /-- The active channels whose `handleEvent` is still to come. -/
  work : List Nat
  stack : List Task
  pendingFunctors : List Functor
  /-- The vector `functors` of `doPendingFunctors`, destroyed at its end. -/
  functors : List Functor
  /-- The functors of the vector that have not been called yet. -/
  todo : List Functor

def Loop.init : Loop :=
  { poller := Poller.empty
    phase := .poll
    active := []
    work := []
    stack := []
    pendingFunctors := []
    functors := []
    todo := [] }

/-- A `TcpConnection` with its constant name and loop. -/
structure Conn where
  name : List Char
  loop : Nat
  conn : TcpConnection

structure State where
  connections : List Char → Option Nat
  nextConnId : Int
  /-- `m_next` of the thread pool. -/
  next : Nat
  /-- The number of connections accepted so far. -/
  accepted : Nat
  conns : Nat → Conn
  loops : Nat → Loop

namespace State

def setLoop (s : State) (l : Nat) (lp : Loop) : State :=
  { s with loops := Function.update s.loops l lp }

def setStack (s : State) (l : Nat) (stack : List Task) : State :=
  s.setLoop l { s.loops l with stack := stack }

def queueInLoop (s : State) (l : Nat) (f : Functor) : State :=
  s.setLoop l { s.loops l with pendingFunctors := (s.loops l).pendingFunctors ++ [f] }

/-- `getNextLoop()`: the loop, and `m_next` afterwards. -/
def getNextLoop (cfg : Config) (next : Nat) : Nat × Nat :=
  if cfg.numThreads = 0 then (0, next)
  else (next + 1, if cfg.numThreads ≤ next + 1 then 0 else next + 1)

end State

/-! ## Steps -/

/-- A call of a user callback on its connection. -/
inductive UserCall
  | send (msg : Bytes) (w : WriteResult)
  | shutdown
  deriving DecidableEq, Repr

/-- The calls that a user callback makes on its connection, on the loop thread. -/
def userCalls (c : TcpConnection) : List UserCall → Except Halt (TcpConnection × List Effect)
  | [] => .ok (c, [])
  | .send msg w :: rest => do
      let (c₁, done) ← c.send msg w
      let (c₂, more) ← userCalls c₁ rest
      return (c₂, done ++ more)
  | .shutdown :: rest => do
      let (c₂, more) ← userCalls c.shutdown.1 rest
      return (c₂, c.shutdown.2 ++ more)

/-- What a callback of the channel meets: the answers of the system calls and the user's calls. -/
structure Input where
  readv : Readv
  write : WriteResult
  calls : List UserCall
  deriving DecidableEq, Repr

/-- A callback of the channel of `c`, with the calls that its user callback makes.  The callbacks of
`handleClose` find the state `kDisconnected`, in which `send` and `shutdown` do nothing. -/
def runCallback (c : TcpConnection) (input : Input) :
    Channel.Callback → Except Halt (TcpConnection × List Effect)
  | .close => .ok c.handleClose
  | .error => .ok (c, [])
  | .read => do
      let (c₁, done) ← c.handleRead input.readv
      if .messageCallback ∈ done then
        let (c₂, more) ← userCalls c₁ input.calls
        return (c₂, done ++ more)
      else
        return (c₁, done)
  | .write => .ok (c.handleWrite input.write)

/-- `connectEstablished` with the calls of the user's connection callback. -/
def runEstablished (c : TcpConnection) (calls : List UserCall) :
    Except Halt (TcpConnection × List Effect) := do
  let (c₂, more) ← userCalls c.connectEstablished.1 calls
  return (c₂, c.connectEstablished.2 ++ more)

/-- The change of the registration of channel `k` that an effect stands for. -/
def register (p : Poller Nat) (k : Nat) (ch : Channel) : Effect → Option (Poller Nat × Channel)
  | .updateChannel events => p.updateChannel k { ch with events := events }
  | .removeChannel => p.removeChannel k ch
  | _ => some (p, ch)

/-- The changes of the registration of channel `k` among `effects`, made on a poller. -/
def carryOut (p : Poller Nat) (k : Nat) (ch : Channel) : List Effect → Option (Poller Nat × Channel)
  | [] => some (p, ch)
  | e :: rest => (register p k ch e).bind fun r => carryOut r.1 k r.2 rest

/-- Connection `x` becomes `r.1`, with the effects `r.2` on the poller of its loop. -/
def State.apply (s : State) (x : Nat) (r : TcpConnection × List Effect) : Option State := do
  let home := (s.conns x).loop
  let (p, ch) ← carryOut (s.loops home).poller x (s.conns x).conn.channel r.2
  return { s.setLoop home { s.loops home with poller := p } with
    conns := Function.update s.conns x
      { s.conns x with
        conn := { r.1 with channel := { r.1.channel with index := ch.index } } } }

inductive Event
  | newConnection (fd : Int)
  | establish (l : Nat) (calls : List UserCall)
  | poll (l : Nat) (reported : List (Nat × EventMask))
  | handleEvent (l : Nat) (locked : Bool)
  | callback (l : Nat) (input : Input)
  | closeCallback (l : Nat)
  | removeConnectionInLoop (l : Nat)
  | queueDestroyed (l : Nat)
  | doPendingFunctors (l : Nat)
  | runFunctor (l : Nat) (calls : List UserCall)
  | endFunctors (l : Nat)
  deriving DecidableEq, Repr

/-- `fillActiveChannels`: the reported events are stored in their channels. -/
def setRevents (conns : Nat → Conn) (reported : List (Nat × EventMask)) (x : Nat) : Conn :=
  match reported.lookup x with
  | some revents =>
      { conns x with
        conn := { (conns x).conn with channel := (conns x).conn.channel.setRevents revents } }
  | none => conns x

/-- The interest list of loop `l` has an entry that points to channel `x`. -/
def State.registered (s : State) (l x : Nat) : Bool :=
  match (s.loops l).poller.interest (s.conns x).conn.channel.fd with
  | some (y, _) => y == x
  | none => false

/-- The first half of `newConnection`, up to `m_connections[connName] = conn`. -/
def newConnection (cfg : Config) (s : State) (c : TcpConnection) : State :=
  let name := connName cfg s.nextConnId
  { s.setStack 0 [.establish s.accepted] with
    connections := Function.update s.connections name (some s.accepted)
    nextConnId := (s.nextConnId + 1).bmod (2 ^ 32)
    next := (State.getNextLoop cfg s.next).2
    accepted := s.accepted + 1
    conns := Function.update s.conns s.accepted
      { name := name
        loop := (State.getNextLoop cfg s.next).1
        conn := c } }

/-- One step of one loop thread.  The number of accepted connections stays below `2 ^ 31`. -/
def step (cfg : Config) (s : State) : Event → Option State
  | .newConnection fd =>
      if (s.loops 0).phase = .dispatch ∧ (s.loops 0).stack = [] ∧ s.accepted + 1 < 2 ^ 31 then do
        let c ← (TcpConnection.new fd).toOption
        return newConnection cfg s c
      else none
  | .establish l calls =>
      match (s.loops l).stack with
      | .establish x :: rest =>
          if (s.conns x).loop = l then do
            let r ← (runEstablished (s.conns x).conn calls).toOption
            (s.setStack l rest).apply x r
          else
            some ((s.setStack l rest).queueInLoop (s.conns x).loop (.connectEstablished x))
      | _ => none
  | .poll l reported =>
      if (s.loops l).phase = .poll ∧ ∀ r ∈ reported, s.registered l r.1 = true then
        some
          { s.setLoop l
              { s.loops l with
                phase := .dispatch
                active := reported.map (·.1)
                work := reported.map (·.1) } with
            conns := setRevents s.conns reported }
      else none
  | .handleEvent l locked =>
      match (s.loops l).stack, (s.loops l).work with
      | [], x :: rest =>
          let channel := (s.conns x).conn.channel
          -- `m_tie.lock()` may find the object gone, if nothing but the tie refers to it.
          let tasks :=
            if channel.tied = true ∧ locked = false then []
            else (Channel.callbacks channel.revents).map (Task.callback x)
          some (s.setLoop l { s.loops l with work := rest, stack := tasks })
      | _, _ => none
  | .callback l input =>
      match (s.loops l).stack with
      | .callback x cb :: rest => do
          let r ← (runCallback (s.conns x).conn input cb).toOption
          let close := if .closeCallback ∈ r.2 then [Task.closeCallback x] else []
          (s.setStack l (close ++ rest)).apply x r
      | _ => none
  | .closeCallback l =>
      match (s.loops l).stack with
      | .closeCallback x :: rest =>
          -- `removeConnection`: `m_loop->runInLoop`.
          if l = 0 then some (s.setStack l (.removeConnectionInLoop x :: rest))
          else some ((s.setStack l rest).queueInLoop 0 (.removeConnectionInLoop x))
      | _ => none
  | .removeConnectionInLoop l =>
      match (s.loops l).stack with
      | .removeConnectionInLoop x :: rest =>
          some
            { s.setStack l (.queueDestroyed x :: rest) with
              connections := Function.update s.connections (s.conns x).name none }
      | _ => none
  | .queueDestroyed l =>
      match (s.loops l).stack with
      | .queueDestroyed x :: rest =>
          some ((s.setStack l rest).queueInLoop (s.conns x).loop (.connectDestroyed x))
      | _ => none
  | .doPendingFunctors l =>
      if (s.loops l).phase = .dispatch ∧ (s.loops l).stack = [] ∧ (s.loops l).work = [] then
        some (s.setLoop l
          { s.loops l with
            phase := .functors
            active := []
            pendingFunctors := []
            functors := (s.loops l).pendingFunctors
            todo := (s.loops l).pendingFunctors })
      else none
  | .runFunctor l calls =>
      if (s.loops l).phase = .functors ∧ (s.loops l).stack = [] then
        match (s.loops l).todo with
        | .connectEstablished x :: rest => do
            let r ← (runEstablished (s.conns x).conn calls).toOption
            (s.setLoop l { s.loops l with todo := rest }).apply x r
        | .removeConnectionInLoop x :: rest =>
            some (s.setLoop l
              { s.loops l with todo := rest, stack := [.removeConnectionInLoop x] })
        | .connectDestroyed x :: rest =>
            (s.setLoop l { s.loops l with todo := rest }).apply x (s.conns x).conn.connectDestroyed
        | [] => none
      else none
  | .endFunctors l =>
      if (s.loops l).phase = .functors ∧ (s.loops l).stack = [] ∧ (s.loops l).todo = [] then
        some (s.setLoop l { s.loops l with phase := .poll, functors := [] })
      else none

/-- What stands in `conns` where no connection has been accepted yet. -/
def Conn.unused : Conn :=
  let buffer : Buffer :=
    { buffer := []
      readerIndex := 0
      writerIndex := 0 }
  { name := []
    loop := 0
    conn :=
      { state := .kDisconnected
        channel := Channel.new (-1)
        inputBuffer := buffer
        outputBuffer := buffer
        highWaterMark := 0
        writeCompleteCallback := false
        highWaterMarkCallback := false } }

/-- The server before the first connection. -/
def State.start : State :=
  { connections := fun _ => none
    nextConnId := 1
    next := 0
    accepted := 0
    conns := fun _ => Conn.unused
    loops := fun _ => Loop.init }

/-! ## Registration -/

theorem tracks_congr {p : Poller Nat} {k : Nat} {ch ch' : Channel} (h : p.Tracks k ch)
    (hfd : ch'.fd = ch.fd) (hindex : ch'.index = ch.index) : p.Tracks k ch' :=
  ⟨fun fd hk => hfd ▸ h.channels fd hk, fun fd mask hk => hfd ▸ hindex ▸ h.interest fd mask hk⟩

theorem tracks_of_not_knows {p : Poller Nat} {k : Nat} (h : ¬ p.Knows k) (ch : Channel) :
    p.Tracks k ch :=
  ⟨fun fd hk => absurd (.inl ⟨fd, hk⟩) h, fun fd mask hk => absurd (.inr ⟨fd, mask, hk⟩) h⟩

theorem register_spec {p p' : Poller Nat} {k : Nat} {ch ch' : Channel} {e : Effect}
    (ht : p.Tracks k ch) (h : register p k ch e = some (p', ch')) :
    p'.Tracks k ch' ∧ Poller.OnlyTouches k p p' ∧ ch'.fd = ch.fd := by
  cases e with
  | updateChannel events =>
      have ht₁ : p.Tracks k { ch with events := events } := tracks_congr ht rfl rfl
      obtain ⟨ht', htouch, index, rfl⟩ := Poller.updateChannel_spec ht₁ h
      exact ⟨ht', htouch, rfl⟩
  | removeChannel =>
      obtain ⟨hgone, htouch, rfl⟩ := Poller.removeChannel_spec ht h
      exact ⟨tracks_of_not_knows hgone _, htouch, rfl⟩
  | write | shutdownWrite | connectionCallback | messageCallback | closeCallback
  | queueWriteComplete | queueHighWaterMark =>
      obtain ⟨rfl, rfl⟩ := Prod.mk.inj (Option.some.inj h)
      exact ⟨ht, Poller.OnlyTouches.refl k p, rfl⟩

theorem carryOut_spec {p p' : Poller Nat} {k : Nat} {ch ch' : Channel} {effects : List Effect}
    (ht : p.Tracks k ch) (h : carryOut p k ch effects = some (p', ch')) :
    p'.Tracks k ch' ∧ Poller.OnlyTouches k p p' ∧ ch'.fd = ch.fd := by
  induction effects generalizing p ch with
  | nil =>
      obtain ⟨rfl, rfl⟩ := Prod.mk.inj (Option.some.inj h)
      exact ⟨ht, Poller.OnlyTouches.refl k p, rfl⟩
  | cons e effects ih =>
      obtain ⟨⟨q, ch₁⟩, hreg, hrest⟩ := Option.bind_eq_some_iff.1 h
      obtain ⟨ht₁, htouch₁, hfd₁⟩ := register_spec ht hreg
      obtain ⟨ht₂, htouch₂, hfd₂⟩ := ih ht₁ hrest
      exact ⟨ht₂, htouch₁.trans htouch₂, hfd₂.trans hfd₁⟩

/-- What ends with `removeChannel` leaves nothing behind. -/
theorem carryOut_removeChannel {p p' : Poller Nat} {k : Nat} {ch ch' : Channel}
    {effects : List Effect} (ht : p.Tracks k ch)
    (h : carryOut p k ch (effects ++ [.removeChannel]) = some (p', ch')) : ¬ p'.Knows k := by
  induction effects generalizing p ch with
  | nil =>
      obtain ⟨⟨q, ch₁⟩, hrem, hrest⟩ := Option.bind_eq_some_iff.1 h
      obtain ⟨rfl, rfl⟩ := Prod.mk.inj (Option.some.inj hrest)
      exact (Poller.removeChannel_spec ht hrem).1
  | cons e effects ih =>
      obtain ⟨⟨q, ch₁⟩, hreg, hrest⟩ := Option.bind_eq_some_iff.1 h
      exact ih (register_spec ht hreg).1 hrest

/-! ## The handlers keep the descriptor and the tie -/

/-- `c'` has the channel of `c`, with another interest at most. -/
def SameChannel (c c' : TcpConnection) : Prop :=
  c'.channel.fd = c.channel.fd ∧ c'.channel.tied = c.channel.tied

theorem SameChannel.trans {c₁ c₂ c₃ : TcpConnection} (h₁ : SameChannel c₁ c₂)
    (h₂ : SameChannel c₂ c₃) : SameChannel c₁ c₃ :=
  ⟨h₂.1.trans h₁.1, h₂.2.trans h₁.2⟩

theorem toOption_eq_some {α : Type} {x : Except Halt α} {a : α} (h : x.toOption = some a) :
    x = .ok a := by
  cases x with
  | error e => cases h
  | ok b =>
      cases h
      rfl

theorem sameChannel_sendInLoop {c : TcpConnection} {data : Bytes} {w : WriteResult}
    {r : TcpConnection × List Effect} (h : c.sendInLoop data w = .ok r) : SameChannel c r.1 := by
  unfold TcpConnection.sendInLoop at h
  split at h
  · cases h
    exact ⟨rfl, rfl⟩
  · simp only at h
    split at h
    · obtain ⟨r₁, hkeep, hr⟩ := bind_eq_ok h
      cases hr
      obtain ⟨output, -, hout⟩ := bind_eq_ok hkeep
      split at hout <;> cases hout <;> exact ⟨rfl, rfl⟩
    · cases h
      exact ⟨rfl, rfl⟩

theorem sameChannel_send {c : TcpConnection} {msg : Bytes} {w : WriteResult}
    {r : TcpConnection × List Effect} (h : c.send msg w = .ok r) : SameChannel c r.1 := by
  unfold TcpConnection.send at h
  split at h
  · exact sameChannel_sendInLoop h
  · cases h
    exact ⟨rfl, rfl⟩

theorem sameChannel_shutdown (c : TcpConnection) : SameChannel c c.shutdown.1 := by
  unfold TcpConnection.shutdown
  split <;> exact ⟨rfl, rfl⟩

/-- What every call of the user does to the connection and to the outside, the calls of a callback do
together. -/
theorem userCalls_induction {R : TcpConnection → TcpConnection → List Effect → Prop}
    (hnil : ∀ c, R c c [])
    (hsend : ∀ (c : TcpConnection) msg w r, c.send msg w = .ok r → R c r.1 r.2)
    (hshutdown : ∀ c : TcpConnection, R c c.shutdown.1 c.shutdown.2)
    (htrans : ∀ c₁ c₂ c₃ done more, R c₁ c₂ done → R c₂ c₃ more → R c₁ c₃ (done ++ more))
    {c : TcpConnection} {calls : List UserCall} {r : TcpConnection × List Effect}
    (h : userCalls c calls = .ok r) : R c r.1 r.2 := by
  induction calls generalizing c r with
  | nil =>
      cases h
      exact hnil c
  | cons call calls ih =>
      cases call with
      | send msg w =>
          obtain ⟨r₁, hcall, hrest⟩ := bind_eq_ok h
          obtain ⟨r₂, hcalls, hr⟩ := bind_eq_ok hrest
          have h₂ : R r₁.1 r₂.1 r₂.2 := ih hcalls
          cases hr
          exact htrans _ _ _ _ _ (hsend c msg w r₁ hcall) h₂
      | shutdown =>
          obtain ⟨r₂, hcalls, hr⟩ := bind_eq_ok h
          have h₂ : R c.shutdown.1 r₂.1 r₂.2 := ih hcalls
          cases hr
          exact htrans _ _ _ _ _ (hshutdown c) h₂

theorem sameChannel_userCalls {c : TcpConnection} {calls : List UserCall}
    {r : TcpConnection × List Effect} (h : userCalls c calls = .ok r) : SameChannel c r.1 :=
  userCalls_induction (R := fun c c' _ => SameChannel c c') (fun _ => ⟨rfl, rfl⟩)
    (fun _ _ _ _ => sameChannel_send) sameChannel_shutdown (fun _ _ _ _ _ => SameChannel.trans) h

theorem sameChannel_handleWrite (c : TcpConnection) (w : WriteResult) :
    SameChannel c (c.handleWrite w).1 := by
  unfold TcpConnection.handleWrite
  split
  · cases w with
    | failed errno => exact ⟨rfl, rfl⟩
    | wrote n =>
        simp only
        split
        · split <;> exact ⟨rfl, rfl⟩
        · exact ⟨rfl, rfl⟩
  · exact ⟨rfl, rfl⟩

theorem sameChannel_handleRead {c : TcpConnection} {readv : Readv} {r : TcpConnection × List Effect}
    (h : c.handleRead readv = .ok r) : SameChannel c r.1 := by
  obtain ⟨⟨n, errno, input⟩, -, hr⟩ := bind_eq_ok h
  simp only at hr
  split at hr
  · cases hr
    exact ⟨rfl, rfl⟩
  · split at hr <;> cases hr <;> exact ⟨rfl, rfl⟩

theorem sameChannel_runCallback {c : TcpConnection} {input : Input} {cb : Channel.Callback}
    {r : TcpConnection × List Effect} (h : runCallback c input cb = .ok r) : SameChannel c r.1 := by
  cases cb with
  | close =>
      cases h
      exact ⟨rfl, rfl⟩
  | error =>
      cases h
      exact ⟨rfl, rfl⟩
  | write =>
      cases h
      exact sameChannel_handleWrite c input.write
  | read =>
      obtain ⟨r₁, hread, hr⟩ := bind_eq_ok h
      have h₁ := sameChannel_handleRead hread
      simp only at hr
      split at hr
      · obtain ⟨r₂, hcalls, hr'⟩ := bind_eq_ok hr
        have h₂ : SameChannel r₁.1 r₂.1 := sameChannel_userCalls hcalls
        cases hr'
        exact h₁.trans h₂
      · cases hr
        exact h₁

/-- `connectEstablished` ties the channel to its connection. -/
theorem runEstablished_channel {c : TcpConnection} {calls : List UserCall}
    {r : TcpConnection × List Effect} (h : runEstablished c calls = .ok r) :
    r.1.channel.fd = c.channel.fd ∧ r.1.channel.tied = true := by
  obtain ⟨r₁, hcalls, hr⟩ := bind_eq_ok h
  cases hr
  have hsame := sameChannel_userCalls hcalls
  exact ⟨hsame.1.trans rfl, hsame.2.trans rfl⟩

theorem connectDestroyed_spec (c : TcpConnection) :
    SameChannel c c.connectDestroyed.1 ∧ ∃ pre, c.connectDestroyed.2 = pre ++ [.removeChannel] := by
  unfold TcpConnection.connectDestroyed
  split
  · exact ⟨⟨rfl, rfl⟩, [.updateChannel c.channel.disableAll.events, .connectionCallback], rfl⟩
  · exact ⟨⟨rfl, rfl⟩, [], rfl⟩

end TcpServer

end MyServer
end MyCppCode
