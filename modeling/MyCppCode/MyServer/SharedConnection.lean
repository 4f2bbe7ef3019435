import MyCppCode.MyServer.EventLoop
import MyCppCode.MyServer.TcpConnection

/-!
# SharedConnection — one established connection, its loop, its server and the threads that use it

A user keeps a connection by a `TcpConnectionPtr` and may call `send` and `shutdown` on any thread.
Meanwhile the loop thread runs the handlers of the channel and the functors that were queued, and the
base loop of the server removes the connection.  A step is one access to something that the threads
share: a load or a store of `m_state`, the locked push of a functor, the swap of `doPendingFunctors`,
the start and the end of a functor, the copy or the release of a reference, and a change of a string
whose characters may have been handed to `send`.

References are counted where the source keeps them: the entry of `m_connections`, the pointers of
the users, the guard of `handleEvent`, `connPtr` of `handleClose`, the functors that are bound to a
`TcpConnectionPtr`.  The functors of `send` and `shutdown` are bound to `this` and count for nothing.
-/

namespace MyCppCode
namespace MyServer
namespace SharedConnection

open Foundation
open EventLoop (Thread)

/-! ## Data -/

/-- The storage of a `std::string` of a user: the thread that it belongs to, and a number.  A string
that grows out of its storage leaves one cell for another. -/
abbrev Cell := Thread × Nat

/-- The argument of `send`: a string of the calling thread, or a `Buffer` with this content. -/
inductive Arg
  | string (i : Nat)
  | buffer (data : Bytes)
  deriving DecidableEq, Repr

/-- What a queued `sendInLoop` is bound to. -/
inductive Payload
  /-- `buf.c_str()` and `buf.size()`. -/
  | chars (cell : Cell) (len : Nat)
  /-- The string that `retrieveAllAsString` returned. -/
  | copy (data : Bytes)
  deriving DecidableEq, Repr

/-- A functor of the connection in `m_pendingFunctors`.  That of `sendInLoop` also records, as history,
what the argument held when `send` was called. -/
inductive Functor
  | sendInLoop (payload : Payload) (promised : Bytes)
  | shutdownInLoop
  | connectDestroyed
  /-- `m_writeCompleteCallback` or `m_highWaterMarkCallback` with `shared_from_this()`. -/
  | callback
  deriving DecidableEq, Repr

/-- The functor is bound to a `TcpConnectionPtr`, not to `this`. -/
def Functor.owns : Functor → Bool
  | .sendInLoop _ _ => false
  | .shutdownInLoop => false
  | .connectDestroyed => true
  | .callback => true

/-- Where a thread stands inside `send` or `shutdown`. -/
inductive Call
  | idle
  | sending (arg : Arg) (promised : Bytes)
  | shutdownTested
  | shutdownStored
  deriving DecidableEq, Repr

/-- Where the loop thread stands, as far as this connection is concerned. -/
inductive LoopPc
  | poll
  | handleEvent
  /-- In `handleClose`, before `m_closeCallback`. -/
  | handleClose
  | doPendingFunctors
  deriving DecidableEq, Repr

/-- The guard of `handleEvent`, and `connPtr` of `handleClose`. -/
def LoopPc.refs : LoopPc → Nat
  | .poll => 0
  | .handleEvent => 1
  | .handleClose => 2
  | .doPendingFunctors => 0

/-- Where the loop thread stands inside a functor. -/
inductive Running
  | functor (f : Functor)
  /-- `connectDestroyed` has found `kConnected`. -/
  | destroyTested
  | destroyCallback
  | destroyRemove
  deriving DecidableEq, Repr

/-- The functor is inside a callback of the user, which was given a `TcpConnectionPtr`. -/
def Running.inCallback : Running → Bool
  | .functor f => f = .callback
  | .destroyTested => false
  | .destroyCallback => true
  | .destroyRemove => false

/-- One run of `sendInLoop`: the connection and the answer of `::write` that it met, and what it left
and did; `none` when the characters that it was given were no longer there. -/
structure Delivery where
  promised : Bytes
  before : TcpConnection
  answer : WriteResult
  outcome : Option (TcpConnection × List Effect)
  deriving DecidableEq, Repr

structure State where
  conn : TcpConnection
  /-- The thread of the server's base loop; the loop of the connection may be that loop. -/
  base : Thread
  calls : Thread → Call
  strings : Cell → Option Bytes
  inMap : Bool
  /-- The pointers of the users, each by the thread that has it. -/
  holders : List Thread
  /-- The functors of `removeConnection` that wait in the base loop. -/
  removals : Nat
  /-- The pointers of the base thread that have served and are not released yet: the functors of the
  batch that it runs, and `conn` in `~TcpServer`. -/
  spent : Nat
  inPoller : Bool
  pc : LoopPc
  pendingFunctors : List Functor
  /-- The vector of `doPendingFunctors`, which is destroyed as a whole when it returns. -/
  functors : List Functor
  /-- The part of `functors` that is still to run. -/
  todo : List Functor
  running : Option Running
  /-- `~TcpServer` runs `connectDestroyed` itself, and its `conn` holds the connection. -/
  inlined : Bool
  /-- History: the runs of `sendInLoop`. -/
  delivered : List Delivery

inductive Event
  /-- Thread `t` gives a copy of its pointer to `u`. -/
  | share (t u : Thread)
  | drop (t : Thread)
  | sendTest (t : Thread) (arg : Arg)
  | sendRun (t : Thread) (w : WriteResult)
  | shutdownTest (t : Thread)
  | shutdownStore (t : Thread)
  | shutdownRun (t : Thread)
  /-- Thread `t` writes to its cell `i`, or takes it for a new string. -/
  | assign (t : Thread) (i : Nat) (data : Bytes)
  | destroy (t : Thread) (i : Nat)
  | handleEvent
  | handleRead (r : Readv)
  | handleWrite (w : WriteResult)
  | handleClose
  | closeCallback
  | endEvent
  | removeConnectionInLoop
  | endRemovals
  | serverDestroyed
  | doPendingFunctors
  | beginFunctor
  | runFunctor (w : WriteResult)
  | destroyStore
  | endDestroyed
  | endFunctors
  deriving DecidableEq, Repr

/-- The functors that a member function hands to `queueInLoop`, bound to `shared_from_this()`. -/
def queued (done : List Effect) : List Functor :=
  done.filterMap fun
    | .queueWriteComplete => some .callback
    | .queueHighWaterMark _ => some .callback
    | _ => none

namespace State

/-- The number of strong references. -/
def strong (s : State) : Nat :=
  s.inMap.toNat + s.pc.refs + s.inlined.toNat + s.holders.length + s.removals + s.spent +
    s.pendingFunctors.countP Functor.owns + s.functors.countP Functor.owns

/-- The thread is given the pointer by a callback, or has one. -/
def hasPointer (s : State) (t : Thread) : Prop :=
  t ∈ s.holders ∨
    (t = .loop ∧ (0 < s.pc.refs ∨ s.running.any Running.inCallback = true))

instance (s : State) (t : Thread) : Decidable (s.hasPointer t) :=
  inferInstanceAs (Decidable (_ ∨ (_ ∧ (_ ∨ _))))

/-- Thread `t` may call `send` or `shutdown`.  On the loop thread only user code does. -/
def mayCall (s : State) (t : Thread) : Prop :=
  s.calls t = .idle ∧ s.hasPointer t ∧ (t = .loop → s.running.all Running.inCallback = true)

instance (s : State) (t : Thread) : Decidable (s.mayCall t) :=
  inferInstanceAs (Decidable (_ ∧ _ ∧ (_ → _)))

/-- The loop thread stands at `pc`, in no call and in no functor of the connection. -/
def loopAt (s : State) (pc : LoopPc) : Prop :=
  s.pc = pc ∧ s.calls .loop = .idle ∧ s.running = none

instance (s : State) (pc : LoopPc) : Decidable (s.loopAt pc) :=
  inferInstanceAs (Decidable (_ ∧ _ ∧ _))

def setCall (s : State) (t : Thread) (c : Call) : State :=
  { s with calls := Function.update s.calls t c }

def queueInLoop (s : State) (fs : List Functor) : State :=
  { s with pendingFunctors := s.pendingFunctors ++ fs }

/-- What the argument of a call of thread `t` holds. -/
def content (s : State) (t : Thread) : Arg → Option Bytes
  | .string i => s.strings (t, i)
  | .buffer data => some data

/-- What `send` binds: the characters of the string stay where they are, the buffer is emptied. -/
def bind (s : State) (t : Thread) : Arg → Option Payload
  | .string i => (s.strings (t, i)).map fun data => .chars (t, i) data.length
  | .buffer data => some (.copy data)

/-- The bytes that `sendInLoop` finds behind its pointer. -/
def read (s : State) : Payload → Option Bytes
  | .chars cell len =>
      (s.strings cell).bind fun data => if len ≤ data.length then some (data.take len) else none
  | .copy data => some data

/-- `sendInLoop` runs on the bytes it was given. -/
def deliver (s : State) (promised : Bytes) (w : WriteResult) : Option Bytes → Option State
  | none => some { s with delivered := s.delivered ++ [⟨promised, s.conn, w, none⟩] }
  | some data =>
      match s.conn.sendInLoop data w with
      | .ok (c, done) =>
          some
            { s.queueInLoop (queued done) with
              conn := c
              delivered := s.delivered ++ [⟨promised, s.conn, w, some (c, done)⟩] }
      | .error _ => none

/-- `TcpServer::removeConnectionInLoop`. -/
def removeConnectionInLoop (s : State) : State :=
  { s.queueInLoop [.connectDestroyed] with inMap := false }

end State

/-! ## Steps -/

/-- One step; `none` when it is not possible in `s`. -/
def step (s : State) : Event → Option State
  | .share t u =>
      if s.calls t = .idle ∧ s.hasPointer t then some { s with holders := u :: s.holders }
      else none
  | .drop t =>
      if s.calls t = .idle ∧ t ∈ s.holders then some { s with holders := s.holders.erase t }
      else none
  | .sendTest t arg =>
      match s.content t arg with
      | some promised =>
          if s.mayCall t then
            if s.conn.state = .kConnected then some (s.setCall t (.sending arg promised)) else some s
          else none
      | none => none
  | .sendRun t w =>
      match s.calls t, t with
      | .sending arg promised, .loop =>
          (s.setCall .loop .idle).deliver promised w (s.content .loop arg)
      | .sending arg promised, .other id =>
          (s.bind (.other id) arg).map fun payload =>
            (s.setCall (.other id) .idle).queueInLoop [.sendInLoop payload promised]
      | _, _ => none
  | .shutdownTest t =>
      if s.mayCall t then
        if s.conn.state = .kConnected then some (s.setCall t .shutdownTested) else some s
      else none
  | .shutdownStore t =>
      if s.calls t = .shutdownTested then
        some
          { s.setCall t .shutdownStored with conn := { s.conn with state := .kDisconnecting } }
      else none
  | .shutdownRun t =>
      if s.calls t = .shutdownStored then
        match t with
        -- Half-closing the socket changes nothing in the object.
        | .loop => some (s.setCall .loop .idle)
        | .other id => some ((s.setCall (.other id) .idle).queueInLoop [.shutdownInLoop])
      else none
  | .assign t i data =>
      if s.calls t = .idle then
        some { s with strings := Function.update s.strings (t, i) (some data) }
      else none
  | .destroy t i =>
      if s.calls t = .idle then
        some { s with strings := Function.update s.strings (t, i) none }
      else none
  | .handleEvent =>
      -- `m_tie.lock()` fails once there is no strong reference.
      if s.loopAt .poll ∧ s.inPoller = true ∧ 0 < s.strong then some { s with pc := .handleEvent }
      else none
  | .handleRead r =>
      if s.loopAt .handleEvent then
        match s.conn.handleRead r with
        | .ok (c, done) =>
            some
              { s with
                conn := c
                pc := if .closeCallback ∈ done then .handleClose else .handleEvent }
        | .error _ => none
      else none
  | .handleWrite w =>
      if s.loopAt .handleEvent then
        some { s.queueInLoop (queued (s.conn.handleWrite w).2) with conn := (s.conn.handleWrite w).1 }
      else none
  | .handleClose =>
      if s.loopAt .handleEvent then some { s with conn := s.conn.handleClose.1, pc := .handleClose }
      else none
  | .closeCallback =>
      if s.loopAt .handleClose then
        -- `TcpServer::removeConnection`
        if s.base = .loop then some { s.removeConnectionInLoop with pc := .handleEvent }
        else some { s with pc := .handleEvent, removals := s.removals + 1 }
      else none
  | .endEvent =>
      if s.loopAt .handleEvent then some { s with pc := .poll }
      else none
  | .removeConnectionInLoop =>
      if s.calls s.base = .idle ∧ 0 < s.removals then
        some
          { s.removeConnectionInLoop with removals := s.removals - 1, spent := s.spent + 1 }
      else none
  | .endRemovals =>
      if s.calls s.base = .idle then some { s with spent := 0 }
      else none
  | .serverDestroyed =>
      -- `~TcpServer` takes the pointer out of the map and gives it to `connectDestroyed`.
      if s.inMap = true ∧ s.calls s.base = .idle then
        if s.base = .loop then
          if s.running = none then
            some
              { s with inMap := false, running := some (.functor .connectDestroyed), inlined := true }
          else none
        else some { s.removeConnectionInLoop with spent := s.spent + 1 }
      else none
  | .doPendingFunctors =>
      if s.loopAt .poll then
        some
          { s with
            pc := .doPendingFunctors
            functors := s.pendingFunctors
            todo := s.pendingFunctors
            pendingFunctors := [] }
      else none
  | .beginFunctor =>
      match s.todo with
      | [] => none
      | f :: rest =>
          if s.loopAt .doPendingFunctors then
            some { s with todo := rest, running := some (.functor f) }
          else none
  | .runFunctor w =>
      if s.calls .loop = .idle then
        match s.running with
        | some (.functor (.sendInLoop payload promised)) =>
            ({ s with running := none } : State).deliver promised w (s.read payload)
        | some (.functor .shutdownInLoop) => some { s with running := none }
        | some (.functor .callback) => some { s with running := none }
        | some (.functor .connectDestroyed) =>
            some
              { s with
                running := some
                  (if s.conn.state = .kConnected then .destroyTested else .destroyRemove) }
        | _ => none
      else none
  | .destroyStore =>
      if s.running = some .destroyTested then
        some
          { s with
            conn := { s.conn with state := .kDisconnected, channel := s.conn.channel.disableAll }
            running := some .destroyCallback }
      else none
  | .endDestroyed =>
      if s.calls .loop = .idle ∧
          (s.running = some .destroyCallback ∨ s.running = some .destroyRemove) then
        some { s with running := none, inlined := false, inPoller := false }
      else none
  | .endFunctors =>
      if s.loopAt .doPendingFunctors ∧ s.todo = [] then
        some { s with pc := .poll, functors := [] }
      else none

/-- A connection that `connectEstablished` has just announced: it is in the map, its callback may have
given pointers to any threads, and no thread is in a call on it. -/
def State.start (c : TcpConnection) (base : Thread) (holders : List Thread)
    (strings : Cell → Option Bytes) : State :=
  { conn := c.connectEstablished.1
    base := base
    calls := fun _ => .idle
    strings := strings
    inMap := true
    holders := holders
    removals := 0
    spent := 0
    inPoller := true
    pc := .poll
    pendingFunctors := []
    functors := []
    todo := []
    running := none
    inlined := false
    delivered := [] }

/-! ## What `sendInLoop` does to the rest -/

variable {s s' : State}

theorem eq_callback_of_mem_queued {done : List Effect} {f : Functor} (h : f ∈ queued done) :
    f = .callback := by
  obtain ⟨effect, -, heq⟩ := List.mem_filterMap.1 h
  cases effect <;> cases heq <;> rfl

/-- A run of `sendInLoop` touches the object and the history, and queues callbacks. -/
theorem deliver_eq {promised : Bytes} {w : WriteResult} {data : Option Bytes}
    (h : s.deliver promised w data = some s') :
    ∃ c fs outcome,
      s' = { s with
        conn := c
        pendingFunctors := s.pendingFunctors ++ fs
        delivered := s.delivered ++ [⟨promised, s.conn, w, outcome⟩] } ∧
      c.state = s.conn.state ∧ (∀ f ∈ fs, f = .callback) ∧
      ∀ bytes, data = some bytes → ∃ r, s.conn.sendInLoop bytes w = .ok r ∧ outcome = some r := by
  cases data with
  | none =>
      cases h
      exact ⟨s.conn, [], none, by simp, rfl, by simp, fun _ hdata => nomatch hdata⟩
  | some bytes =>
      simp only [State.deliver] at h
      split at h
      · rename_i c done hsend
        cases h
        refine ⟨c, queued done, some (c, done), rfl, TcpConnection.sendInLoop_state hsend,
          fun f => eq_callback_of_mem_queued, ?_⟩
        rintro _ ⟨⟩
        exact ⟨(c, done), hsend, rfl⟩
      · cases h

/-! ## The cases of a step -/

/-- What one step can do, with the tests that it has passed. -/
inductive Moves (s : State) : Event → State → Prop
  | share {t u : Thread} (hidle : s.calls t = .idle) (hptr : s.hasPointer t) :
      Moves s (.share t u) { s with holders := u :: s.holders }
  | drop {t : Thread} (hidle : s.calls t = .idle) (hmem : t ∈ s.holders) :
      Moves s (.drop t) { s with holders := s.holders.erase t }
  | sendTest {t : Thread} {arg : Arg} {promised : Bytes}
      (hcontent : s.content t arg = some promised) (hmay : s.mayCall t) :
      Moves s (.sendTest t arg) (s.setCall t (.sending arg promised))
  | sendRefused {t : Thread} {arg : Arg} : Moves s (.sendTest t arg) s
  /-- `send` on the loop thread. -/
  | sendRun {w : WriteResult} {arg : Arg} {promised : Bytes} {c : TcpConnection}
      {fs : List Functor} {outcome : Option (TcpConnection × List Effect)}
      (hcall : s.calls .loop = .sending arg promised) (hstate : c.state = s.conn.state)
      (hfs : ∀ f ∈ fs, f = .callback)
      (houtcome : ∀ bytes, s.content .loop arg = some bytes →
        ∃ r, s.conn.sendInLoop bytes w = .ok r ∧ outcome = some r) :
      Moves s (.sendRun .loop w)
        { s.setCall .loop .idle with
          conn := c
          pendingFunctors := s.pendingFunctors ++ fs
          delivered := s.delivered ++ [⟨promised, s.conn, w, outcome⟩] }
  /-- `send` on another thread. -/
  | sendPush {id : Nat} {w : WriteResult} {arg : Arg} {promised : Bytes} {payload : Payload}
      (hcall : s.calls (.other id) = .sending arg promised)
      (hbind : s.bind (.other id) arg = some payload) :
      Moves s (.sendRun (.other id) w)
        ((s.setCall (.other id) .idle).queueInLoop [.sendInLoop payload promised])
  | shutdownTest {t : Thread} (hmay : s.mayCall t) (hconn : s.conn.state = .kConnected) :
      Moves s (.shutdownTest t) (s.setCall t .shutdownTested)
  | shutdownRefused {t : Thread} : Moves s (.shutdownTest t) s
  | shutdownStore {t : Thread} (htested : s.calls t = .shutdownTested) :
      Moves s (.shutdownStore t)
        { s.setCall t .shutdownStored with conn := { s.conn with state := .kDisconnecting } }
  | shutdownRun : Moves s (.shutdownRun .loop) (s.setCall .loop .idle)
  | shutdownPush {id : Nat} (hstored : s.calls (.other id) = .shutdownStored) :
      Moves s (.shutdownRun (.other id)) ((s.setCall (.other id) .idle).queueInLoop [.shutdownInLoop])
  | assign {t : Thread} {i : Nat} {data : Bytes} (hidle : s.calls t = .idle) :
      Moves s (.assign t i data)
        { s with strings := Function.update s.strings (t, i) (some data) }
  | destroy {t : Thread} {i : Nat} (hidle : s.calls t = .idle) :
      Moves s (.destroy t i) { s with strings := Function.update s.strings (t, i) none }
  | handleEvent (hat : s.loopAt .poll) : Moves s .handleEvent { s with pc := .handleEvent }
  | handleRead {r : Readv} {c : TcpConnection} {done : List Effect} (hat : s.loopAt .handleEvent)
      (hread : s.conn.handleRead r = .ok (c, done)) :
      Moves s (.handleRead r)
        { s with
          conn := c
          pc := if .closeCallback ∈ done then .handleClose else .handleEvent }
  | handleWrite {w : WriteResult} :
      Moves s (.handleWrite w)
        { s.queueInLoop (queued (s.conn.handleWrite w).2) with conn := (s.conn.handleWrite w).1 }
  | handleClose (hat : s.loopAt .handleEvent) :
      Moves s .handleClose { s with conn := s.conn.handleClose.1, pc := .handleClose }
  /-- The server has its base loop on the loop thread. -/
  | closeHere (hat : s.loopAt .handleClose) :
      Moves s .closeCallback { s.removeConnectionInLoop with pc := .handleEvent }
  | closeQueued (hat : s.loopAt .handleClose) :
      Moves s .closeCallback { s with pc := .handleEvent, removals := s.removals + 1 }
  | endEvent (hat : s.loopAt .handleEvent) : Moves s .endEvent { s with pc := .poll }
  | removeConnectionInLoop (hpos : 0 < s.removals) :
      Moves s .removeConnectionInLoop
        { s.removeConnectionInLoop with removals := s.removals - 1, spent := s.spent + 1 }
  | endRemovals : Moves s .endRemovals { s with spent := 0 }
  | serverDestroyedHere (hmap : s.inMap = true) (hnone : s.running = none) :
      Moves s .serverDestroyed
        { s with inMap := false, running := some (.functor .connectDestroyed), inlined := true }
  | serverDestroyed (hmap : s.inMap = true) :
      Moves s .serverDestroyed { s.removeConnectionInLoop with spent := s.spent + 1 }
  | doPendingFunctors (hat : s.loopAt .poll) :
      Moves s .doPendingFunctors
        { s with
          pc := .doPendingFunctors
          functors := s.pendingFunctors
          todo := s.pendingFunctors
          pendingFunctors := [] }
  | beginFunctor {f : Functor} {rest : List Functor} (htodo : s.todo = f :: rest)
      (hat : s.loopAt .doPendingFunctors) :
      Moves s .beginFunctor { s with todo := rest, running := some (.functor f) }
  | runSend {w : WriteResult} {payload : Payload} {promised : Bytes} {c : TcpConnection}
      {fs : List Functor} {outcome : Option (TcpConnection × List Effect)}
      (hrun : s.running = some (.functor (.sendInLoop payload promised)))
      (hstate : c.state = s.conn.state) (hfs : ∀ f ∈ fs, f = .callback)
      (houtcome : ∀ bytes, s.read payload = some bytes →
        ∃ r, s.conn.sendInLoop bytes w = .ok r ∧ outcome = some r) :
      Moves s (.runFunctor w)
        { s with
          running := none
          conn := c
          pendingFunctors := s.pendingFunctors ++ fs
          delivered := s.delivered ++ [⟨promised, s.conn, w, outcome⟩] }
  /-- `shutdownInLoop` and the callbacks of the user. -/
  | runOther {w : WriteResult} {f : Functor} (hrun : s.running = some (.functor f))
      (hf : f ≠ .connectDestroyed) : Moves s (.runFunctor w) { s with running := none }
  | runDestroyed {w : WriteResult} {r : Running} (hr : r = .destroyTested ∨ r = .destroyRemove) :
      Moves s (.runFunctor w) { s with running := some r }
  | destroyStore :
      Moves s .destroyStore
        { s with
          conn := { s.conn with state := .kDisconnected, channel := s.conn.channel.disableAll }
          running := some .destroyCallback }
  | endDestroyed (hrun : s.running = some .destroyCallback ∨ s.running = some .destroyRemove) :
      Moves s .endDestroyed { s with running := none, inlined := false, inPoller := false }
  | endFunctors (hat : s.loopAt .doPendingFunctors) (htodo : s.todo = []) :
      Moves s .endFunctors { s with pc := .poll, functors := [] }

theorem step_moves {e : Event} (h : step s e = some s') : Moves s e s' := by
  cases e with
  | share t u =>
      simp only [step] at h
      split at h <;> cases h
      rename_i hpre
      exact .share hpre.1 hpre.2
  | drop t =>
      simp only [step] at h
      split at h <;> cases h
      rename_i hpre
      exact .drop hpre.1 hpre.2
  | sendTest t arg =>
      simp only [step] at h
      split at h
      · rename_i promised hcontent
        split at h
        · rename_i hmay
          split at h <;> cases h
          · exact .sendTest hcontent hmay
          · exact .sendRefused
        · cases h
      · cases h
  | sendRun t w =>
      simp only [step] at h
      split at h
      · rename_i hcall
        obtain ⟨c, fs, outcome, rfl, hstate, hfs, houtcome⟩ := deliver_eq h
        exact .sendRun hcall hstate hfs houtcome
      · rename_i hcall
        obtain ⟨payload, hbind, rfl⟩ := Option.map_eq_some_iff.1 h
        exact .sendPush hcall hbind
      · cases h
  | shutdownTest t =>
      simp only [step] at h
      split at h
      · rename_i hmay
        split at h <;> cases h
        · rename_i hconn
          exact .shutdownTest hmay hconn
        · exact .shutdownRefused
      · cases h
  | shutdownStore t =>
      simp only [step] at h
      split at h <;> cases h
      rename_i htested
      exact .shutdownStore htested
  | shutdownRun t =>
      simp only [step] at h
      split at h
      · rename_i hstored
        split at h <;> cases h
        · exact .shutdownRun
        · exact .shutdownPush hstored
      · cases h
  | assign t i data =>
      simp only [step] at h
      split at h <;> cases h
      rename_i hidle
      exact .assign hidle
  | destroy t i =>
      simp only [step] at h
      split at h <;> cases h
      rename_i hidle
      exact .destroy hidle
  | handleEvent =>
      simp only [step] at h
      split at h <;> cases h
      rename_i hpre
      exact .handleEvent hpre.1
  | handleRead r =>
      simp only [step] at h
      split at h
      · rename_i hat
        split at h <;> cases h
        rename_i hread
        exact .handleRead hat hread
      · cases h
  | handleWrite w =>
      simp only [step] at h
      split at h <;> cases h
      exact .handleWrite
  | handleClose =>
      simp only [step] at h
      split at h <;> cases h
      rename_i hat
      exact .handleClose hat
  | closeCallback =>
      simp only [step] at h
      split at h
      · rename_i hat
        split at h <;> cases h
        · exact .closeHere hat
        · exact .closeQueued hat
      · cases h
  | endEvent =>
      simp only [step] at h
      split at h <;> cases h
      rename_i hat
      exact .endEvent hat
  | removeConnectionInLoop =>
      simp only [step] at h
      split at h <;> cases h
      rename_i hpre
      exact .removeConnectionInLoop hpre.2
  | endRemovals =>
      simp only [step] at h
      split at h <;> cases h
      exact .endRemovals
  | serverDestroyed =>
      simp only [step] at h
      split at h
      · rename_i hpre
        split at h
        · split at h <;> cases h
          rename_i hnone
          exact .serverDestroyedHere hpre.1 hnone
        · cases h
          exact .serverDestroyed hpre.1
      · cases h
  | doPendingFunctors =>
      simp only [step] at h
      split at h <;> cases h
      rename_i hat
      exact .doPendingFunctors hat
  | beginFunctor =>
      simp only [step] at h
      split at h
      · cases h
      · rename_i htodo
        split at h <;> cases h
        rename_i hat
        exact .beginFunctor htodo hat
  | runFunctor w =>
      simp only [step] at h
      split at h
      · split at h
        · rename_i hrun
          obtain ⟨c, fs, outcome, rfl, hstate, hfs, houtcome⟩ := deliver_eq h
          exact .runSend hrun hstate hfs houtcome
        · rename_i hrun
          cases h
          exact .runOther hrun (by simp)
        · rename_i hrun
          cases h
          exact .runOther hrun (by simp)
        · cases h
          refine .runDestroyed ?_
          split
          · exact .inl rfl
          · exact .inr rfl
        · cases h
      · cases h
  | destroyStore =>
      simp only [step] at h
      split at h <;> cases h
      exact .destroyStore
  | endDestroyed =>
      simp only [step] at h
      split at h <;> cases h
      rename_i hpre
      exact .endDestroyed hpre.2
  | endFunctors =>
      simp only [step] at h
      split at h <;> cases h
      rename_i hpre
      exact .endFunctors hpre.1 hpre.2

end SharedConnection
end MyServer
end MyCppCode
