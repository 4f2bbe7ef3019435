import MyCppCode.MyServer.EventLoop
import MyCppCode.MyServer.TcpConnectionStream

/-!
# TcpConnectionThreads — `send(Buffer*)` and `shutdown()` from any thread

A call made on another thread is two or three steps: the load of `m_state`, for `shutdown()` the store,
and the locked push of a functor.  A call made on the loop thread has the same loads and stores, but
`runInLoop` then runs `sendInLoop` or `shutdownInLoop` at once.  The loop thread runs the queued
functors in the order in which they were pushed, and `handleWrite` when the socket is writable.

`sendInLoop`, `shutdownInLoop` and `handleWrite` are one step each: they load `m_state` once, and what
other threads do to it meanwhile could as well come before or after the call.
-/

namespace MyCppCode
namespace MyServer
namespace TcpConnection
namespace Threads

open Foundation
open EventLoop (Thread)

/-- The content of a `send`, numbered in the order of the calls. -/
structure Message where
  id : Nat
  data : Bytes
  deriving DecidableEq, Repr

/-- A functor of the connection in `m_pendingFunctors`. -/
inductive Functor
  | sendInLoop (m : Message)
  | shutdownInLoop
  deriving DecidableEq, Repr

/-- Where a thread stands inside `send` or `shutdown`. -/
inductive Call
  | idle
  | sending (m : Message)
  | shutdownTested
  | shutdownStored
  deriving DecidableEq, Repr

structure State where
  conn : TcpConnection
  calls : Thread → Call
  pendingFunctors : List Functor
  nextId : Nat
  trace : List Effect
  /-- History: the messages whose `sendInLoop` has run. -/
  processed : List Message
  shutdownCalled : Bool
  /-- History: the messages whose `send` had found `kConnected` and returned when `shutdown()` was
  first called. -/
  owed : List Message

inductive Event
  | sendTest (t : Thread) (data : Bytes)
  | sendRun (t : Thread) (w : WriteResult)
  | shutdownTest (t : Thread)
  | shutdownStore (t : Thread)
  | shutdownRun (t : Thread)
  | runFunctor (w : WriteResult)
  | writable (w : WriteResult)
  deriving DecidableEq, Repr

namespace State

def setCall (s : State) (t : Thread) (c : Call) : State :=
  { s with calls := Function.update s.calls t c }

/-- The `send` of `m` returns. -/
def sendReturns (s : State) (m : Message) : State :=
  { s with owed := if s.shutdownCalled then s.owed else s.owed ++ [m] }

def queueInLoop (s : State) (f : Functor) : State :=
  { s with pendingFunctors := s.pendingFunctors ++ [f] }

/-- Run `sendInLoop` for `m`. -/
def runSend (s : State) (m : Message) (w : WriteResult) : Except Halt State := do
  let (c, done) ← s.conn.sendInLoop m.data w
  return { s with
    conn := c
    trace := s.trace ++ done
    processed := s.processed ++ [m] }

def runShutdown (s : State) : State :=
  { s with trace := s.trace ++ s.conn.shutdownInLoop }

end State

/-- The answers of `::write`: once the socket is half-closed there is only `EPIPE`. -/
def Answers (s : State) (len : Nat) (w : WriteResult) : Prop :=
  if .shutdownWrite ∈ s.trace then w = .failed EPIPE else w.Allowed len

instance (s : State) (len : Nat) (w : WriteResult) : Decidable (Answers s len w) :=
  inferInstanceAs
    (Decidable (if .shutdownWrite ∈ s.trace then w = .failed EPIPE else w.Allowed len))

/-- One step; `none` when it is not possible in `s`. -/
def perform (s : State) : Event → Option (Except Halt State)
  | .sendTest t data =>
      if s.calls t = .idle then
        if s.conn.state = .kConnected then
          some (.ok { s.setCall t (.sending ⟨s.nextId, data⟩) with nextId := s.nextId + 1 })
        else
          some (.ok s)
      else none
  | .sendRun t w =>
      match s.calls t, t with
      | .sending m, .loop =>
          if Answers s m.data.length w then
            some (((s.setCall .loop .idle).sendReturns m).runSend m w)
          else none
      | .sending m, .other id =>
          some (.ok (((s.setCall (.other id) .idle).sendReturns m).queueInLoop (.sendInLoop m)))
      | _, _ => none
  | .shutdownTest t =>
      if s.calls t = .idle then
        if s.conn.state = .kConnected then
          some (.ok { s.setCall t .shutdownTested with shutdownCalled := true })
        else
          some (.ok { s with shutdownCalled := true })
      else none
  | .shutdownStore t =>
      if s.calls t = .shutdownTested then
        some (.ok
          { s.setCall t .shutdownStored with conn := { s.conn with state := .kDisconnecting } })
      else none
  | .shutdownRun t =>
      if s.calls t = .shutdownStored then
        match t with
        | .loop => some (.ok (s.setCall .loop .idle).runShutdown)
        | .other id => some (.ok ((s.setCall (.other id) .idle).queueInLoop .shutdownInLoop))
      else none
  | .runFunctor w =>
      if s.calls .loop = .idle then
        match s.pendingFunctors with
        | [] => none
        | .sendInLoop m :: rest =>
            if Answers s m.data.length w then
              some (({ s with pendingFunctors := rest } : State).runSend m w)
            else none
        | .shutdownInLoop :: rest => some (.ok ({ s with pendingFunctors := rest } : State).runShutdown)
      else none
  | .writable w =>
      if s.calls .loop = .idle ∧ Answers s s.conn.outputBuffer.readable.length w then
        some (.ok
          { s with
            conn := (s.conn.handleWrite w).1
            trace := s.trace ++ (s.conn.handleWrite w).2 })
      else none

def step (s : State) (e : Event) : Option State :=
  match perform s e with
  | some (.ok t) => some t
  | _ => none

/-- A connection just established, and no thread in a call on it. -/
def State.start (c : TcpConnection) : State :=
  { conn := c
    calls := fun _ => .idle
    pendingFunctors := []
    nextId := 0
    trace := []
    processed := []
    shutdownCalled := false
    owed := [] }

/-! ## Graceful shutdown -/

def stream (ms : List Message) : Bytes :=
  ms.flatMap (·.data)

/-- All bytes of `m` are among the bytes `taken` by the kernel. -/
def HandedOver (processed : List Message) (taken : Bytes) (m : Message) : Prop :=
  ∃ before after, processed = before ++ m :: after ∧ stream (before ++ [m]) <+: taken

/-- The half-close comes behind every message that `shutdown()` found sent, and no `::write` comes
behind the half-close. -/
def Graceful (s : State) : Prop :=
  ∀ pre post, s.trace = pre ++ .shutdownWrite :: post →
    (∀ m ∈ s.owed, HandedOver s.processed (accepted pre) m) ∧ ∀ data w, .write data w ∉ post

/-- Some `send` has found `kConnected` and its `sendInLoop` has not run yet. -/
def SendInFlight (s : State) : Prop :=
  (∃ m, .sendInLoop m ∈ s.pendingFunctors) ∨ ∃ t m, s.calls t = .sending m

/-- The event makes the loop thread half-close the socket. -/
def Event.HalfCloses (s : State) : Event → Prop
  | .shutdownRun .loop => s.conn.channel.isWrite = false
  | .runFunctor _ =>
      s.pendingFunctors.head? = some .shutdownInLoop ∧ s.conn.channel.isWrite = false
  | .writable (.wrote n) =>
      s.conn.state = .kDisconnecting ∧ s.conn.channel.isWrite = true ∧
        s.conn.outputBuffer.readable.length ≤ n
  | _ => False

/-- The message that the event sends on the loop thread. -/
def Event.Sends (s : State) (m : Message) : Event → Prop
  | .sendRun t _ => t = .loop ∧ s.calls .loop = .sending m
  | .runFunctor _ => s.pendingFunctors.head? = some (.sendInLoop m)
  | _ => False

/-- The answer of `::write` that comes with an event. -/
def Event.answer : Event → Option WriteResult
  | .sendRun _ w => some w
  | .runFunctor w => some w
  | .writable w => some w
  | _ => none

/-- The socket is half-closed only when no `send` is in flight, and no length is beyond the `int` of
`makeSpace`. -/
structure Orderly (s : State) (e : Event) : Prop where
  quiet : e.HalfCloses s → ¬ SendInFlight s
  fits : ∀ m w, e.Sends s m → e.answer = some w → SendFits s.conn m.data w

/-! ## The invariant of orderly runs -/

/-- The invariant, while the messages `hand` are on their way from the queue into `sendInLoop`. -/
structure InvWith (hand : List Message) (s : State) : Prop where
  flowing : Flowing s.conn
  alive : s.conn.state ≠ .kDisconnected
  streamed : accepted s.trace ++ s.conn.outputBuffer.readable = stream s.processed
  owed : ∀ m ∈ s.owed, m ∈ hand ∨ m ∈ s.processed ∨ .sendInLoop m ∈ s.pendingFunctors
  stored : ∀ t, s.calls t = .shutdownStored → s.conn.state = .kDisconnecting
  queued : .shutdownInLoop ∈ s.pendingFunctors → s.conn.state = .kDisconnecting
  closed : .shutdownWrite ∈ s.trace →
    s.conn.state = .kDisconnecting ∧ s.conn.channel.isWrite = false ∧ ¬ SendInFlight s
  behind : ∀ pre post, s.trace = pre ++ .shutdownWrite :: post →
    accepted pre = stream s.processed ∧ ∀ x ∈ post, x = .shutdownWrite

abbrev Inv (s : State) : Prop := InvWith [] s

theorem inv_start {c : TcpConnection} (h : Established c) : Inv (State.start c) where
  flowing := ⟨h.output, by simp [State.start, h.idle, h.empty]⟩
  alive := by simp [State.start, h.state]
  streamed := by simp [State.start, stream, h.empty]
  owed := by simp [State.start]
  stored := by simp [State.start]
  queued := by simp [State.start]
  closed := by simp [State.start]
  behind := by simp [State.start]

theorem Inv.graceful {s : State} (h : Inv s) : Graceful s := by
  intro pre post htrace
  obtain ⟨htaken, hpost⟩ := h.behind pre post htrace
  obtain ⟨-, -, hquiet⟩ := h.closed (by simp [htrace])
  refine ⟨?_, fun data w hmem => by simpa using hpost _ hmem⟩
  intro m hm
  -- The half-close finds no `send` in flight, so what is owed has been processed.
  have hproc : m ∈ s.processed := by
    rcases h.owed m hm with hnil | hproc | hqueued
    · simp at hnil
    · exact hproc
    · exact absurd (.inl ⟨m, hqueued⟩) hquiet
  obtain ⟨before, after, hsplit⟩ := List.append_of_mem hproc
  refine ⟨before, after, hsplit, ?_⟩
  rw [htaken, hsplit]
  exact ⟨stream after, by simp [stream]⟩

theorem shutdownWrite_mem {xs pre post : List Effect} (h : xs = pre ++ .shutdownWrite :: post) :
    .shutdownWrite ∈ xs := by
  simp [h]

/-- Where a `shutdownWrite` can be in a trace that ends with one. -/
theorem shutdownWrite_split {xs pre post : List Effect}
    (h : xs ++ [.shutdownWrite] = pre ++ .shutdownWrite :: post) :
    (pre = xs ∧ post = []) ∨
      ∃ post', post = post' ++ [.shutdownWrite] ∧ xs = pre ++ .shutdownWrite :: post' := by
  rcases List.eq_nil_or_concat' post with rfl | ⟨post', x, rfl⟩
  · exact .inl ⟨(List.append_cancel_right h).symm, rfl⟩
  · rw [← List.cons_append, ← List.append_assoc] at h
    obtain ⟨hxs, hx⟩ := List.append_inj' h rfl
    exact .inr ⟨post', by simpa using hx.symm, hxs⟩

variable {s : State}

theorem runSend_keeps {m : Message} (h : InvWith [m] s) (hopen : .shutdownWrite ∉ s.trace)
    {w : WriteResult} (hw : w.Allowed m.data.length) (hfit : SendFits s.conn m.data w) :
    Completes Inv (maxSize < s.conn.outputBuffer.writerIndex + m.data.length) (s.runSend m w) := by
  refine Completes.bind (sendInLoop_spec h.flowing h.alive hw hfit) ?_
  rintro ⟨c, done⟩ ⟨⟨hstate, hflow, hstream⟩, hquiet⟩
  have hopen' : .shutdownWrite ∉ s.trace ++ done := by simp [hopen, hquiet]
  refine Completes.ok
    { flowing := hflow
      alive := fun hdis => h.alive (hstate.symm.trans hdis)
      streamed := ?_
      owed := ?_
      stored := fun t ht => hstate.trans (h.stored t ht)
      queued := fun hq => hstate.trans (h.queued hq)
      closed := fun hmem => absurd hmem hopen'
      behind := fun pre post htrace => absurd (shutdownWrite_mem htrace) hopen' }
  · simp only [accepted_append, List.append_assoc] at hstream ⊢
    rw [hstream, ← List.append_assoc, h.streamed]
    simp [stream]
  · intro x hx
    rcases h.owed x hx with hhand | hproc | hqueued
    · exact .inr (.inl (by simp_all))
    · exact .inr (.inl (by simp [hproc]))
    · exact .inr (.inr hqueued)

/-- The loop thread moves bytes from the buffer to the kernel, and then half-closes or not.  On a
socket that is half-closed already there is nothing left to move. -/
theorem drain_keeps (h : Inv s) (c : TcpConnection) (done : List Effect) (closing : Prop)
    [Decidable closing] (hcarries : Carries s.conn [] (c, done)) (hquiet : .shutdownWrite ∉ done)
    (hagain : .shutdownWrite ∈ s.trace → c = s.conn ∧ done = [])
    (hclosing : closing →
      s.conn.state = .kDisconnecting ∧ c.channel.isWrite = false ∧ ¬ SendInFlight s) :
    Inv { s with conn := c, trace := s.trace ++ (done ++ halfClose closing) } := by
  obtain ⟨hstate, hflow, hstream⟩ := hcarries
  simp only [List.append_nil] at hstate hflow hstream
  -- `done` is what comes before a half-close, so one that is seen in it was in the trace.
  have hbefore : .shutdownWrite ∈ s.trace ++ done → .shutdownWrite ∈ s.trace := by
    simp [hquiet]
  -- Behind an earlier half-close nothing more is done.
  have hbehind : ∀ pre post, s.trace ++ done = pre ++ .shutdownWrite :: post →
      accepted pre = stream s.processed ∧ ∀ x ∈ post, x = .shutdownWrite := by
    intro pre post htrace
    obtain ⟨-, rfl⟩ := hagain (hbefore (shutdownWrite_mem htrace))
    exact h.behind pre post (by simpa using htrace)
  have hkept : .shutdownWrite ∈ s.trace →
      s.conn.state = .kDisconnecting ∧ c.channel.isWrite = false ∧ ¬ SendInFlight s := by
    intro hmem
    obtain ⟨rfl, -⟩ := hagain hmem
    exact h.closed hmem
  have hstreamed : accepted (s.trace ++ done) ++ c.outputBuffer.readable = stream s.processed := by
    rw [accepted_append, List.append_assoc, hstream, h.streamed]
  refine
    { flowing := hflow
      alive := fun hdis => h.alive (hstate.symm.trans hdis)
      streamed := ?_
      owed := h.owed
      stored := fun t ht => hstate.trans (h.stored t ht)
      queued := fun hq => hstate.trans (h.queued hq)
      closed := ?_
      behind := ?_ }
  · rw [← List.append_assoc, accepted_append, accepted_halfClose, List.append_nil]
    exact hstreamed
  · intro hmem
    by_cases hc : closing
    · obtain ⟨h₁, h₂, h₃⟩ := hclosing hc
      exact ⟨hstate.trans h₁, h₂, h₃⟩
    · obtain ⟨h₁, h₂, h₃⟩ := hkept (by simpa [halfClose, hc, hquiet] using hmem)
      exact ⟨hstate.trans h₁, h₂, h₃⟩
  · intro pre post htrace
    rw [← List.append_assoc] at htrace
    by_cases hc : closing
    · rw [halfClose, if_pos hc] at htrace
      rcases shutdownWrite_split htrace with ⟨rfl, rfl⟩ | ⟨post', rfl, hsplit⟩
      -- The half-close that is made now finds the buffer empty: all bytes are with the kernel.
      · have hempty := hflow.isWrite_eq_false.1 (hclosing hc).2.1
        rw [hempty, List.append_nil] at hstreamed
        exact ⟨hstreamed, by simp⟩
      · obtain ⟨htaken, hpost⟩ := hbehind pre post' hsplit
        refine ⟨htaken, ?_⟩
        intro x hx
        rcases List.mem_append.1 hx with hx | hx
        · exact hpost x hx
        · exact List.mem_singleton.1 hx
    · rw [halfClose, if_neg hc, List.append_nil] at htrace
      exact hbehind pre post htrace

/-- What is left to check for a step that leaves the connection, its trace and the processed messages
alone. -/
theorem frame_keeps {hand hand' : List Message} {t : State} (h : InvWith hand s)
    (hconn : t.conn = s.conn) (htrace : t.trace = s.trace) (hproc : t.processed = s.processed)
    (howed : ∀ m ∈ t.owed, m ∈ hand' ∨ m ∈ s.processed ∨ .sendInLoop m ∈ t.pendingFunctors)
    (hstored : ∀ th, t.calls th = .shutdownStored → s.conn.state = .kDisconnecting)
    (hqueued : .shutdownInLoop ∈ t.pendingFunctors → s.conn.state = .kDisconnecting)
    (hflight : SendInFlight t → .shutdownWrite ∈ s.trace → SendInFlight s) : InvWith hand' t where
  flowing := hconn ▸ h.flowing
  alive := hconn ▸ h.alive
  streamed := by rw [hconn, htrace, hproc]; exact h.streamed
  owed := hproc ▸ howed
  stored := hconn ▸ hstored
  queued := hconn ▸ hqueued
  closed := by
    intro hmem
    rw [htrace] at hmem
    obtain ⟨h₁, h₂, h₃⟩ := h.closed hmem
    rw [hconn]
    exact ⟨h₁, h₂, fun hfl => h₃ (hflight hfl hmem)⟩
  behind := by rw [htrace, hproc]; exact h.behind

/-- A thread that leaves its call, or enters one other than a `send`. -/
theorem setCall_keeps (h : Inv s) {t : Thread} {c : Call} (hsend : ∀ m, c ≠ .sending m)
    (hstored : c = .shutdownStored → s.conn.state = .kDisconnecting) : Inv (s.setCall t c) := by
  refine frame_keeps h rfl rfl rfl h.owed ?_ h.queued ?_
  · intro u hu
    by_cases hut : u = t
    · subst hut
      exact hstored (by simpa [State.setCall] using hu)
    · exact h.stored u (by simpa [State.setCall, hut] using hu)
  · rintro (hq | ⟨u, m, hu⟩) -
    · exact .inl hq
    · by_cases hut : u = t
      · subst hut
        exact absurd (by simpa [State.setCall] using hu) (hsend m)
      · exact .inr ⟨u, m, by simpa [State.setCall, hut] using hu⟩

theorem not_closed_of_sending (h : Inv s) (hfl : SendInFlight s) : .shutdownWrite ∉ s.trace :=
  fun hmem => (h.closed hmem).2.2 hfl

theorem not_closed_of_connected (h : Inv s) (hconn : s.conn.state = .kConnected) :
    .shutdownWrite ∉ s.trace := by
  intro hmem
  have := (h.closed hmem).1
  simp [hconn] at this

theorem sendTest_keeps (h : Inv s) (t : Thread) (m : Message) (hconn : s.conn.state = .kConnected)
    (n : Nat) : Inv { s.setCall t (.sending m) with nextId := n } := by
  have hopen := not_closed_of_connected h hconn
  refine frame_keeps h rfl rfl rfl h.owed ?_ h.queued (fun _ hmem => absurd hmem hopen)
  intro u hu
  by_cases hut : u = t
  · subst hut
    simp [State.setCall] at hu
  · exact h.stored u (by simpa [State.setCall, hut] using hu)

/-- The `send` of `m` leaves its thread with `m` in hand. -/
theorem sendReturns_keeps (h : Inv s) {t : Thread} {m : Message} (ht : s.calls t = .sending m) :
    InvWith [m] ((s.setCall t .idle).sendReturns m) := by
  have hopen := not_closed_of_sending h (.inr ⟨t, m, ht⟩)
  have hidle : Inv (s.setCall t .idle) := setCall_keeps h (by simp) (by simp)
  refine frame_keeps hidle rfl rfl rfl ?_ hidle.stored hidle.queued
    (fun _ hmem => absurd hmem hopen)
  intro x hx
  have hx' : x ∈ s.owed ∨ x = m := by
    by_cases hcalled : s.shutdownCalled = true
    · exact .inl (by simpa [State.sendReturns, State.setCall, hcalled] using hx)
    · simpa [State.sendReturns, State.setCall, hcalled] using hx
  rcases hx' with hx | rfl
  · rcases h.owed x hx with hnil | hrest
    · simp at hnil
    · exact .inr hrest
  · exact .inl (by simp)

theorem queueInLoop_keeps {hand : List Message} (h : InvWith hand s) {f : Functor}
    (hf : f = .shutdownInLoop → s.conn.state = .kDisconnecting)
    (hopen : (∃ m, f = .sendInLoop m) → .shutdownWrite ∉ s.trace)
    (hhand : ∀ m ∈ hand, f = .sendInLoop m) : Inv (s.queueInLoop f) := by
  refine frame_keeps h rfl rfl rfl ?_ h.stored ?_ ?_
  · intro x hx
    rcases h.owed x hx with hin | hproc | hqueued
    · exact .inr (.inr (by simp [State.queueInLoop, hhand x hin]))
    · exact .inr (.inl hproc)
    · exact .inr (.inr (by simp [State.queueInLoop, hqueued]))
  · intro hq
    rcases List.mem_append.1 hq with hq | hq
    · exact h.queued hq
    · exact hf (List.mem_singleton.1 hq).symm
  · rintro (⟨m, hm⟩ | hcall) hmem
    · rcases List.mem_append.1 hm with hm | hm
      · exact .inl ⟨m, hm⟩
      · exact absurd hmem (hopen ⟨m, (List.mem_singleton.1 hm).symm⟩)
    · exact .inr hcall

/-- The functor at the head of the queue is taken out of it. -/
theorem takeFunctor_keeps (h : Inv s) {f : Functor} {rest : List Functor} {hand : List Message}
    (hq : s.pendingFunctors = f :: rest) (hhand : ∀ m, f = .sendInLoop m → m ∈ hand) :
    InvWith hand { s with pendingFunctors := rest } := by
  refine frame_keeps h rfl rfl rfl ?_ h.stored ?_ ?_
  · intro x hx
    rcases h.owed x hx with hnil | hproc | hqueued
    · simp at hnil
    · exact .inr (.inl hproc)
    · rw [hq] at hqueued
      rcases List.mem_cons.1 hqueued with hhead | hrest
      · exact .inl (hhand x hhead.symm)
      · exact .inr (.inr hrest)
  · intro hmem
    exact h.queued (by simp [hq, hmem])
  · rintro (⟨m, hm⟩ | hcall) -
    · exact .inl ⟨m, by simp [hq, hm]⟩
    · exact .inr hcall

theorem runShutdown_keeps (h : Inv s) (hstate : s.conn.state = .kDisconnecting)
    (hquiet : s.conn.channel.isWrite = false → ¬ SendInFlight s) : Inv s.runShutdown := by
  have hkeep := drain_keeps h s.conn [] (s.conn.channel.isWrite = false) ⟨rfl, h.flowing, by simp⟩ (by simp)
    (fun _ => ⟨rfl, rfl⟩) (fun hoff => ⟨hstate, hoff, hquiet hoff⟩)
  simpa [State.runShutdown, shutdownInLoop_eq] using hkeep

theorem writable_keeps (h : Inv s) {w : WriteResult}
    (hquiet : (Event.writable w).HalfCloses s → ¬ SendInFlight s) :
    Inv
      { s with
        conn := (s.conn.handleWrite w).1
        trace := s.trace ++ (s.conn.handleWrite w).2 } := by
  cases hwrite : s.conn.channel.isWrite with
  | false =>
      simpa [handleWrite_of_isWrite_eq_false hwrite] using h
  | true =>
      obtain ⟨⟨hstate, hflow, hstream⟩, done, hdone, heq⟩ := handleWrite_spec h.flowing hwrite w
      -- A socket that is waited for is not half-closed.
      have hopen : .shutdownWrite ∉ s.trace := by
        intro hmem
        have := (h.closed hmem).2.1
        simp [hwrite] at this
      rw [heq]
      refine drain_keeps h _ _ _ ⟨hstate, hflow, ?_⟩ hdone (fun hmem => absurd hmem hopen) ?_
      · simpa [heq] using hstream
      · rintro ⟨hdis, hoff⟩
        refine ⟨hdis, hoff, hquiet ?_⟩
        obtain ⟨n, rfl, hn⟩ := handleWrite_drained h.flowing hwrite hoff
        exact ⟨hdis, hwrite, hn⟩

theorem shutdownStore_keeps (h : Inv s) {t : Thread} (ht : s.calls t = .shutdownTested) :
    Inv { s.setCall t .shutdownStored with conn := { s.conn with state := .kDisconnecting } } where
  flowing := ⟨h.flowing.output, h.flowing.interest⟩
  alive := by simp
  streamed := h.streamed
  owed := h.owed
  stored := fun _ _ => rfl
  queued := fun _ => rfl
  closed := by
    intro hmem
    obtain ⟨-, hoff, hno⟩ := h.closed hmem
    refine ⟨rfl, hoff, ?_⟩
    rintro (hq | ⟨u, m, hu⟩)
    · exact hno (.inl hq)
    · by_cases hut : u = t
      · subst hut
        simp [State.setCall] at hu
      · exact hno (.inr ⟨u, m, by simpa [State.setCall, hut] using hu⟩)
  behind := h.behind

theorem allowed_of_answers (hopen : .shutdownWrite ∉ s.trace) {len : Nat} {w : WriteResult}
    (h : Answers s len w) : w.Allowed len := by
  simpa [Answers, hopen] using h

/-- An orderly step keeps the invariant, and returns unless the output buffer cannot grow any more. -/
theorem perform_keeps (h : Inv s) {e : Event} (hord : Orderly s e) {r : Except Halt State}
    (hr : perform s e = some r) :
    Completes Inv (∃ m, e.Sends s m ∧ maxSize < s.conn.outputBuffer.writerIndex + m.data.length)
      r := by
  cases e with
  | sendTest t data =>
      simp only [perform, Option.ite_none_right_eq_some] at hr
      obtain ⟨-, hr⟩ := hr
      split at hr
      · rename_i hconn
        obtain rfl := Option.some.inj hr
        exact Completes.ok (sendTest_keeps h t _ hconn _)
      · obtain rfl := Option.some.inj hr
        exact Completes.ok h
  | sendRun t w =>
      cases hcall : s.calls t with
      | sending m =>
          -- While a `send` is in flight the socket is open.
          have hopen := not_closed_of_sending h (.inr ⟨t, m, hcall⟩)
          have hret := sendReturns_keeps h hcall
          cases t with
          | loop =>
              simp only [perform, hcall, Option.ite_none_right_eq_some, Option.some.injEq] at hr
              obtain ⟨hw, rfl⟩ := hr
              refine (runSend_keeps hret hopen (allowed_of_answers hopen hw)
                (hord.fits m w ⟨rfl, hcall⟩ rfl)).mono (fun _ => id) ?_
              exact fun hmax => ⟨m, ⟨rfl, hcall⟩, hmax⟩
          | other id =>
              simp only [perform, hcall, Option.some.injEq] at hr
              subst hr
              exact Completes.ok (queueInLoop_keeps hret (by simp) (fun _ => hopen) (by simp))
      | idle =>
          simp [perform, hcall] at hr
      | shutdownTested =>
          simp [perform, hcall] at hr
      | shutdownStored =>
          simp [perform, hcall] at hr
  | shutdownTest t =>
      simp only [perform, Option.ite_none_right_eq_some] at hr
      obtain ⟨-, hr⟩ := hr
      split at hr
      · obtain rfl := Option.some.inj hr
        have hset : Inv (s.setCall t .shutdownTested) := setCall_keeps h (by simp) (by simp)
        exact Completes.ok (frame_keeps hset rfl rfl rfl hset.owed hset.stored hset.queued
          (fun hfl _ => hfl))
      · obtain rfl := Option.some.inj hr
        exact Completes.ok (frame_keeps h rfl rfl rfl h.owed h.stored h.queued (fun hfl _ => hfl))
  | shutdownStore t =>
      simp only [perform, Option.ite_none_right_eq_some, Option.some.injEq] at hr
      obtain ⟨hcall, rfl⟩ := hr
      exact Completes.ok (shutdownStore_keeps h hcall)
  | shutdownRun t =>
      simp only [perform, Option.ite_none_right_eq_some] at hr
      obtain ⟨hcall, hr⟩ := hr
      have hstate := h.stored t hcall
      have hidle : Inv (s.setCall t .idle) := setCall_keeps h (by simp) (by simp)
      cases t with
      | loop =>
          obtain rfl := Option.some.inj hr
          refine Completes.ok (runShutdown_keeps hidle hstate ?_)
          intro hoff hfl
          refine hord.quiet hoff ?_
          -- The call that returns is not a `send`.
          rcases hfl with hq | ⟨u, m, hu⟩
          · exact .inl hq
          · by_cases hul : u = .loop
            · subst hul
              simp [State.setCall] at hu
            · exact .inr ⟨u, m, by simpa [State.setCall, hul] using hu⟩
      | other id =>
          obtain rfl := Option.some.inj hr
          exact Completes.ok (queueInLoop_keeps hidle (fun _ => hstate) (by simp) (by simp))
  | runFunctor w =>
      simp only [perform, Option.ite_none_right_eq_some] at hr
      obtain ⟨-, hr⟩ := hr
      cases hq : s.pendingFunctors with
      | nil =>
          simp [hq] at hr
      | cons f rest =>
          cases f with
          | sendInLoop m =>
              simp only [hq, Option.ite_none_right_eq_some, Option.some.injEq] at hr
              obtain ⟨hw, rfl⟩ := hr
              have hopen := not_closed_of_sending h (.inl ⟨m, by simp [hq]⟩)
              have hsends : (Event.runFunctor w).Sends s m := by simp [Event.Sends, hq]
              refine (runSend_keeps (takeFunctor_keeps h hq (by simp)) hopen
                (allowed_of_answers hopen hw) (hord.fits m w hsends rfl)).mono (fun _ => id) ?_
              exact fun hmax => ⟨m, hsends, hmax⟩
          | shutdownInLoop =>
              simp only [hq, Option.some.injEq] at hr
              subst hr
              have hstate := h.queued (by simp [hq])
              have htaken : Inv { s with pendingFunctors := rest } :=
                takeFunctor_keeps h hq (by simp)
              refine Completes.ok (runShutdown_keeps htaken hstate ?_)
              intro hoff hfl
              refine hord.quiet ⟨by simp [hq], hoff⟩ ?_
              -- What is in flight behind the functor was in flight together with it.
              rcases hfl with ⟨m, hm⟩ | hcall
              · exact .inl ⟨m, by simp [hq, hm]⟩
              · exact .inr hcall
  | writable w =>
      simp only [perform, Option.ite_none_right_eq_some, Option.some.injEq] at hr
      obtain ⟨-, rfl⟩ := hr
      exact Completes.ok (writable_keeps h hord.quiet)

theorem step_keeps {t : State} {e : Event} (h : Inv s) (hord : Orderly s e)
    (hstep : step s e = some t) : Inv t := by
  unfold step at hstep
  split at hstep
  · rename_i t' hp
    obtain rfl : t' = t := by simpa using hstep
    exact (perform_keeps h hord hp).of_ok
  · cases hstep

/-- In every orderly run, whatever the threads, the shutdown is graceful; and the next orderly step
returns, or throws because the output buffer would exceed `max_size()`. -/
theorem shutdown_graceful {c : TcpConnection} (hc : Established c) {es : List Event} {s : State}
    (hrun : RunWithin step Orderly (State.start c) es s) :
    Graceful s ∧ ∀ e r, Orderly s e → perform s e = some r →
      Completes Graceful
        (∃ m, e.Sends s m ∧ maxSize < s.conn.outputBuffer.writerIndex + m.data.length) r := by
  have hinv : Inv s :=
    hrun.invariant (fun _ _ _ h hord hstep => step_keeps h hord hstep) (inv_start hc)
  refine ⟨hinv.graceful, ?_⟩
  intro e r hord hr
  exact (perform_keeps hinv hord hr).mono (fun _ h => h.graceful) id

set_option maxRecDepth 20000 in
/-- A message from one thread and a `shutdown()` from another: the half-close waits for the byte that
the socket did not take at once. -/
theorem shutdown_graceful_deferred :
    ∃ s : State, Established freshConnection ∧
      RunWithin step Orderly (State.start freshConnection)
        [.sendTest (.other 1) [1, 2], .sendRun (.other 1) (.wrote 0), .shutdownTest (.other 2),
          .shutdownStore (.other 2), .runFunctor (.wrote 1), .shutdownRun (.other 2),
          .runFunctor (.wrote 0), .writable (.wrote 1)] s ∧
      s.owed = [⟨0, [1, 2]⟩] ∧ s.trace.getLast? = some .shutdownWrite ∧ Graceful s := by
  have hquiet : ∀ {s e}, ¬ e.HalfCloses s → (∀ m, ¬ e.Sends s m) → Orderly s e :=
    fun h₁ h₂ => ⟨fun h => absurd h h₁, fun m _ h => absurd h (h₂ m)⟩
  obtain ⟨s, hrun, howed, hlast⟩ : ∃ s, RunWithin step Orderly (State.start freshConnection)
      [.sendTest (.other 1) [1, 2], .sendRun (.other 1) (.wrote 0), .shutdownTest (.other 2),
        .shutdownStore (.other 2), .runFunctor (.wrote 1), .shutdownRun (.other 2),
        .runFunctor (.wrote 0), .writable (.wrote 1)] s ∧ s.owed = [⟨0, [1, 2]⟩] ∧
      s.trace.getLast? = some .shutdownWrite := by
    refine ⟨_, .cons ?_ rfl (.cons ?_ rfl (.cons ?_ rfl (.cons ?_ rfl (.cons ?_ rfl
      (.cons ?_ rfl (.cons ?_ rfl (.cons ?_ rfl (.nil _)))))))), rfl, rfl⟩
    · exact hquiet id (fun _ => id)
    · exact hquiet id (by simp [Event.Sends])
    · exact hquiet id (fun _ => id)
    · exact hquiet id (fun _ => id)
    · refine ⟨fun h => (nomatch h.1), ?_⟩
      rintro m w h hw
      cases hw
      cases h
      intro _
      decide
    · exact hquiet id (fun _ => id)
    · exact hquiet (fun h => nomatch h.2) (fun _ h => nomatch h)
    · refine ⟨fun _ => ?_, fun m w h => h.elim⟩
      rintro (⟨m, hm⟩ | ⟨t, m, ht⟩)
      · cases hm
      · rcases t with _ | _ | _ | _ | id <;> cases ht
  exact ⟨s, established_freshConnection, hrun, howed, hlast,
    (shutdown_graceful established_freshConnection hrun).1⟩

/-- A message queued by another thread is overtaken by a `shutdown()` on the loop thread: the socket
is half-closed while the message is in the queue, and its `::write` comes afterwards. -/
theorem shutdown_not_graceful :
    ¬ ∀ c : TcpConnection, Established c → ∀ es s, Run step (State.start c) es s → Graceful s := by
  intro hall
  obtain ⟨s, hexec, howed, hproc, htrace⟩ : ∃ s, exec step (State.start freshConnection)
      [.sendTest (.other 1) [1, 2], .sendRun (.other 1) (.wrote 0), .shutdownTest .loop,
        .shutdownStore .loop, .shutdownRun .loop] = some s ∧ s.owed = [⟨0, [1, 2]⟩] ∧
      s.processed = [] ∧ s.trace = [] ++ .shutdownWrite :: [] := ⟨_, rfl, rfl, rfl, rfl⟩
  have hgraceful := hall _ established_freshConnection _ s (run_of_exec hexec)
  obtain ⟨before, after, hsplit, -⟩ := (hgraceful [] [] htrace).1 ⟨0, [1, 2]⟩ (by simp [howed])
  simp [hproc] at hsplit

end Threads
end TcpConnection
end MyServer
end MyCppCode
