import MyCppCode.Foundation.TransitionSystem
import MyCppCode.MyServer.TcpConnectionStream
import MyCppCode.MyServer.TcpServer

/-!
# TcpConnectionClose — how often a connection reports that it is closed

One connection and its poller, from one poll result to the next.  A result may ask for several
callbacks in a row; `handleClose` is reached from the close callback and from a read that returns zero.
`handleEventWithGuard` keeps the two apart by `(EPOLLHUP) && !(EPOLLIN)`, but the read callback is also
made for `EPOLLPRI`.  The second `handleClose` finds a channel that has been deleted from the interest
list, and `disableAll` adds it again.
-/

namespace MyCppCode
namespace MyServer

open Foundation

/-- A connection on its poller, and what its handlers have done since it was established. -/
structure Polled where
  poller : Poller Nat
  conn : TcpConnection
  trace : List Effect

namespace Polled

/-! ## Steps -/

/-- The connection becomes `r.1`, with the effects `r.2` on the poller. -/
def perform (x : Nat) (s : Polled) (r : TcpConnection × List Effect) : Option Polled :=
  (TcpServer.carryOut s.poller x s.conn.channel r.2).map fun q =>
    { poller := q.1
      conn := { r.1 with channel := { r.1.channel with index := q.2.index } }
      trace := s.trace ++ r.2 }

/-- One callback of the channel. -/
def callback (x : Nat) (input : TcpServer.Input) (s : Polled) (cb : Channel.Callback) :
    Option Polled :=
  (TcpServer.runCallback s.conn input cb).toOption.bind (perform x s)

/-- The callbacks of one poll result.  The read callback and the write callback are made once at most,
so that one answer of each system call is enough. -/
def dispatch (x : Nat) (input : TcpServer.Input) : Polled → List Channel.Callback → Option Polled
  | s, [] => some s
  | s, cb :: rest => (callback x input s cb).bind fun s' => dispatch x input s' rest

inductive Event
  /-- A poll result for the channel, and what its callbacks meet. -/
  | polled (revents : EventMask) (input : TcpServer.Input)
  | connectDestroyed
  deriving DecidableEq, Repr

/-- The interest list has an entry for the descriptor of the channel. -/
def registered (s : Polled) : Bool :=
  (s.poller.interest s.conn.channel.fd).isSome

/-- One event of connection `x`.  The kernel reports a channel that is in the interest list. -/
def step (x : Nat) (s : Polled) : Event → Option Polled
  | .polled revents input =>
      if s.registered = true then
        dispatch x input { s with conn := { s.conn with channel := s.conn.channel.setRevents revents } }
          (Channel.callbacks revents)
      else none
  | .connectDestroyed => perform x s s.conn.connectDestroyed

/-- A connection that was established on a poller. -/
def start (p : Poller Nat) (c : TcpConnection) : Polled :=
  { poller := p
    conn := c
    trace := [] }

/-- The disconnection was reported once at most, to the user and to the server, and a channel whose
disconnection was reported is not in the interest list. -/
structure ReportedOnce (s : Polled) : Prop where
  connectionCallback : s.trace.count .connectionCallback ≤ 1
  closeCallback : s.trace.count .closeCallback ≤ 1
  unregistered : .connectionCallback ∈ s.trace → s.registered = false

/-- The result is not a hang-up with priority data and no input, followed by a read that returns
zero. -/
def Event.Single : Event → Prop
  | .polled revents input =>
      ¬ (revents &&& EPOLLHUP ≠ 0 ∧ revents &&& EPOLLIN = 0 ∧ revents &&& EPOLLPRI ≠ 0 ∧
        input.readv = .delivered [])
  | .connectDestroyed => True

/-! ## What a callback does -/

/-- The effects report no disconnection. -/
def Silent (effects : List Effect) : Prop :=
  .connectionCallback ∉ effects ∧ .closeCallback ∉ effects

theorem Silent.nil : Silent [] := ⟨List.not_mem_nil, List.not_mem_nil⟩

theorem Silent.append {done more : List Effect} (h₁ : Silent done) (h₂ : Silent more) :
    Silent (done ++ more) :=
  ⟨fun h => (List.mem_append.1 h).elim h₁.1 h₂.1, fun h => (List.mem_append.1 h).elim h₁.2 h₂.2⟩

/-- The callback ends in `handleClose`. -/
def closes (input : TcpServer.Input) : Channel.Callback → Bool
  | .close => true
  | .read => input.readv = .delivered []
  | _ => false

theorem silent_sendInLoop {c : TcpConnection} {data : Bytes} {w : WriteResult}
    {r : TcpConnection × List Effect} (h : c.sendInLoop data w = .ok r) : Silent r.2 := by
  have hfirst : Silent (c.firstWrite data w).2.2 := by
    unfold TcpConnection.firstWrite
    split
    · cases w with
      | wrote n =>
          simp only [TcpConnection.writeDirectly]
          split <;> simp [Silent]
      | failed errno => simp [TcpConnection.writeDirectly, Silent]
    · exact Silent.nil
  unfold TcpConnection.sendInLoop at h
  split at h
  · cases h
    exact Silent.nil
  · simp only at h
    split at h
    · obtain ⟨⟨c', kept⟩, hkeep, hr⟩ := bind_eq_ok h
      cases hr
      refine hfirst.append ?_
      obtain ⟨output, -, hout⟩ := bind_eq_ok hkeep
      simp only at hout
      split at hout <;> cases hout <;> split <;> simp [Silent]
    · cases h
      exact hfirst

theorem silent_userCalls {c : TcpConnection} {calls : List TcpServer.UserCall}
    {r : TcpConnection × List Effect} (h : TcpServer.userCalls c calls = .ok r) : Silent r.2 := by
  refine TcpServer.userCalls_induction (R := fun _ _ done => Silent done) (fun _ => Silent.nil)
    (fun c msg w r hsend => ?_) (fun c => ?_) (fun _ _ _ _ _ => Silent.append) h
  · unfold TcpConnection.send at hsend
    split at hsend
    · exact silent_sendInLoop hsend
    · cases hsend
      exact Silent.nil
  · unfold TcpConnection.shutdown TcpConnection.shutdownInLoop
    split
    · simp only
      split <;> simp [Silent]
    · exact Silent.nil

theorem silent_handleWrite (c : TcpConnection) (w : WriteResult) : Silent (c.handleWrite w).2 := by
  unfold TcpConnection.handleWrite
  split
  · cases w with
    | failed errno => simp [Silent]
    | wrote n =>
        simp only
        split
        · split
          · simp only [TcpConnection.finishWrite, TcpConnection.shutdownInLoop]
            split <;> split <;> simp [Silent]
          · simp [Silent]
        · simp [Silent]
  · exact Silent.nil

/-- The calls of a user callback on a connection that is not connected. -/
theorem userCalls_of_not_connected {c : TcpConnection} (hc : c.state ≠ .kConnected)
    (calls : List TcpServer.UserCall) : TcpServer.userCalls c calls = .ok (c, []) := by
  induction calls with
  | nil => rfl
  | cons call calls ih =>
      cases call with
      | send msg w =>
          simp only [TcpServer.userCalls, TcpConnection.send, if_neg hc]
          exact congrArg (· >>= fun r => pure (r.1, [] ++ r.2)) ih
      | shutdown =>
          simp only [TcpServer.userCalls, TcpConnection.shutdown, if_neg hc]
          exact congrArg (· >>= fun r => pure (r.1, [] ++ r.2)) ih

variable {c : TcpConnection} {input : TcpServer.Input} {cb : Channel.Callback}
  {r : TcpConnection × List Effect}

/-- A callback that ends in `handleClose`. -/
theorem runCallback_of_closes (hcb : closes input cb = true)
    (h : TcpServer.runCallback c input cb = .ok r) :
    r.1.state = .kDisconnected ∧ r.1.channel = c.channel.disableAll ∧
      r.2 = [.updateChannel Channel.kNoneEvent, .connectionCallback, .closeCallback] := by
  cases cb with
  | close =>
      cases h
      exact ⟨rfl, rfl, by simp [TcpConnection.handleClose]⟩
  | read =>
      have hreadv : input.readv = .delivered [] := by simpa [closes] using hcb
      obtain ⟨r₁, hread, hr⟩ := bind_eq_ok h
      rw [hreadv] at hread
      obtain ⟨hstate, hchannel, hdone⟩ := TcpConnection.handleRead_nil hread
      have hno : .messageCallback ∉ r₁.2 := by simp [hdone]
      simp only [if_neg hno] at hr
      cases hr
      exact ⟨hstate, hchannel, hdone⟩
  | error => cases hcb
  | write => cases hcb

theorem runCallback_of_not_closes (hcb : closes input cb = false)
    (h : TcpServer.runCallback c input cb = .ok r) :
    Silent r.2 ∧
      (c.state = .kDisconnected → c.channel.events = Channel.kNoneEvent →
        r.1.state = .kDisconnected ∧ r.1.channel = c.channel ∧
          (r.2 = [] ∨ r.2 = [.messageCallback])) := by
  cases cb with
  | close => cases hcb
  | error =>
      cases h
      exact ⟨Silent.nil, fun hstate _ => ⟨hstate, rfl, .inl rfl⟩⟩
  | write =>
      cases h
      refine ⟨silent_handleWrite c input.write, fun hstate hevents => ?_⟩
      have hoff : c.channel.isWrite = false := by
        rw [Channel.isWrite, hevents]
        decide
      rw [TcpConnection.handleWrite_of_isWrite_eq_false hoff]
      exact ⟨hstate, rfl, .inl rfl⟩
  | read =>
      have hreadv : input.readv ≠ .delivered [] := by simpa [closes] using hcb
      obtain ⟨r₁, hread, hr⟩ := bind_eq_ok h
      obtain ⟨hstate₁, hchannel₁, hdone⟩ := TcpConnection.handleRead_of_ne_nil hreadv hread
      have hsilent₁ : Silent r₁.2 := by
        rcases hdone with hdone | hdone <;> simp [hdone, Silent]
      simp only at hr
      split at hr
      · obtain ⟨r₂, hcalls, hr'⟩ := bind_eq_ok hr
        have hsilent₂ := silent_userCalls hcalls
        refine ⟨?_, fun hstate _ => ?_⟩
        · cases hr'
          exact hsilent₁.append hsilent₂
        -- The calls of the user do nothing on a connection that is closed.
        · have hnot : r₁.1.state ≠ .kConnected := by
            rw [hstate₁, hstate]
            decide
          rw [userCalls_of_not_connected hnot] at hcalls
          cases hcalls
          cases hr'
          refine ⟨hstate₁.trans hstate, hchannel₁, ?_⟩
          simpa using hdone
      · cases hr
        exact ⟨hsilent₁, fun hstate _ => ⟨hstate₁.trans hstate, hchannel₁, hdone⟩⟩

/-! ## What a callback does to the poller -/

/-- The index of the channel says whether its descriptor is in the interest list. -/
def Indexed (p : Poller Nat) (ch : Channel) : Prop :=
  (p.interest ch.fd).isSome = true ↔ ch.index = .kAdded

theorem register_indexed {p p' : Poller Nat} {x : Nat} {ch ch' : Channel} {e : Effect}
    (hindexed : Indexed p ch) (h : TcpServer.register p x ch e = some (p', ch')) :
    Indexed p' ch' ∧ ch'.fd = ch.fd := by
  cases e with
  | updateChannel events =>
      have h : p.updateChannel x { ch with events := events } = some (p', ch') := h
      rcases Poller.updateChannel_cases h with
        ⟨-, rfl, rfl⟩ | ⟨-, -, rfl, rfl⟩ | ⟨hindex, -, rfl, rfl⟩
      · simp [Indexed, Channel.setIndex]
      · simp [Indexed, Channel.setIndex]
      · have hindex : ch.index = .kAdded := hindex
        simp [Indexed, hindex]
  | removeChannel =>
      have h : p.removeChannel x ch = some (p', ch') := h
      obtain ⟨rfl, -, ⟨-, hint⟩ | ⟨hindex, hint⟩⟩ := Poller.removeChannel_cases h
      · simp [Indexed, Channel.setIndex, hint]
      · -- Not added means not in the list, so there is nothing to take out of it.
        have hnone : ¬ (p.interest ch.fd).isSome = true := fun hsome => hindex (hindexed.1 hsome)
        simpa [Indexed, Channel.setIndex, hint] using hnone
  | write | shutdownWrite | connectionCallback | messageCallback | closeCallback
  | queueWriteComplete | queueHighWaterMark =>
      obtain ⟨rfl, rfl⟩ := Prod.mk.inj (Option.some.inj h)
      exact ⟨hindexed, rfl⟩

theorem carryOut_indexed {p p' : Poller Nat} {x : Nat} {ch ch' : Channel} {effects : List Effect}
    (hindexed : Indexed p ch) (h : TcpServer.carryOut p x ch effects = some (p', ch')) :
    Indexed p' ch' ∧ ch'.fd = ch.fd := by
  induction effects generalizing p ch with
  | nil =>
      obtain ⟨rfl, rfl⟩ := Prod.mk.inj (Option.some.inj h)
      exact ⟨hindexed, rfl⟩
  | cons e effects ih =>
      obtain ⟨⟨q, ch₁⟩, hreg, hrest⟩ := Option.bind_eq_some_iff.1 h
      obtain ⟨hindexed₁, hfd₁⟩ := register_indexed hindexed hreg
      obtain ⟨hindexed₂, hfd₂⟩ := ih hindexed₁ hrest
      exact ⟨hindexed₂, hfd₂.trans hfd₁⟩

/-- `disableAll` and `update()` of a channel that is in the interest list take it out. -/
theorem carryOut_close {p p' : Poller Nat} {x : Nat} {ch ch' : Channel} {rest : List Effect}
    (hindex : ch.index = .kAdded)
    (h : TcpServer.carryOut p x ch (.updateChannel Channel.kNoneEvent :: rest) = some (p', ch'))
    (hrest : rest = [.connectionCallback, .closeCallback]) : ch'.index = .kDeleted := by
  subst hrest
  obtain ⟨⟨q, ch₁⟩, hreg, hend⟩ := Option.bind_eq_some_iff.1 h
  cases hend
  have hreg : p.updateChannel x { ch with events := Channel.kNoneEvent } = some (q, ch₁) := hreg
  -- Of the three requests only `DEL` fits an empty mask and an added channel.
  rcases Poller.updateChannel_cases hreg with ⟨hnot, -⟩ | ⟨-, -, rfl, -⟩ | ⟨-, hsome, -⟩
  · exact absurd hindex hnot
  · rfl
  · cases hsome

theorem carryOut_append (p : Poller Nat) (x : Nat) (ch : Channel) (done more : List Effect) :
    TcpServer.carryOut p x ch (done ++ more) =
      (TcpServer.carryOut p x ch done).bind fun q => TcpServer.carryOut q.1 x q.2 more := by
  induction done generalizing p ch with
  | nil => rfl
  | cons e done ih =>
      simp only [List.cons_append, TcpServer.carryOut, Option.bind_assoc, ih]

/-- What ends with `removeChannel` leaves a channel that the poller does not know. -/
theorem carryOut_remove {p p' : Poller Nat} {x : Nat} {ch ch' : Channel} {done : List Effect}
    (h : TcpServer.carryOut p x ch (done ++ [.removeChannel]) = some (p', ch')) :
    ch'.index = .kNew := by
  rw [carryOut_append] at h
  obtain ⟨⟨q, ch₁⟩, -, hrem⟩ := Option.bind_eq_some_iff.1 h
  obtain ⟨⟨q', ch₂⟩, hreg, hend⟩ := Option.bind_eq_some_iff.1 hrem
  cases hend
  have hreg : q.removeChannel x ch₁ = some (q', ch₂) := hreg
  obtain ⟨rfl, -⟩ := Poller.removeChannel_cases hreg
  rfl

variable {x : Nat} {s t : Polled}

theorem perform_spec (hindexed : Indexed s.poller s.conn.channel)
    (hsame : TcpServer.SameChannel s.conn r.1) (h : perform x s r = some t) :
    Indexed t.poller t.conn.channel ∧ t.trace = s.trace ++ r.2 ∧ t.conn.state = r.1.state ∧
      t.conn.channel.events = r.1.channel.events ∧
      ∃ q, TcpServer.carryOut s.poller x s.conn.channel r.2 = some (t.poller, q) ∧
        t.conn.channel.index = q.index := by
  obtain ⟨⟨p', ch'⟩, hcarry, rfl⟩ := Option.map_eq_some_iff.1 h
  obtain ⟨hindexed', hfd⟩ := carryOut_indexed hindexed hcarry
  refine ⟨?_, rfl, rfl, rfl, ch', hcarry, rfl⟩
  unfold Indexed at hindexed' ⊢
  rw [hfd] at hindexed'
  rw [← hsame.1] at hindexed'
  exact hindexed'

/-! ## One poll result -/

/-- Nothing was reported yet. -/
structure Open (s : Polled) : Prop where
  indexed : Indexed s.poller s.conn.channel
  connectionCallback : s.trace.count .connectionCallback = 0
  closeCallback : s.trace.count .closeCallback = 0

/-- The disconnection was reported, and the channel has left the interest list. -/
structure Closed (s : Polled) : Prop where
  indexed : Indexed s.poller s.conn.channel
  state : s.conn.state = .kDisconnected
  events : s.conn.channel.events = Channel.kNoneEvent
  index : s.conn.channel.index ≠ .kAdded
  connectionCallback : s.trace.count .connectionCallback = 1
  closeCallback : s.trace.count .closeCallback ≤ 1

theorem Open.reportedOnce (h : Open s) : ReportedOnce s where
  connectionCallback := by rw [h.connectionCallback]; exact Nat.zero_le _
  closeCallback := by rw [h.closeCallback]; exact Nat.zero_le _
  unregistered hmem := absurd hmem (List.count_eq_zero.1 h.connectionCallback)

theorem Closed.registered_eq (h : Closed s) : s.registered = false := by
  rw [← Bool.not_eq_true]
  exact fun hsome => h.index (h.indexed.1 hsome)

theorem Closed.reportedOnce (h : Closed s) : ReportedOnce s where
  connectionCallback := Nat.le_of_eq h.connectionCallback
  closeCallback := h.closeCallback
  unregistered _ := h.registered_eq

theorem count_of_silent (effects : List Effect) {done : List Effect} (h : Silent done) :
    (effects ++ done).count .connectionCallback = effects.count .connectionCallback ∧
      (effects ++ done).count .closeCallback = effects.count .closeCallback := by
  rw [List.count_append, List.count_append, List.count_eq_zero.2 h.1, List.count_eq_zero.2 h.2]
  exact ⟨rfl, rfl⟩

theorem callback_eq_some (h : callback x input s cb = some t) :
    ∃ r, TcpServer.runCallback s.conn input cb = .ok r ∧ perform x s r = some t := by
  obtain ⟨r, hr, hperform⟩ := Option.bind_eq_some_iff.1 h
  exact ⟨r, TcpServer.toOption_eq_some hr, hperform⟩

/-- The callbacks that end in `handleClose` are counted by both reports. -/
theorem callback_counts (hindexed : Indexed s.poller s.conn.channel)
    (h : callback x input s cb = some t) :
    Indexed t.poller t.conn.channel ∧
      t.trace.count .connectionCallback =
        s.trace.count .connectionCallback + (if closes input cb then 1 else 0) ∧
      t.trace.count .closeCallback =
        s.trace.count .closeCallback + (if closes input cb then 1 else 0) := by
  obtain ⟨r, hrun, hperform⟩ := callback_eq_some h
  obtain ⟨hindexed', htrace, -⟩ :=
    perform_spec hindexed (TcpServer.sameChannel_runCallback hrun) hperform
  refine ⟨hindexed', ?_⟩
  cases hcb : closes input cb with
  | true =>
      obtain ⟨-, -, hdone⟩ := runCallback_of_closes hcb hrun
      rw [htrace, hdone, List.count_append, List.count_append]
      exact ⟨rfl, rfl⟩
  | false =>
      rw [htrace]
      exact count_of_silent _ (runCallback_of_not_closes hcb hrun).1

theorem dispatch_counts {cbs : List Channel.Callback} (hindexed : Indexed s.poller s.conn.channel)
    (h : dispatch x input s cbs = some t) :
    Indexed t.poller t.conn.channel ∧
      t.trace.count .connectionCallback =
        s.trace.count .connectionCallback + cbs.countP (closes input) ∧
      t.trace.count .closeCallback = s.trace.count .closeCallback + cbs.countP (closes input) := by
  induction cbs generalizing s with
  | nil =>
      cases h
      exact ⟨hindexed, rfl, rfl⟩
  | cons cb cbs ih =>
      obtain ⟨u, hu, hrest⟩ := Option.bind_eq_some_iff.1 h
      obtain ⟨hindexed₁, hconn₁, hclose₁⟩ := callback_counts hindexed hu
      obtain ⟨hindexed₂, hconn₂, hclose₂⟩ := ih hindexed₁ hrest
      rw [List.countP_cons]
      exact ⟨hindexed₂, by omega, by omega⟩

/-- Callbacks that do not end in `handleClose` leave a closed connection alone. -/
theorem dispatch_closed {cbs : List Channel.Callback} (hcbs : ∀ cb ∈ cbs, closes input cb = false)
    (hs : Closed s) (h : dispatch x input s cbs = some t) : Closed t := by
  induction cbs generalizing s with
  | nil =>
      cases h
      exact hs
  | cons cb cbs ih =>
      obtain ⟨u, hu, hrest⟩ := Option.bind_eq_some_iff.1 h
      refine ih (fun cb' hcb' => hcbs cb' (List.mem_cons_of_mem _ hcb')) ?_ hrest
      have hcb := hcbs cb List.mem_cons_self
      obtain ⟨r, hrun, hperform⟩ := callback_eq_some hu
      obtain ⟨hindexed, htrace, hstate, hevents, q, hcarry, hindex⟩ :=
        perform_spec hs.indexed (TcpServer.sameChannel_runCallback hrun) hperform
      obtain ⟨hsilent, hkeep⟩ := runCallback_of_not_closes hcb hrun
      obtain ⟨hstate', hchannel, hdone⟩ := hkeep hs.state hs.events
      obtain ⟨hconn, hclose⟩ := count_of_silent s.trace hsilent
      -- Nothing among the effects reaches the poller.
      have hq : q = s.conn.channel := by
        rcases hdone with hdone | hdone <;> rw [hdone] at hcarry <;>
          exact (congrArg Prod.snd (Option.some.inj hcarry)).symm
      refine ⟨hindexed, hstate.trans hstate', ?_, ?_, ?_, ?_⟩
      · rw [hevents, hchannel]
        exact hs.events
      · rw [hindex, hq]
        exact hs.index
      · rw [htrace, hconn]
        exact hs.connectionCallback
      · rw [htrace, hclose]
        exact hs.closeCallback

/-- `handleClose` on a connection that has reported nothing. -/
theorem callback_closes (hs : Open s) (hindex : s.conn.channel.index = .kAdded)
    (hcb : closes input cb = true) (h : callback x input s cb = some t) : Closed t := by
  obtain ⟨hindexed, hconn, hclose⟩ := callback_counts hs.indexed h
  obtain ⟨r, hrun, hperform⟩ := callback_eq_some h
  obtain ⟨-, -, hstate, hevents, q, hcarry, hq⟩ :=
    perform_spec hs.indexed (TcpServer.sameChannel_runCallback hrun) hperform
  obtain ⟨hstate', hchannel, hdone⟩ := runCallback_of_closes hcb hrun
  rw [hdone] at hcarry
  have hdeleted := carryOut_close hindex hcarry rfl
  rw [hs.connectionCallback, hcb] at hconn
  rw [hs.closeCallback, hcb] at hclose
  refine ⟨hindexed, hstate.trans hstate', ?_, ?_, hconn, Nat.le_of_eq hclose⟩
  · rw [hevents, hchannel, Channel.events_disableAll]
  · rw [hq, hdeleted]
    decide

theorem dispatch_append (a b : List Channel.Callback) :
    dispatch x input s (a ++ b) =
      (dispatch x input s a).bind fun s' => dispatch x input s' b := by
  induction a generalizing s with
  | nil => rfl
  | cons cb a ih => simp only [List.cons_append, dispatch, Option.bind_assoc, ih]

/-- The error callback only logs. -/
theorem dispatch_errors {cbs : List Channel.Callback} (hcbs : ∀ cb ∈ cbs, cb = .error) :
    dispatch x input s cbs = some s := by
  induction cbs with
  | nil => rfl
  | cons cb cbs ih =>
      obtain rfl : cb = .error := hcbs cb List.mem_cons_self
      have hone : callback x input s .error = some s := by
        simp [callback, TcpServer.runCallback, perform, TcpServer.carryOut, Except.toOption]
      rw [dispatch, hone]
      exact ih fun cb' hcb' => hcbs cb' (List.mem_cons_of_mem _ hcb')

/-- `(m_revents & EPOLLHUP) && !(m_revents & EPOLLIN)`. -/
def hangsUp (revents : EventMask) : Bool :=
  revents &&& EPOLLHUP != 0 && revents &&& EPOLLIN == 0

/-- `m_revents & (EPOLLIN | EPOLLPRI)`. -/
def reads (revents : EventMask) : Bool :=
  revents &&& (EPOLLIN ||| EPOLLPRI) != 0

theorem single_iff {revents : EventMask} {input : TcpServer.Input} :
    (Event.polled revents input).Single ↔
      ¬ (hangsUp revents = true ∧ reads revents = true ∧ input.readv = .delivered []) := by
  -- Without input, priority data are what the read callback is made for.
  have hmask : revents &&& EPOLLIN = 0 →
      revents &&& (EPOLLIN ||| EPOLLPRI) = revents &&& EPOLLPRI := by
    intro h
    rw [BitVec.and_or_distrib_left, h]
    exact BitVec.zero_or
  unfold Event.Single hangsUp reads
  rw [Bool.and_eq_true, bne_iff_ne, beq_iff_eq, bne_iff_ne]
  refine not_congr ⟨?_, ?_⟩
  · rintro ⟨hhup, hin, hpri, hreadv⟩
    exact ⟨⟨hhup, hin⟩, by rwa [hmask hin], hreadv⟩
  · rintro ⟨⟨hhup, hin⟩, hpri, hreadv⟩
    exact ⟨hhup, hin, by rwa [← hmask hin], hreadv⟩

/-- The callbacks for the four tests of `handleEventWithGuard`. -/
def tested (c e r w : Bool) : List Channel.Callback :=
  (if c then [.close] else []) ++ (if e then [.error] else []) ++ (if r then [.read] else []) ++
    (if w then [.write] else [])

theorem callbacks_eq (revents : EventMask) :
    Channel.callbacks revents =
      tested (hangsUp revents) (revents &&& EPOLLERR != 0) (reads revents) (revents &&& EPOLLOUT != 0) :=
  rfl

/-- How often a result asks for `handleClose`. -/
theorem countP_tested (input : TcpServer.Input) (c e r w : Bool) :
    (tested c e r w).countP (closes input) = c.toNat + (r && closes input .read).toNat := by
  have hclose : closes input .close = true := rfl
  have herror : closes input .error = false := rfl
  have hwrite : closes input .write = false := rfl
  -- Sixteen combinations of the tests, for each answer of the read.
  cases hread : closes input .read <;> cases c <;> cases e <;> cases r <;> cases w <;>
    simp [tested, hclose, herror, hwrite, hread]

/-- The callbacks of a result that asks for one `handleClose` at most: none asks for it, or one does,
with nothing but the error callback in front of it. -/
theorem callbacks_of_single {revents : EventMask} {input : TcpServer.Input}
    (h : (Event.polled revents input).Single) :
    (∀ cb ∈ Channel.callbacks revents, closes input cb = false) ∨
      ∃ errors cb rest, Channel.callbacks revents = errors ++ cb :: rest ∧
        (∀ e ∈ errors, e = .error) ∧ closes input cb = true ∧ ∀ cb' ∈ rest, closes input cb' = false := by
  have hone : (hangsUp revents).toNat + (reads revents && closes input .read).toNat ≤ 1 := by
    rw [single_iff] at h
    cases hc : hangsUp revents with
    | false => cases (reads revents && closes input .read) <;> decide
    | true =>
        have hno : (reads revents && closes input .read) = false := by
          rw [← Bool.not_eq_true, Bool.and_eq_true]
          rintro ⟨hr, hreadv⟩
          exact h ⟨hc, hr, by simpa [closes] using hreadv⟩
        rw [hno]
        decide
  rw [callbacks_eq]
  have hclose : closes input .close = true := rfl
  have herror : closes input .error = false := rfl
  have hwrite : closes input .write = false := rfl
  generalize (revents &&& EPOLLERR != 0) = e
  generalize (revents &&& EPOLLOUT != 0) = w
  cases hc : hangsUp revents with
  | true =>
      -- The close callback is the first, and the read callback does not close.
      right
      refine ⟨[], .close, (tested true e (reads revents) w).tail, rfl, by simp, hclose, ?_⟩
      cases hr : reads revents <;> cases e <;> cases w <;>
        simp_all [tested]
  | false =>
      cases hr : (reads revents && closes input .read) with
      | true =>
          right
          obtain ⟨hreads, hread⟩ := Bool.and_eq_true_iff.1 hr
          rw [hreads]
          refine ⟨if e then [.error] else [], .read, if w then [.write] else [], ?_, ?_, hread, ?_⟩
          · cases e <;> cases w <;> rfl
          · cases e <;> simp
          · cases w <;> simp [hwrite]
      | false =>
          left
          cases hreads : reads revents <;> cases e <;> cases w <;> simp_all [tested]

/-! ## Runs -/

theorem polled_reportedOnce {revents : EventMask} {input : TcpServer.Input} (hs : Open s)
    (h : step x s (.polled revents input) = some t) :
    (ReportedOnce t ↔ (Event.polled revents input).Single) ∧ (ReportedOnce t → Open t ∨ Closed t) := by
  simp only [step] at h
  split at h
  · rename_i hregistered
    have hindex : s.conn.channel.index = .kAdded := hs.indexed.1 hregistered
    generalize hs₁ : ({ s with conn := { s.conn with
      channel := s.conn.channel.setRevents revents } } : Polled) = s₁ at h
    have hopen : Open s₁ := by
      rw [← hs₁]
      exact ⟨hs.indexed, hs.connectionCallback, hs.closeCallback⟩
    have hindex₁ : s₁.conn.channel.index = .kAdded := by
      rw [← hs₁]
      exact hindex
    -- Both reports count the callbacks of the result that end in `handleClose`.
    obtain ⟨hindexed, hconn, hclose⟩ := dispatch_counts hopen.indexed h
    rw [hopen.connectionCallback] at hconn
    rw [hopen.closeCallback] at hclose
    -- One `handleClose` at most, and what comes behind it leaves the connection closed.
    have hgood : (Event.polled revents input).Single → Open t ∨ Closed t := by
      intro hsingle
      rcases callbacks_of_single hsingle with hnone | ⟨errors, cb, rest, hsplit, herrors, hcb, hrest⟩
      · left
        have hzero : (Channel.callbacks revents).countP (closes input) = 0 :=
          List.countP_eq_zero.2 fun cb hmem => by simp [hnone cb hmem]
        exact ⟨hindexed, by omega, by omega⟩
      · right
        rw [hsplit, dispatch_append, dispatch_errors herrors] at h
        change dispatch x input s₁ (cb :: rest) = some t at h
        obtain ⟨u, hu, hend⟩ := Option.bind_eq_some_iff.1 h
        exact dispatch_closed hrest (callback_closes hopen hindex₁ hcb hu) hend
    -- With two of them the report would be made twice.
    have hsingle : ReportedOnce t → (Event.polled revents input).Single := by
      intro hreported
      have hle := hreported.connectionCallback
      rw [hconn, callbacks_eq, countP_tested] at hle
      rw [single_iff]
      rintro ⟨hc, hr, hreadv⟩
      have hread : closes input .read = true := by simp [closes, hreadv]
      rw [hc, hr, hread] at hle
      exact absurd hle (by decide)
    refine ⟨⟨hsingle, fun h => ?_⟩, fun h => hgood (hsingle h)⟩
    rcases hgood h with hopen' | hclosed
    · exact hopen'.reportedOnce
    · exact hclosed.reportedOnce
  · cases h

theorem connectDestroyed_keeps (hs : Open s ∨ Closed s)
    (h : step x s .connectDestroyed = some t) : Open t ∨ Closed t := by
  have hindexed : Indexed s.poller s.conn.channel := hs.elim Open.indexed Closed.indexed
  obtain ⟨hsame, pre, hpre⟩ := TcpServer.connectDestroyed_spec s.conn
  obtain ⟨hindexed', htrace, hstate, hevents, q, hcarry, hq⟩ := perform_spec hindexed hsame h
  rw [hpre] at hcarry
  have hnew : t.conn.channel.index ≠ .kAdded := by
    rw [hq, carryOut_remove hcarry]
    decide
  by_cases hconn : s.conn.state = .kConnected
  · -- A connection that was never closed: this is the report.
    have hopen : Open s := hs.resolve_right fun hclosed => by
      rw [hclosed.state] at hconn
      cases hconn
    have hdone : s.conn.connectDestroyed.2 =
        [.updateChannel s.conn.channel.disableAll.events, .connectionCallback, .removeChannel] := by
      simp [TcpConnection.connectDestroyed, hconn]
    right
    refine ⟨hindexed', ?_, ?_, hnew, ?_, ?_⟩
    · simp [hstate, TcpConnection.connectDestroyed, hconn]
    · simp [hevents, TcpConnection.connectDestroyed, hconn]
    · rw [htrace, hdone, List.count_append, hopen.connectionCallback]
      rfl
    · rw [htrace, hdone, List.count_append, hopen.closeCallback]
      exact Nat.zero_le 1
  · have hkeep : s.conn.connectDestroyed = (s.conn, [.removeChannel]) := by
      simp [TcpConnection.connectDestroyed, hconn]
    have hsilent : Silent [Effect.removeChannel] := by simp [Silent]
    obtain ⟨hcount₁, hcount₂⟩ := count_of_silent s.trace hsilent
    rw [hkeep] at htrace hstate hevents
    refine hs.imp (fun hopen => ?_) fun hclosed => ?_
    · exact ⟨hindexed', by rw [htrace, hcount₁, hopen.connectionCallback],
        by rw [htrace, hcount₂, hopen.closeCallback]⟩
    · exact ⟨hindexed', hstate.trans hclosed.state, hevents.trans hclosed.events, hnew,
        by rw [htrace, hcount₁, hclosed.connectionCallback],
        by rw [htrace, hcount₂]; exact hclosed.closeCallback⟩

/-- A connection whose index says whether its descriptor is registered reports its end at most once, in
every state of a run, exactly when every poll result of the run is `Single`. -/
theorem reportedOnce_iff {x : Nat} {p : Poller Nat} {c : TcpConnection}
    (hindexed : (p.interest c.channel.fd).isSome = true ↔ c.channel.index = .kAdded)
    {es : List Event} {t : Polled} (hrun : Run (step x) (start p c) es t) :
    AllAlong (step x) (start p c) es ReportedOnce ↔
      RunWithin (step x) (fun _ e => e.Single) (start p c) es t := by
  have hopen : Open (start p c) := ⟨hindexed, rfl, rfl⟩
  refine allAlong_iff_runWithin (I := fun s => Open s ∨ Closed s) ?_ hrun (.inl hopen)
    hopen.reportedOnce
  intro s e t hs _ hstep
  cases e with
  | polled revents input =>
      rcases hs with hopen | hclosed
      · exact polled_reportedOnce hopen hstep
      · -- A closed connection is not polled.
        simp [step, hclosed.registered_eq] at hstep
  | connectDestroyed =>
      have hkeep := connectDestroyed_keeps hs hstep
      refine ⟨⟨fun _ => trivial, fun _ => ?_⟩, fun _ => hkeep⟩
      exact hkeep.elim Open.reportedOnce Closed.reportedOnce

/-- A read of nothing, and a callback of the user that does nothing. -/
def endOfStream : TcpServer.Input :=
  { readv := .delivered []
    write := .wrote 0
    calls := [] }

set_option maxRecDepth 20000 in
/-- The peer has closed: input and hang-up in one result, and a read that returns zero. -/
theorem reportedOnce_endOfStream :
    ∃ p ch t,
      Poller.empty.updateChannel 0 TcpConnection.freshConnection.channel = some (p, ch) ∧
      Run (step 0) (start p { TcpConnection.freshConnection with channel := ch })
        [.polled (EPOLLIN ||| EPOLLHUP) endOfStream, .connectDestroyed] t ∧
      AllAlong (step 0) (start p { TcpConnection.freshConnection with channel := ch })
        [.polled (EPOLLIN ||| EPOLLHUP) endOfStream, .connectDestroyed] ReportedOnce := by
  obtain ⟨p, ch, hupdate, hindexed, hwithin⟩ : ∃ p ch,
      Poller.empty.updateChannel 0 TcpConnection.freshConnection.channel = some (p, ch) ∧
      ((p.interest ch.fd).isSome = true ↔ ch.index = .kAdded) ∧
      ∃ t, RunWithin (step 0) (fun _ e => e.Single)
        (start p { TcpConnection.freshConnection with channel := ch })
        [.polled (EPOLLIN ||| EPOLLHUP) endOfStream, .connectDestroyed] t := by
    refine ⟨_, _, rfl, ⟨fun _ => rfl, fun _ => rfl⟩, _,
      .cons (show Event.Single _ from ?_) rfl (.cons trivial rfl (.nil _))⟩
    rw [single_iff]
    decide
  obtain ⟨t, hwithin⟩ := hwithin
  exact ⟨p, ch, t, hupdate, hwithin.toRun, (reportedOnce_iff hindexed hwithin.toRun).2 hwithin⟩

set_option maxRecDepth 20000 in
/-- A hang-up with priority data, and a read that returns zero: the end is reported twice, and the
channel is in the interest list again. -/
theorem not_reportedOnce_priority :
    ∃ p ch t,
      Poller.empty.updateChannel 0 TcpConnection.freshConnection.channel = some (p, ch) ∧
      Run (step 0) (start p { TcpConnection.freshConnection with channel := ch })
        [.polled (EPOLLHUP ||| EPOLLPRI) endOfStream] t ∧
      t.trace.count .connectionCallback = 2 ∧ t.trace.count .closeCallback = 2 ∧
      t.conn.state = .kDisconnected ∧ t.registered = true ∧ ¬ ReportedOnce t := by
  obtain ⟨p, ch, t, hupdate, hexec, hconn, hclose, hstate, hregistered⟩ : ∃ p ch t,
      Poller.empty.updateChannel 0 TcpConnection.freshConnection.channel = some (p, ch) ∧
      exec (step 0) (start p { TcpConnection.freshConnection with channel := ch })
        [.polled (EPOLLHUP ||| EPOLLPRI) endOfStream] = some t ∧
      t.trace.count .connectionCallback = 2 ∧ t.trace.count .closeCallback = 2 ∧
      t.conn.state = .kDisconnected ∧ t.registered = true :=
    ⟨_, _, _, rfl, rfl, rfl, rfl, rfl, rfl⟩
  refine ⟨p, ch, t, hupdate, run_of_exec hexec, hconn, hclose, hstate, hregistered, fun h => ?_⟩
  have hle := h.closeCallback
  omega

end Polled

end MyServer
end MyCppCode
