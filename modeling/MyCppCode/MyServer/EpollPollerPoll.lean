import MyCppCode.Foundation.Machine
import MyCppCode.Foundation.TransitionSystem
import MyCppCode.MyServer.EpollPoller

/-!
# EpollPollerPoll — what a call of `poll` makes of the answer of the kernel

`epoll_wait` answers with a count of type `int`; `poll` keeps it in a `size_t`, compares that with 0,
and converts it back to `int` for the loop of `fillActiveChannels`.  For a count from 0 up to the size
of `m_events` the conversions change nothing.  An answer of -1 becomes `2 ^ 64 - 1`, which is greater
than 0: the call goes through the branch for events, in which the loop runs up to -1 and does nothing,
and the branch for errors is never reached.
-/

namespace MyCppCode
namespace MyServer
namespace EpollPoller

open Foundation

universe u

/-- What `epoll_wait` reports: `data.ptr` and `events` of each ready descriptor.  A descriptor is
reported once, and the count is an `int`. -/
structure Report (κ : Type u) where
  events : List (κ × EventMask)
  nodup : (events.map Prod.fst).Nodup
  length_lt : events.length < 2147483648

inductive Outcome (κ : Type u)
  | reported (report : Report κ)
  | failed (errno : Int)

namespace Outcome

variable {κ : Type u}

/-- The return value of `epoll_wait`. -/
def result : Outcome κ → Int
  | .reported report => report.events.length
  | .failed _ => -1

def events : Outcome κ → List (κ × EventMask)
  | .reported report => report.events
  | .failed _ => []

/-- `errno` after the call; its value after a success is not looked at. -/
def errno : Outcome κ → Int
  | .reported _ => 0
  | .failed errno => errno

end Outcome

/-- `m_events`, and the `m_revents` of the channels. -/
structure State (κ : Type u) where
  m_events : List (κ × EventMask)
  revents : κ → EventMask

/-- A call of `poll`: the list it is given, and what the kernel answers. -/
structure Call (κ : Type u) where
  activeChannels : List κ
  outcome : Outcome κ

/-- The branch that a call takes; an error is logged unless it is `EINTR`. -/
inductive Branch
  | events
  | timeout
  | error (logged : Bool)
  deriving DecidableEq, Repr

structure Polled (κ : Type u) where
  state : State κ
  activeChannels : List κ
  branch : Branch

def kInitEventListSize : Nat := 16

def EINTR : Int := 4

variable {κ : Type u} [DecidableEq κ]

/-- The body of the loop of `fillActiveChannels`. -/
def fillOne (m_events : List (κ × EventMask)) (filled : (κ → EventMask) × List κ) (i : Nat) :
    Except Halt ((κ → EventMask) × List κ) :=
  match m_events[i]? with
  | some (channel, events) => .ok (Function.update filled.1 channel events, filled.2 ++ [channel])
  | none => .error .undefinedBehaviour

/-- `EpollPoller::fillActiveChannels`: the channels' `m_revents` and the list afterwards. -/
def fillActiveChannels (s : State κ) (numEvents : Int) (activeChannels : List κ) :
    Except Halt ((κ → EventMask) × List κ) :=
  (List.range numEvents.toNat).foldlM (fillOne s.m_events) (s.revents, activeChannels)

/-- `epoll_wait` writes its report to the front of `m_events`. -/
def epollWait (s : State κ) (outcome : Outcome κ) : State κ :=
  { s with m_events := outcome.events ++ s.m_events.drop outcome.events.length }

/-- The part of `EpollPoller::poll` that follows `epoll_wait`; `filler` is the `epoll_event` that
`resize` fills up with. -/
def handleEvents (filler : κ × EventMask) (s : State κ) (activeChannels : List κ) (numEvents : Nat)
    (saveErrno : Int) : Except Halt (Polled κ) :=
  if numEvents > 0 then do
    let filled ← fillActiveChannels s (SizeT.toInt numEvents) activeChannels
    if numEvents = s.m_events.length then
      let m_events ← resize s.m_events (s.m_events.length * 2 % 2 ^ 64) filler
      .ok ⟨⟨m_events, filled.1⟩, filled.2, .events⟩
    else
      .ok ⟨⟨s.m_events, filled.1⟩, filled.2, .events⟩
  else if numEvents = 0 then
    .ok ⟨s, activeChannels, .timeout⟩
  else
    .ok ⟨s, activeChannels, .error (saveErrno ≠ EINTR)⟩

/-- `EpollPoller::poll`: the `int` from `epoll_wait` becomes a `size_t`. -/
def poll (filler : κ × EventMask) (s : State κ) (call : Call κ) : Except Halt (Polled κ) :=
  handleEvents filler (epollWait s call.outcome) call.activeChannels
    (SizeT.ofInt call.outcome.result) call.outcome.errno

/-- The state that the constructor leaves, with any `revents`. -/
def constructed (filler : κ × EventMask) (revents : κ → EventMask) : State κ :=
  ⟨List.replicate kInitEventListSize filler, revents⟩

/-! ## A sequence of calls -/

/-- The kernel reports no more events than `m_events` has room for. -/
def Fits (s : State κ) (call : Call κ) : Prop :=
  call.outcome.events.length ≤ s.m_events.length

instance (s : State κ) (call : Call κ) : Decidable (Fits s call) :=
  inferInstanceAs (Decidable (_ ≤ _))

/-- One call after the other; what undefined behaviour leaves behind is left open here, as no call is
correct that has it. -/
def step (filler : κ × EventMask) (s : State κ) (call : Call κ) : Option (State κ) :=
  if Fits s call then
    match poll filler s call with
    | .ok polled => some polled.state
    | .error _ => some s
  else
    none

/-- What a call should do: append the reported channels, each with its `revents`, double `m_events`
exactly when it was filled, and take the error branch exactly for -1. -/
structure Correct (s : State κ) (call : Call κ) (polled : Polled κ) : Prop where
  active : polled.activeChannels = call.activeChannels ++ call.outcome.events.map Prod.fst
  reported : ∀ channel events, (channel, events) ∈ call.outcome.events →
    polled.state.revents channel = events
  others : ∀ channel, channel ∉ call.outcome.events.map Prod.fst →
    polled.state.revents channel = s.revents channel
  size : polled.state.m_events.length =
    if call.outcome.result = s.m_events.length then s.m_events.length * 2 else s.m_events.length
  branch : (∃ logged, polled.branch = .error logged) ↔ call.outcome.result = -1

/-- The call returns, reads nothing outside `m_events`, and does what it should. -/
def Meets (filler : κ × EventMask) (s : State κ) (call : Call κ) : Prop :=
  ∃ polled, poll filler s call = .ok polled ∧ Correct s call polled

/-! ## `fillActiveChannels` -/

/-- The `m_revents` after a list of assignments. -/
def setAll (revents : κ → EventMask) (events : List (κ × EventMask)) : κ → EventMask :=
  events.foldl (fun revents event => Function.update revents event.1 event.2) revents

theorem setAll_concat (revents : κ → EventMask) (events : List (κ × EventMask))
    (event : κ × EventMask) :
    setAll revents (events ++ [event]) =
      Function.update (setAll revents events) event.1 event.2 := by
  rw [setAll, List.foldl_append]
  rfl

theorem setAll_of_notMem (revents : κ → EventMask) {events : List (κ × EventMask)} {channel : κ}
    (h : channel ∉ events.map Prod.fst) : setAll revents events channel = revents channel := by
  induction events generalizing revents with
  | nil => rfl
  | cons event events ih =>
      simp only [List.map_cons, List.mem_cons, not_or] at h
      calc
        setAll revents (event :: events) channel
            = setAll (Function.update revents event.1 event.2) events channel := rfl
        _ = Function.update revents event.1 event.2 channel := ih _ h.2
        _ = revents channel := Function.update_of_ne h.1 _ _

theorem setAll_of_mem (revents : κ → EventMask) {events : List (κ × EventMask)} {channel : κ}
    {mask : EventMask} (hnodup : (events.map Prod.fst).Nodup) (h : (channel, mask) ∈ events) :
    setAll revents events channel = mask := by
  induction events generalizing revents with
  | nil => cases h
  | cons event events ih =>
      rw [List.map_cons, List.nodup_cons] at hnodup
      rcases List.mem_cons.1 h with rfl | h
      · -- the later assignments are to other channels
        calc
          setAll revents ((channel, mask) :: events) channel
              = setAll (Function.update revents channel mask) events channel := rfl
          _ = Function.update revents channel mask channel := setAll_of_notMem _ hnodup.1
          _ = mask := Function.update_self _ _ _
      · exact ih _ hnodup.2 h

/-- As many rounds of the loop as there are events at the front of `m_events` go through them in
order. -/
theorem foldlM_fillOne (events rest : List (κ × EventMask)) (revents : κ → EventMask)
    (activeChannels : List κ) {n : Nat} (hn : n ≤ events.length) :
    (List.range n).foldlM (fillOne (events ++ rest)) (revents, activeChannels) =
      .ok (setAll revents (events.take n), activeChannels ++ (events.take n).map Prod.fst) := by
  induction n with
  | zero => simp [setAll, pure, Except.pure]
  | succ n ih =>
      have hlt : n < events.length := hn
      have hget : (events ++ rest)[n]? = some events[n] := by
        rw [List.getElem?_append_left hlt, List.getElem?_eq_getElem hlt]
      rw [List.range_succ, List.foldlM_append, ih hlt.le, List.take_succ_eq_append_getElem hlt,
        setAll_concat, List.map_append, ← List.append_assoc]
      simp only [List.foldlM_cons, List.foldlM_nil, bind, Except.bind, fillOne, hget]
      rfl

theorem fillActiveChannels_reported (s : State κ) (report : Report κ) (activeChannels : List κ) :
    fillActiveChannels (epollWait s (.reported report)) report.events.length activeChannels =
      .ok (setAll s.revents report.events, activeChannels ++ report.events.map Prod.fst) := by
  have h := foldlM_fillOne report.events (s.m_events.drop report.events.length) s.revents
    activeChannels (Nat.le_refl _)
  rw [List.take_length] at h
  exact h

/-! ## One call -/

variable {filler : κ × EventMask} {s t : State κ} {activeChannels : List κ} {call : Call κ}

omit [DecidableEq κ] in
theorem length_epollWait {outcome : Outcome κ} (h : outcome.events.length ≤ s.m_events.length) :
    (epollWait s outcome).m_events.length = s.m_events.length := by
  simp only [epollWait, List.length_append, List.length_drop]
  omega

/-- The conversions to `size_t` and back keep a count. -/
theorem toInt_ofInt {n : Nat} (h : n < 2147483648) :
    SizeT.ofInt (n : Int) = n ∧ SizeT.toInt n = n :=
  ⟨SizeT.ofInt_natCast (by omega), SizeT.toInt_of_lt (by omega)⟩

/-- No `size_t` is neither positive nor zero: the error branch is dead. -/
theorem not_error_of_poll {polled : Polled κ} (h : poll filler s call = .ok polled) :
    ¬ ∃ logged, polled.branch = .error logged := by
  rintro ⟨logged, hlogged⟩
  unfold poll handleEvents at h
  split at h
  · obtain ⟨filled, -, h⟩ := bind_eq_ok h
    split at h
    · obtain ⟨m_events, -, h⟩ := bind_eq_ok h
      cases h
      cases hlogged
    · cases h
      cases hlogged
  · split at h
    · cases h
      cases hlogged
    · omega

/-- What the call does with a report, in the branch for events and in that for a timeout. -/
theorem poll_reported {report : Report κ} (hfits : report.events.length ≤ s.m_events.length) :
    ∃ polled, poll filler s ⟨activeChannels, .reported report⟩ = .ok polled ∧
      polled.activeChannels = activeChannels ++ report.events.map Prod.fst ∧
      polled.state.revents = setAll s.revents report.events ∧
      polled.state.m_events.length =
        if report.events.length = s.m_events.length then s.m_events.length * 2
        else s.m_events.length := by
  obtain ⟨hofInt, htoInt⟩ := toInt_ofInt report.length_lt
  have hlen : (epollWait s (.reported report)).m_events.length = s.m_events.length :=
    length_epollWait hfits
  have hfill := fillActiveChannels_reported s report activeChannels
  unfold poll
  rw [Outcome.result, hofInt, handleEvents]
  by_cases hpos : report.events.length > 0
  · rw [if_pos hpos, htoInt, hfill, hlen]
    by_cases hfull : report.events.length = s.m_events.length
    · -- the size is a count, so twice the size neither wraps nor exceeds `max_size()`
      have hsmall := report.length_lt
      have hmod : s.m_events.length * 2 % 2 ^ 64 = s.m_events.length * 2 :=
        Nat.mod_eq_of_lt (by omega)
      have hmax : ¬ maxSize < s.m_events.length * 2 := by
        unfold maxSize
        omega
      simp only [bind, Except.bind, if_pos hfull, hmod, resize, if_neg hmax]
      refine ⟨_, rfl, rfl, rfl, ?_⟩
      simp only [List.length_append, List.length_take, List.length_replicate, hlen]
      omega
    · simp only [bind, Except.bind, if_neg hfull]
      exact ⟨_, rfl, rfl, rfl, hlen⟩
  · have hzero : report.events.length = 0 := by omega
    have hnil : report.events = [] := List.length_eq_zero_iff.1 hzero
    rw [if_neg hpos, if_pos hzero]
    refine ⟨_, rfl, ?_, ?_, ?_⟩
    · simp [hnil]
    · simp [hnil, setAll, epollWait]
    · rw [hlen]
      split
      · omega
      · rfl

theorem meets_reported {report : Report κ} (hfits : report.events.length ≤ s.m_events.length) :
    Meets filler s ⟨activeChannels, .reported report⟩ := by
  obtain ⟨polled, hpoll, hactive, hrevents, hsize⟩ := poll_reported hfits
  refine ⟨polled, hpoll, hactive, ?_, ?_, ?_, ?_⟩
  · intro channel events hmem
    rw [hrevents]
    exact setAll_of_mem _ report.nodup hmem
  · intro channel hmem
    rw [hrevents]
    exact setAll_of_notMem _ hmem
  · rw [hsize]
    simp only [Outcome.result, Nat.cast_inj]
  · refine iff_of_false (not_error_of_poll hpoll) ?_
    show (report.events.length : Int) ≠ -1
    omega

/-- A call is correct unless the kernel answered -1. -/
theorem meets_iff (hfits : Fits s call) : Meets filler s call ↔ call.outcome.result ≠ -1 := by
  obtain ⟨activeChannels, outcome⟩ := call
  cases outcome with
  | reported report =>
      refine iff_of_true (meets_reported hfits) ?_
      show (report.events.length : Int) ≠ -1
      omega
  | failed errno =>
      refine iff_of_false ?_ (fun h => h rfl)
      rintro ⟨polled, hpoll, hcorrect⟩
      exact not_error_of_poll hpoll (hcorrect.branch.2 rfl)

/-! ## All calls -/

theorem fits_of_step (h : step filler s call = some t) : Fits s call := by
  unfold step at h
  split at h
  · assumption
  · cases h

/-- In every sequence of answers of the kernel, all calls are correct exactly when none of the answers
is -1. -/
theorem meets_run_iff {calls : List (Call κ)} (h : Run (step filler) s calls t) :
    RunWithin (step filler) (Meets filler) s calls t ↔
      ∀ call ∈ calls, call.outcome.result ≠ -1 := by
  induction h with
  | nil s => exact iff_of_true (RunWithin.nil s) (by simp)
  | @cons s t u call calls hstep _ ih =>
      have hmeets : Meets filler s call ↔ call.outcome.result ≠ -1 := meets_iff (fits_of_step hstep)
      rw [List.forall_mem_cons, ← ih, ← hmeets]
      constructor
      · intro hrun
        cases hrun with
        | cons hmeets hstep' hrest =>
            cases hstep.symm.trans hstep'
            exact ⟨hmeets, hrest⟩
      · rintro ⟨hmeets, hrest⟩
        exact RunWithin.cons hmeets hstep hrest

/-- Sixteen ready channels fill the array of a new poller. -/
def sixteen : Call Nat where
  activeChannels := []
  outcome := .reported ⟨(List.range 16).map (·, EPOLLIN), by decide, by decide⟩

theorem meets_run_sixteen :
    ∃ t, Run (step (0, 0)) (constructed (0, 0) fun _ => 0) [sixteen] t ∧
      RunWithin (step (0, 0)) (Meets (0, 0)) (constructed (0, 0) fun _ => 0) [sixteen] t := by
  obtain ⟨t, ht⟩ : ∃ t, step (0, 0) (constructed (0, 0) fun _ => 0) sixteen = some t := by
    have hfits : Fits (constructed (0, 0) fun _ => 0) sixteen := by decide
    unfold step
    rw [if_pos hfits]
    split
    · exact ⟨_, rfl⟩
    · exact ⟨_, rfl⟩
  have hrun := Run.cons ht (Run.nil t)
  exact ⟨t, hrun, (meets_run_iff hrun).2 (by decide)⟩

/-- A call interrupted by a signal on a new poller: it is treated as a call with events. -/
theorem poll_interrupted :
    (∃ polled, poll (0, 0) (constructed (0, 0) fun _ => 0) ⟨([] : List Nat), .failed EINTR⟩ =
        .ok polled ∧ polled.branch = .events) ∧
      ¬ Meets (0, 0) (constructed (0, 0) fun _ => 0) ⟨([] : List Nat), .failed EINTR⟩ := by
  have hofInt : SizeT.ofInt (-1) = 18446744073709551615 := by decide
  have htoInt : SizeT.toInt 18446744073709551615 = -1 := by decide
  constructor
  · refine ⟨⟨constructed (0, 0) fun _ => 0, [], .events⟩, ?_, rfl⟩
    rw [poll, Outcome.result, hofInt, handleEvents, if_pos (by decide), htoInt]
    rfl
  · intro hmeets
    exact (meets_iff (Nat.zero_le _)).1 hmeets rfl

end EpollPoller
end MyServer
end MyCppCode
