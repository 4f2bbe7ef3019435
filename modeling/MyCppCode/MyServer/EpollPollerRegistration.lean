import MyCppCode.Foundation.TransitionSystem
import MyCppCode.MyServer.EpollPoller

/-!
# EpollPollerRegistration — what the poller, the kernel and the channels know agrees

Many channels on one poller, each of them with a descriptor of its own.  The state of a channel is
spread over its index, its event mask, `m_channels` and the interest list of the kernel; `Agrees` says
how the last two follow from the first two.  Every operation keeps it, so every request to `epoll_ctl`
fits the interest list, and the `LOG_FATAL` of `update` is not reached.
-/

namespace MyCppCode
namespace MyServer

open Foundation

universe u

/-- The operations of a channel that reach its poller. -/
inductive ChannelOp
  | enableRead
  | disableRead
  | enableWrite
  | disableWrite
  | disableAll
  | remove
  deriving DecidableEq, Repr

/-- What the operation does to the channel before it calls the poller. -/
def ChannelOp.change (ch : Channel) : ChannelOp → Channel
  | .enableRead => ch.enableRead
  | .disableRead => ch.disableRead
  | .enableWrite => ch.enableWrite
  | .disableWrite => ch.disableWrite
  | .disableAll => ch.disableAll
  | .remove => ch

namespace Poller

variable {κ : Type u}

/-- `Poller::hasChannel`. -/
def hasChannel [DecidableEq κ] (p : Poller κ) (k : κ) (ch : Channel) : Bool :=
  p.channels ch.fd = some k

/-- What `epoll_ctl` asks of the interest list: `ADD` a descriptor that is not in it, `MOD` or `DEL`
one that is. -/
def Legal (interest : Int → Option (κ × EventMask)) (fd : Int) : EpollOp → Prop
  | .add => interest fd = none
  | .mod => (interest fd).isSome
  | .del => (interest fd).isSome

/-! ## The requests of one call -/

/-- The request that `updateChannel` makes. -/
def updateRequest (ch : Channel) : EpollOp :=
  if ch.index = .kAdded then
    if ch.isNoneEvent then .del else .mod
  else
    .add

/-- The index that `updateChannel` leaves. -/
def updatedIndex (ch : Channel) : PollIndex :=
  if ch.index = .kAdded ∧ ch.isNoneEvent = true then .kDeleted else .kAdded

/-- `updateChannel` makes one request, and this is it. -/
theorem updateChannel_eq (p : Poller κ) (k : κ) (ch : Channel) :
    p.updateChannel k ch =
      (update
        { p with
          channels :=
            if ch.index = .kNew then Function.update p.channels ch.fd (some k) else p.channels }
        (updateRequest ch) k ch).map (·, ch.setIndex (updatedIndex ch)) := by
  unfold updateChannel updateRequest updatedIndex
  cases hindex : ch.index with
  | kNew => rfl
  | kDeleted => rfl
  | kAdded =>
      -- `MOD` leaves the index alone, which is the same as setting it to what it is.
      have hsame : ch.setIndex .kAdded = ch := by
        rw [← hindex]
        rfl
      cases hnone : ch.isNoneEvent with
      | true => simp
      | false => simp [hsame]

/-- The request that `removeChannel` makes, if it makes one. -/
def removeRequest (ch : Channel) : Option EpollOp :=
  if ch.index = .kAdded then some .del else none

theorem removeChannel_eq (p : Poller κ) (k : κ) (ch : Channel) :
    p.removeChannel k ch =
      match removeRequest ch with
      | some op =>
          (update { p with channels := Function.update p.channels ch.fd none } op k ch).map
            (·, ch.setIndex .kNew)
      | none =>
          some ({ p with channels := Function.update p.channels ch.fd none }, ch.setIndex .kNew) := by
  unfold removeChannel removeRequest
  split <;> rfl

/-- A legal request is granted. -/
theorem update_of_legal {p : Poller κ} {op : EpollOp} {k : κ} {ch : Channel}
    (h : Legal p.interest ch.fd op) : (p.update op k ch).isSome := by
  unfold update epollCtl
  cases op with
  | add =>
      have hnone : p.interest ch.fd = none := h
      simp [hnone]
  | mod =>
      obtain ⟨entry, hsome⟩ := Option.isSome_iff_exists.1 h
      simp [hsome]
  | del =>
      obtain ⟨entry, hsome⟩ := Option.isSome_iff_exists.1 h
      simp [hsome]

end Poller

/-! ## Many channels -/

/-- A poller and the channels of its loop. -/
structure Registry (κ : Type u) where
  poller : Poller κ
  channel : κ → Channel

namespace Registry

variable {κ : Type u}

/-- Channels as their constructors leave them, and a poller that knows none of them. -/
def start (fd : κ → Int) : Registry κ :=
  { poller := Poller.empty
    channel := fun k => Channel.new (fd k) }

/-- The request to `epoll_ctl` that an operation makes, if it makes one. -/
def request (ch : Channel) : ChannelOp → Option EpollOp
  | .remove => Poller.removeRequest ch
  | op => some (Poller.updateRequest (op.change ch))

/-- One operation of the channel `k`: `update()` or `remove()` of the poller. -/
def call (s : Registry κ) (k : κ) : ChannelOp → Option (Poller κ × Channel)
  | .remove => s.poller.removeChannel k (s.channel k)
  | op => s.poller.updateChannel k (op.change (s.channel k))

/-- One operation of one channel; `none` if the process aborts. -/
def step [DecidableEq κ] (s : Registry κ) (e : κ × ChannelOp) : Option (Registry κ) :=
  (s.call e.1 e.2).map fun r =>
    { poller := r.1
      channel := Function.update s.channel e.1 r.2 }

/-- The interest list and `m_channels` under the descriptor of one channel. -/
structure AgreesAt (p : Poller κ) (k : κ) (ch : Channel) : Prop where
  interest : p.interest ch.fd = if ch.index = .kAdded then some (k, ch.events) else none
  channels : p.channels ch.fd = if ch.index = .kNew then none else some k

/-- The poller agrees with all channels, and these have the descriptors `fd`. -/
structure Agrees (fd : κ → Int) (s : Registry κ) : Prop where
  fd_eq : ∀ k, (s.channel k).fd = fd k
  each : ∀ k, AgreesAt s.poller k (s.channel k)

/-- `q` differs from `p` under one descriptor only. -/
structure SameExcept (fd : Int) (p q : Poller κ) : Prop where
  interest : ∀ fd', fd' ≠ fd → q.interest fd' = p.interest fd'
  channels : ∀ fd', fd' ≠ fd → q.channels fd' = p.channels fd'

variable {p p' : Poller κ} {k : κ} {ch ch' : Channel}

theorem AgreesAt.of_sameExcept {fd : Int} (h : AgreesAt p k ch) (hsame : SameExcept fd p p')
    (hne : ch.fd ≠ fd) : AgreesAt p' k ch where
  interest := by rw [hsame.interest _ hne, h.interest]
  channels := by rw [hsame.channels _ hne, h.channels]

theorem change_fd_index (ch : Channel) (op : ChannelOp) :
    (op.change ch).fd = ch.fd ∧ (op.change ch).index = ch.index := by
  cases op <;> exact ⟨rfl, rfl⟩

/-- `updateChannel` on a channel whose mask was just changed. -/
theorem updateChannel_agrees (hchannels : p.channels ch.fd = if ch.index = .kNew then none else some k)
    (h : p.updateChannel k ch = some (p', ch')) :
    AgreesAt p' k ch' ∧ ch'.fd = ch.fd ∧ SameExcept ch.fd p p' := by
  rcases Poller.updateChannel_cases h with
    ⟨hindex, rfl, rfl⟩ | ⟨hindex, hnone, rfl, rfl⟩ | ⟨hindex, hsome, rfl, rfl⟩
  · -- `ADD`: a channel that was deleted is in `m_channels` already.
    refine ⟨⟨?_, ?_⟩, rfl, ⟨fun fd' hne => ?_, fun fd' hne => ?_⟩⟩
    · simp [Channel.setIndex]
    · by_cases hnew : ch.index = .kNew
      · simp [Channel.setIndex, hnew]
      · simp [Channel.setIndex, hnew, hchannels]
    · simp [hne]
    · by_cases hnew : ch.index = .kNew <;> simp [hnew, hne]
  -- `DEL`: the channel stays in `m_channels`.
  · refine ⟨⟨?_, ?_⟩, rfl, ⟨fun fd' hne => ?_, fun fd' hne => rfl⟩⟩
    · simp [Channel.setIndex]
    · simp [Channel.setIndex, hchannels, hindex]
    · simp [hne]
  -- `MOD`
  · refine ⟨⟨?_, ?_⟩, rfl, ⟨fun fd' hne => ?_, fun fd' hne => rfl⟩⟩
    · simp [hindex]
    · simp [hchannels]
    · simp [hne]

theorem removeChannel_agrees (hat : AgreesAt p k ch) (h : p.removeChannel k ch = some (p', ch')) :
    AgreesAt p' k ch' ∧ ch'.fd = ch.fd ∧ SameExcept ch.fd p p' := by
  obtain ⟨rfl, hchannels, ⟨-, hint⟩ | ⟨hindex, hint⟩⟩ := Poller.removeChannel_cases h
  · refine ⟨⟨?_, ?_⟩, rfl, ⟨fun fd' hne => ?_, fun fd' hne => ?_⟩⟩
    · simp [Channel.setIndex, hint]
    · simp [Channel.setIndex, hchannels]
    · simp [hint, hne]
    · simp [hchannels, hne]
  -- There is no entry to delete, because the index is not `kAdded`.
  · have hinterest := hat.interest
    rw [if_neg hindex] at hinterest
    refine ⟨⟨?_, ?_⟩, rfl, ⟨fun fd' hne => by rw [hint], fun fd' hne => ?_⟩⟩
    · simpa [Channel.setIndex, hint] using hinterest
    · simp [Channel.setIndex, hchannels]
    · simp [hchannels, hne]

theorem start_agrees (fd : κ → Int) : Agrees fd (start fd) where
  fd_eq _ := rfl
  each _ := ⟨rfl, rfl⟩

variable {fd : κ → Int} {s t : Registry κ}

/-- The call of an operation, on a poller that agrees with the channel. -/
theorem call_agrees (hat : AgreesAt s.poller k (s.channel k)) {op : ChannelOp}
    (h : s.call k op = some (p', ch')) :
    AgreesAt p' k ch' ∧ ch'.fd = (s.channel k).fd ∧ SameExcept (s.channel k).fd s.poller p' := by
  obtain ⟨hfd, hindex⟩ := change_fd_index (s.channel k) op
  have hchannels := hat.channels
  rw [← hfd, ← hindex] at hchannels
  rw [← hfd]
  cases op with
  | remove => exact removeChannel_agrees hat h
  | enableRead => exact updateChannel_agrees hchannels h
  | disableRead => exact updateChannel_agrees hchannels h
  | enableWrite => exact updateChannel_agrees hchannels h
  | disableWrite => exact updateChannel_agrees hchannels h
  | disableAll => exact updateChannel_agrees hchannels h

theorem step_agrees [DecidableEq κ] (hfd : Function.Injective fd) (h : Agrees fd s)
    {e : κ × ChannelOp} (hstep : step s e = some t) : Agrees fd t := by
  obtain ⟨k, op⟩ := e
  obtain ⟨⟨p', ch'⟩, hcall, rfl⟩ := Option.map_eq_some_iff.1 hstep
  obtain ⟨hat, hsame, hrest⟩ := call_agrees (h.each k) hcall
  constructor
  · intro k'
    by_cases hk : k' = k
    · subst hk
      simpa [hsame] using h.fd_eq k'
    · simpa [hk] using h.fd_eq k'
  · intro k'
    by_cases hk : k' = k
    · subst hk
      simpa using hat
    · -- Another channel has another descriptor.
      have hne : (s.channel k').fd ≠ (s.channel k).fd := by
        rw [h.fd_eq, h.fd_eq]
        exact fun heq => hk (hfd heq)
      simpa [hk] using (h.each k').of_sameExcept hrest hne

/-- The request of an operation fits the interest list. -/
theorem request_legal (hat : AgreesAt p k ch) {op : ChannelOp} {r : EpollOp}
    (hr : request ch op = some r) : Poller.Legal p.interest ch.fd r := by
  have hinterest := hat.interest
  obtain ⟨-, hindex⟩ := change_fd_index ch op
  -- The operation changes the mask only, and the request is chosen by the index.
  have hupdate : Poller.Legal p.interest ch.fd (Poller.updateRequest (op.change ch)) := by
    unfold Poller.updateRequest
    rw [hindex]
    split
    · rename_i hadded
      rw [if_pos hadded] at hinterest
      split <;> simp [Poller.Legal, hinterest]
    · rename_i hadded
      rw [if_neg hadded] at hinterest
      exact hinterest
  cases op with
  | remove =>
      simp only [request, Poller.removeRequest] at hr
      split at hr
      · rename_i hadded
        cases hr
        rw [if_pos hadded] at hinterest
        simp [Poller.Legal, hinterest]
      · cases hr
  | enableRead => cases hr; exact hupdate
  | disableRead => cases hr; exact hupdate
  | enableWrite => cases hr; exact hupdate
  | disableWrite => cases hr; exact hupdate
  | disableAll => cases hr; exact hupdate

/-- An operation whose request is legal does not abort. -/
theorem call_isSome (hat : AgreesAt s.poller k (s.channel k)) (op : ChannelOp) :
    (s.call k op).isSome := by
  obtain ⟨hfd, -⟩ := change_fd_index (s.channel k) op
  cases hr : request (s.channel k) op with
  | none =>
      cases op with
      | remove =>
          have hnone : Poller.removeRequest (s.channel k) = none := hr
          simp [call, Poller.removeChannel_eq, hnone]
      | _ => cases hr
  | some r =>
      have hlegal := request_legal hat hr
      cases op with
      | remove =>
          have hsome : Poller.removeRequest (s.channel k) = some r := hr
          simp only [call, Poller.removeChannel_eq, hsome, Option.isSome_map]
          exact Poller.update_of_legal hlegal
      | _ =>
          cases hr
          rw [← hfd] at hlegal
          simp only [call, Poller.updateChannel_eq, Option.isSome_map]
          exact Poller.update_of_legal hlegal

/-- In every reachable state the index and the mask of a channel say what the interest list and
`m_channels` hold, every request that an operation would make is legal, and no operation aborts. -/
theorem registration_agrees [DecidableEq κ] {fd : κ → Int} (hfd : Function.Injective fd)
    {es : List (κ × ChannelOp)} {s : Registry κ} (hrun : Run step (start fd) es s) :
    (∀ k,
      ((s.channel k).index = .kAdded ↔ (s.poller.interest (fd k)).isSome) ∧
      ((s.channel k).index = .kAdded →
        s.poller.interest (fd k) = some (k, (s.channel k).events)) ∧
      ((s.channel k).index ≠ .kNew ↔ s.poller.channels (fd k) = some k) ∧
      (s.poller.hasChannel k (s.channel k) = true ↔ (s.channel k).index ≠ .kNew)) ∧
    ∀ k op,
      (∀ r, request (s.channel k) op = some r → Poller.Legal s.poller.interest (fd k) r) ∧
      (step s (k, op)).isSome := by
  have hagrees : Agrees fd s :=
    hrun.invariant (fun _ _ _ h hstep => step_agrees hfd h hstep) (start_agrees fd)
  constructor
  · intro k
    obtain ⟨hinterest, hchannels⟩ := hagrees.each k
    rw [hagrees.fd_eq k] at hinterest hchannels
    have hknown : (s.channel k).index ≠ .kNew ↔ s.poller.channels (fd k) = some k := by
      rw [hchannels]
      split <;> simp_all
    refine ⟨?_, ?_, hknown, ?_⟩
    · rw [hinterest]
      split <;> simp_all
    · intro hadded
      rw [hinterest, if_pos hadded]
    · rw [Poller.hasChannel, hagrees.fd_eq k, decide_eq_true_iff]
      exact hknown.symm
  · intro k op
    refine ⟨fun r hr => ?_, ?_⟩
    · rw [← hagrees.fd_eq k]
      exact request_legal (hagrees.each k) hr
    · rw [step, Option.isSome_map]
      exact call_isSome (hagrees.each k) op

/-- Two channels; the mask of the first is emptied, filled again, and taken away. -/
theorem registration_agrees_removed :
    ∃ s : Registry Bool,
      Run step (start fun k => if k then 5 else 7)
        [(true, .enableRead), (false, .enableWrite), (true, .disableRead), (true, .disableAll),
          (true, .enableWrite), (true, .remove)] s ∧
      s.poller.hasChannel true (s.channel true) = false ∧
      s.poller.hasChannel false (s.channel false) = true ∧
      (step s (true, .disableAll)).isSome := by
  have hfd : Function.Injective fun k : Bool => if k then (5 : Int) else 7 := by decide
  obtain ⟨s, hexec, hnew, hold⟩ : ∃ s : Registry Bool,
      exec step (start fun k => if k then 5 else 7)
        [(true, .enableRead), (false, .enableWrite), (true, .disableRead), (true, .disableAll),
          (true, .enableWrite), (true, .remove)] = some s ∧
      (s.channel true).index = .kNew ∧ (s.channel false).index = .kAdded :=
    ⟨_, rfl, rfl, rfl⟩
  have hrun := run_of_exec hexec
  obtain ⟨hknown, hcalls⟩ := registration_agrees hfd hrun
  refine ⟨s, hrun, ?_, ?_, (hcalls true .disableAll).2⟩
  · have hiff := (hknown true).2.2.2
    rw [← Bool.not_eq_true, hiff]
    simp [hnew]
  · rw [(hknown false).2.2.2, hold]
    decide

end Registry

end MyServer
end MyCppCode
