import Mathlib.Data.BitVec

/-!
# Channel — the interest of one file descriptor and the dispatch of its events

The event masks are 32-bit words with the values of `<sys/epoll.h>`.  Changing the interest of a
channel is followed by `update()`, which is a matter of the poller; here are the masks themselves and
the order in which `handleEventWithGuard` calls back.
-/

namespace MyCppCode
namespace MyServer

abbrev EventMask := BitVec 32

def EPOLLIN : EventMask := 0x001
def EPOLLPRI : EventMask := 0x002
def EPOLLOUT : EventMask := 0x004
def EPOLLERR : EventMask := 0x008
def EPOLLHUP : EventMask := 0x010

/-- `m_index`: what the poller knows about a channel. -/
inductive PollIndex
  | kNew
  | kAdded
  | kDeleted
  deriving DecidableEq, Repr

structure Channel where
  fd : Int
  events : EventMask
  revents : EventMask
  index : PollIndex
  tied : Bool
  deriving DecidableEq, Repr

namespace Channel

def kNoneEvent : EventMask := 0
def kReadEvent : EventMask := EPOLLIN ||| EPOLLPRI
def kWriteEvent : EventMask := EPOLLOUT

/-- The constructor `Channel(loop, fd)`. -/
def new (fd : Int) : Channel :=
  { fd := fd
    events := kNoneEvent
    revents := 0
    index := .kNew
    tied := false }

def enableRead (ch : Channel) : Channel := { ch with events := ch.events ||| kReadEvent }
def disableRead (ch : Channel) : Channel := { ch with events := ch.events &&& ~~~kReadEvent }
def enableWrite (ch : Channel) : Channel := { ch with events := ch.events ||| kWriteEvent }
def disableWrite (ch : Channel) : Channel := { ch with events := ch.events &&& ~~~kWriteEvent }
def disableAll (ch : Channel) : Channel := { ch with events := ch.events &&& kNoneEvent }

def isNoneEvent (ch : Channel) : Bool := ch.events == kNoneEvent
def isWrite (ch : Channel) : Bool := ch.events &&& kWriteEvent != 0
def isRead (ch : Channel) : Bool := ch.events &&& kReadEvent != 0

def setRevents (ch : Channel) (revents : EventMask) : Channel := { ch with revents := revents }
def setIndex (ch : Channel) (index : PollIndex) : Channel := { ch with index := index }
def tie (ch : Channel) : Channel := { ch with tied := true }

/-- A callback of the channel. -/
inductive Callback
  | close
  | error
  | read
  | write
  deriving DecidableEq, Repr

/-- The callbacks that `handleEventWithGuard` makes for `revents`, in order. -/
def callbacks (revents : EventMask) : List Callback :=
  (if revents &&& EPOLLHUP != 0 && revents &&& EPOLLIN == 0 then [.close] else []) ++
    (if revents &&& EPOLLERR != 0 then [.error] else []) ++
    (if revents &&& (EPOLLIN ||| EPOLLPRI) != 0 then [.read] else []) ++
    (if revents &&& EPOLLOUT != 0 then [.write] else [])

/-! ## Masks -/

@[simp] theorem isWrite_enableWrite (ch : Channel) : ch.enableWrite.isWrite = true := by
  have h : (ch.events ||| kWriteEvent) &&& kWriteEvent = kWriteEvent := by
    ext i hi
    simp only [BitVec.getElem_and, BitVec.getElem_or]
    cases ch.events[i] <;> simp
  simp only [isWrite, enableWrite, h]
  decide

@[simp] theorem isWrite_disableWrite (ch : Channel) : ch.disableWrite.isWrite = false := by
  have h : (ch.events &&& ~~~kWriteEvent) &&& kWriteEvent = 0 := by
    rw [BitVec.and_assoc, BitVec.and_comm (~~~kWriteEvent)]
    simp
  simp [isWrite, disableWrite, h]

@[simp] theorem isWrite_new (fd : Int) : (Channel.new fd).isWrite = false := by
  simp only [isWrite, new]
  decide

/-- Interest in reading and interest in writing are different bits. -/
@[simp] theorem isWrite_enableRead (ch : Channel) : ch.enableRead.isWrite = ch.isWrite := by
  have h : (ch.events ||| kReadEvent) &&& kWriteEvent = ch.events &&& kWriteEvent := by
    have hdisj : kReadEvent &&& kWriteEvent = 0 := by decide
    rw [BitVec.and_comm, BitVec.and_or_distrib_left, BitVec.and_comm kWriteEvent kReadEvent, hdisj,
      BitVec.and_comm]
    simp
  simp only [isWrite, enableRead, h]

@[simp] theorem events_disableAll (ch : Channel) : ch.disableAll.events = kNoneEvent := by
  simp [disableAll, kNoneEvent]

end Channel

end MyServer
end MyCppCode
