import Mathlib.Logic.Function.Basic
import MyCppCode.MyServer.Channel

/-!
# EpollPoller — registration of channels with epoll

`Poller κ` is the state of a poller: `m_channels`, and the interest list of its epoll instance.  A
`Channel*` is a name of type `κ`; the fields of the channel are passed along with it.  Both maps are
keyed by file descriptor.

`epoll_ctl` fails on a request that does not fit the interest list.  A failed `EPOLL_CTL_DEL` is only
logged, any other failure is a `LOG_FATAL`, which aborts: the operation then returns `none`.
-/

namespace MyCppCode
namespace MyServer

universe u

inductive EpollOp
  | add
  | mod
  | del
  deriving DecidableEq, Repr

structure Poller (κ : Type u) where
  channels : Int → Option κ
  interest : Int → Option (κ × EventMask)

namespace Poller

variable {κ : Type u}

def empty : Poller κ :=
  { channels := fun _ => none
    interest := fun _ => none }

/-- `::epoll_ctl(m_epollfd, op, fd, entry)`; `none` is the return value `-1`. -/
def epollCtl (interest : Int → Option (κ × EventMask)) (op : EpollOp) (fd : Int)
    (entry : κ × EventMask) : Option (Int → Option (κ × EventMask)) :=
  match op, interest fd with
  | .add, none => some (Function.update interest fd (some entry))
  | .mod, some _ => some (Function.update interest fd (some entry))
  | .del, some _ => some (Function.update interest fd none)
  | _, _ => none

/-- `EpollPoller::update`. -/
def update (p : Poller κ) (op : EpollOp) (k : κ) (ch : Channel) : Option (Poller κ) :=
  match epollCtl p.interest op ch.fd (k, ch.events) with
  | some interest => some { p with interest := interest }
  | none => if op = .del then some p else none

/-- `EpollPoller::updateChannel`. -/
def updateChannel (p : Poller κ) (k : κ) (ch : Channel) : Option (Poller κ × Channel) :=
  if ch.index = .kNew ∨ ch.index = .kDeleted then
    let p' :=
      if ch.index = .kNew then { p with channels := Function.update p.channels ch.fd (some k) } else p
    let ch' := ch.setIndex .kAdded
    (p'.update .add k ch').map (·, ch')
  else if ch.isNoneEvent then
    (p.update .del k ch).map (·, ch.setIndex .kDeleted)
  else
    (p.update .mod k ch).map (·, ch)

/-- `EpollPoller::removeChannel`. -/
def removeChannel (p : Poller κ) (k : κ) (ch : Channel) : Option (Poller κ × Channel) :=
  let p' := { p with channels := Function.update p.channels ch.fd none }
  if ch.index = .kAdded then
    (p'.update .del k ch).map (·, ch.setIndex .kNew)
  else
    some (p', ch.setIndex .kNew)

/-! ## What the operations do to one channel and to all others -/

/-- The poller knows the channel under its own descriptor only, and has it in the interest list only
while the channel's index says so. -/
structure Tracks (p : Poller κ) (k : κ) (ch : Channel) : Prop where
  channels : ∀ fd, p.channels fd = some k → fd = ch.fd
  interest : ∀ fd mask, p.interest fd = some (k, mask) → fd = ch.fd ∧ ch.index = .kAdded

/-- The poller knows the channel. -/
def Knows (p : Poller κ) (k : κ) : Prop :=
  (∃ fd, p.channels fd = some k) ∨ ∃ fd mask, p.interest fd = some (k, mask)

/-- `p'` knows nothing about a channel other than `k` that `p` did not know. -/
structure OnlyTouches (k : κ) (p p' : Poller κ) : Prop where
  channels : ∀ fd y, y ≠ k → p'.channels fd = some y → p.channels fd = some y
  interest : ∀ fd y mask, y ≠ k → p'.interest fd = some (y, mask) → p.interest fd = some (y, mask)

theorem OnlyTouches.refl (k : κ) (p : Poller κ) : OnlyTouches k p p :=
  ⟨fun _ _ _ h => h, fun _ _ _ _ h => h⟩

theorem OnlyTouches.trans {k : κ} {p q r : Poller κ} (h₁ : OnlyTouches k p q)
    (h₂ : OnlyTouches k q r) : OnlyTouches k p r :=
  ⟨fun fd y hy h => h₁.channels fd y hy (h₂.channels fd y hy h),
    fun fd y mask hy h => h₁.interest fd y mask hy (h₂.interest fd y mask hy h)⟩

theorem OnlyTouches.knows {k y : κ} {p p' : Poller κ} (h : OnlyTouches k p p') (hy : y ≠ k)
    (hk : p'.Knows y) : p.Knows y := by
  rcases hk with ⟨fd, hfd⟩ | ⟨fd, mask, hfd⟩
  · exact .inl ⟨fd, h.channels fd y hy hfd⟩
  · exact .inr ⟨fd, mask, h.interest fd y mask hy hfd⟩

variable {p p' : Poller κ} {k : κ} {ch ch' : Channel}

/-- A request that does not abort leaves the entry it asked for under the descriptor of the channel; a
deletion that found nothing to delete has done the same. -/
theorem update_eq {op : EpollOp} (h : p.update op k ch = some p') :
    p' = { p with
      interest := Function.update p.interest ch.fd
        (if op = .del then none else some (k, ch.events)) } := by
  unfold update epollCtl at h
  cases hfd : p.interest ch.fd with
  | none =>
      cases op with
      | add => simp_all
      | mod => simp [hfd] at h
      | del =>
          have hsame : Function.update p.interest ch.fd none = p.interest := by
            rw [← hfd, Function.update_eq_self]
          simp_all
  | some entry => cases op <;> simp_all

theorem updateChannel_cases (h : p.updateChannel k ch = some (p', ch')) :
    (ch.index ≠ .kAdded ∧ ch' = ch.setIndex .kAdded ∧
      p' =
        { channels :=
            if ch.index = .kNew then Function.update p.channels ch.fd (some k) else p.channels
          interest := Function.update p.interest ch.fd (some (k, ch.events)) }) ∨
    (ch.index = .kAdded ∧ ch.isNoneEvent = true ∧ ch' = ch.setIndex .kDeleted ∧
      p' = { p with interest := Function.update p.interest ch.fd none }) ∨
    (ch.index = .kAdded ∧ ch.isNoneEvent = false ∧ ch' = ch ∧
      p' = { p with interest := Function.update p.interest ch.fd (some (k, ch.events)) }) := by
  unfold updateChannel at h
  split at h
  · rename_i hindex
    obtain ⟨q, hq, heq⟩ := Option.map_eq_some_iff.1 h
    obtain ⟨rfl, rfl⟩ := Prod.mk.inj heq
    refine .inl ⟨by rcases hindex with hi | hi <;> simp [hi], rfl, ?_⟩
    rw [update_eq hq]
    split <;> rfl
  · rename_i hindex
    have hadded : ch.index = .kAdded := by
      cases hi : ch.index <;> simp_all
    split at h
    · rename_i hnone
      obtain ⟨q, hq, heq⟩ := Option.map_eq_some_iff.1 h
      obtain ⟨rfl, rfl⟩ := Prod.mk.inj heq
      exact .inr (.inl ⟨hadded, hnone, rfl, update_eq hq⟩)
    · rename_i hsome
      obtain ⟨q, hq, heq⟩ := Option.map_eq_some_iff.1 h
      obtain ⟨rfl, rfl⟩ := Prod.mk.inj heq
      exact .inr (.inr ⟨hadded, by simpa using hsome, rfl, update_eq hq⟩)

theorem removeChannel_cases (h : p.removeChannel k ch = some (p', ch')) :
    ch' = ch.setIndex .kNew ∧ p'.channels = Function.update p.channels ch.fd none ∧
      (ch.index = .kAdded ∧ p'.interest = Function.update p.interest ch.fd none ∨
        ch.index ≠ .kAdded ∧ p'.interest = p.interest) := by
  unfold removeChannel at h
  split at h
  · rename_i hindex
    obtain ⟨q, hq, heq⟩ := Option.map_eq_some_iff.1 h
    obtain ⟨rfl, rfl⟩ := Prod.mk.inj heq
    rw [update_eq hq]
    exact ⟨rfl, rfl, .inl ⟨hindex, rfl⟩⟩
  · rename_i hindex
    obtain ⟨rfl, rfl⟩ := Prod.mk.inj (Option.some.inj h)
    exact ⟨rfl, rfl, .inr ⟨hindex, rfl⟩⟩

/-- An entry that is there after `Function.update` is the new one or an old one elsewhere. -/
theorem of_update_eq_some {β : Type u} {f : Int → Option β} {a fd : Int} {v : Option β} {b : β}
    (h : Function.update f a v fd = some b) :
    (fd = a ∧ v = some b) ∨ (fd ≠ a ∧ f fd = some b) := by
  by_cases hfd : fd = a
  · subst hfd
    exact .inl ⟨rfl, by simpa using h⟩
  · exact .inr ⟨hfd, by simpa [hfd] using h⟩

/-- A change of the interest list under the descriptor of `k`. -/
theorem interest_update_spec (ht : p.Tracks k ch) (entry : Option EventMask)
    (index : PollIndex) {channels : Int → Option κ} (hchannels : channels = p.channels ∨
      channels = Function.update p.channels ch.fd (some k))
    (hindex : entry.isSome → index = .kAdded) :
    let q : Poller κ :=
      { channels := channels
        interest := Function.update p.interest ch.fd (entry.map (k, ·)) }
    q.Tracks k (ch.setIndex index) ∧ OnlyTouches k p q := by
  have hold : ∀ fd y, channels fd = some y → p.channels fd = some y ∨ (y = k ∧ fd = ch.fd) := by
    intro fd y hfd
    rcases hchannels with rfl | rfl
    · exact .inl hfd
    · rcases of_update_eq_some hfd with ⟨hfd', hy⟩ | ⟨-, hfd'⟩
      · exact .inr ⟨(Option.some.inj hy).symm, hfd'⟩
      · exact .inl hfd'
  refine ⟨⟨?_, ?_⟩, ⟨?_, ?_⟩⟩
  · intro fd hfd
    rcases hold fd k hfd with hfd' | ⟨-, hfd'⟩
    · exact ht.channels fd hfd'
    · exact hfd'
  · intro fd mask hfd
    rcases of_update_eq_some hfd with ⟨hfd', hentry⟩ | ⟨hne, hfd'⟩
    · exact ⟨hfd', hindex (by cases entry <;> simp_all)⟩
    · exact absurd (ht.interest fd mask hfd').1 hne
  · intro fd y hy hfd
    rcases hold fd y hfd with hfd' | ⟨rfl, -⟩
    · exact hfd'
    · exact absurd rfl hy
  · intro fd y mask hy hfd
    rcases of_update_eq_some hfd with ⟨-, hentry⟩ | ⟨-, hfd'⟩
    · cases entry with
      | none => simp at hentry
      | some m =>
          have : k = y ∧ m = mask := by simpa using hentry
          exact absurd this.1.symm hy
    · exact hfd'

theorem updateChannel_spec (ht : p.Tracks k ch) (h : p.updateChannel k ch = some (p', ch')) :
    p'.Tracks k ch' ∧ OnlyTouches k p p' ∧ ∃ index, ch' = ch.setIndex index := by
  rcases updateChannel_cases h with ⟨-, rfl, rfl⟩ | ⟨-, -, rfl, rfl⟩ | ⟨hadded, -, rfl, rfl⟩
  · have hchannels : ∀ channels : Int → Option κ,
        channels = (if ch.index = .kNew then Function.update p.channels ch.fd (some k)
          else p.channels) →
        channels = p.channels ∨ channels = Function.update p.channels ch.fd (some k) := by
      rintro channels rfl
      split <;> simp
    obtain ⟨h₁, h₂⟩ := interest_update_spec ht (some ch.events) .kAdded (hchannels _ rfl)
      (fun _ => rfl)
    exact ⟨h₁, h₂, _, rfl⟩
  · obtain ⟨h₁, h₂⟩ := interest_update_spec ht none .kDeleted (.inl rfl) (by simp)
    exact ⟨h₁, h₂, _, rfl⟩
  · obtain ⟨h₁, h₂⟩ := interest_update_spec ht (some ch'.events) ch'.index (.inl rfl)
      (fun _ => hadded)
    exact ⟨h₁, h₂, _, rfl⟩

/-- After `removeChannel` the poller does not know the channel any more. -/
theorem removeChannel_spec (ht : p.Tracks k ch) (h : p.removeChannel k ch = some (p', ch')) :
    ¬ p'.Knows k ∧ OnlyTouches k p p' ∧ ch' = ch.setIndex .kNew := by
  obtain ⟨rfl, hch, hint⟩ := removeChannel_cases h
  refine ⟨?_, ⟨?_, ?_⟩, rfl⟩
  · rintro (⟨fd, hfd⟩ | ⟨fd, mask, hfd⟩)
    · rw [hch] at hfd
      rcases of_update_eq_some hfd with ⟨-, hk⟩ | ⟨hne, hfd'⟩
      · simp at hk
      · exact hne (ht.channels fd hfd')
    · rcases hint with ⟨-, hdel⟩ | ⟨hindex, hsame⟩
      · rw [hdel] at hfd
        rcases of_update_eq_some hfd with ⟨-, hk⟩ | ⟨hne, hfd'⟩
        · simp at hk
        · exact hne (ht.interest fd mask hfd').1
      · rw [hsame] at hfd
        exact hindex (ht.interest fd mask hfd).2
  · intro fd y _ hfd
    rw [hch] at hfd
    rcases of_update_eq_some hfd with ⟨-, hk⟩ | ⟨-, hfd'⟩
    · simp at hk
    · exact hfd'
  · intro fd y mask _ hfd
    rcases hint with ⟨-, hdel⟩ | ⟨-, hsame⟩
    · rw [hdel] at hfd
      rcases of_update_eq_some hfd with ⟨-, hk⟩ | ⟨-, hfd'⟩
      · simp at hk
      · exact hfd'
    · rwa [hsame] at hfd

end Poller

end MyServer
end MyCppCode
