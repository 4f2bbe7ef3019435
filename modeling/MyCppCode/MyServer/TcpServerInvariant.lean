import MyCppCode.Foundation.TransitionSystem
import MyCppCode.MyServer.TcpServer

/-!
# TcpServerInvariant — who knows a connection, and who holds a pointer to it

A connection is *watched* while its channel is registered with epoll, present in the `m_channels` of a
poller, or listed in the `m_activeChannels` of an iteration that is being dispatched.  The pointers that
epoll and the poller keep are raw.  It is *referenced* while a `TcpConnectionPtr` to it is in
`m_connections` or bound in a functor of `TcpServer` that is queued or running.

The reference travels from the map to the functor of `removeConnectionInLoop` that erases the entry and
from there to the functor of `connectDestroyed`, which ends the watch.  `Inv` says where it is at each
moment, and `apply_keeps` what a change of the registration does to that.
-/

namespace MyCppCode
namespace MyServer
namespace TcpServer

open Foundation

def Watched (s : State) (x : Nat) : Prop :=
  ∃ l, (s.loops l).poller.Knows x ∨ x ∈ (s.loops l).active

/-- `m_connections` holds a pointer to `x`. -/
def InMap (s : State) (x : Nat) : Prop :=
  s.connections (s.conns x).name = some x

def Referenced (s : State) (x : Nat) : Prop :=
  (∃ name, s.connections name = some x) ∨
    ∃ l, (∃ f ∈ (s.loops l).pendingFunctors ++ (s.loops l).functors, f.conn = x) ∨
      ∃ task ∈ (s.loops l).stack, task.bound = some x

/-! ## Names are unique -/

theorem length_decimal_le {n k : Nat} (hk : 0 < k) (h : n < 10 ^ k) : (decimal n).length ≤ k :=
  (Nat.length_toDigits_le_iff (by decide) hk).2 h

theorem decimal_injective {m n : Nat} (h : decimal m = decimal n) : m = n := by
  unfold decimal at h
  rw [← Nat.ofDigitChars_ten_toDigits (n := m), h, Nat.ofDigitChars_ten_toDigits]

theorem length_toIpPort_le (addr : InetAddress) : addr.toIpPort.length ≤ 21 := by
  have hbyte : ∀ u : UInt8, (decimal u.toNat).length ≤ 3 := fun u =>
    length_decimal_le (by decide) (lt_of_lt_of_le u.toNat_lt (by decide))
  have hport : (decimal addr.port.toNat).length ≤ 5 :=
    length_decimal_le (by decide) (lt_of_lt_of_le addr.port.toNat_lt (by decide))
  have h₁ := hbyte addr.a
  have h₂ := hbyte addr.b
  have h₃ := hbyte addr.c
  have h₄ := hbyte addr.d
  simp only [InetAddress.toIpPort, List.length_append, List.length_cons]
  omega

/-- The number of a connection is not cut off by the buffer of `newConnection`. -/
theorem connName_eq (cfg : Config) {n : Nat} (h : n < 2 ^ 31) :
    connName cfg n = cfg.name ++ ('-' :: cfg.listenAddr.toIpPort ++ '#' :: decimal n) := by
  have hip := length_toIpPort_le cfg.listenAddr
  have hdec : (decimal n).length ≤ 10 := length_decimal_le (by decide) (by omega)
  rw [connName, formatInt_natCast, snprintf, List.take_of_length_le]
  simp only [List.cons_append, List.length_append, List.length_cons]
  omega

theorem connName_injective (cfg : Config) {m n : Nat} (hm : m < 2 ^ 31) (hn : n < 2 ^ 31)
    (h : connName cfg m = connName cfg n) : m = n := by
  rw [connName_eq cfg hm, connName_eq cfg hn] at h
  have hdec : decimal m = decimal n := by simpa using h
  exact decimal_injective hdec

/-! ## The invariant -/

def Tied (s : State) (x : Nat) : Prop :=
  (s.conns x).conn.channel.tied = true

/-- How often `connectEstablished` is still to be called for `x`, as far as this loop knows. -/
def Loop.establishing (lp : Loop) (x : Nat) : Nat :=
  lp.stack.count (.establish x) + lp.pendingFunctors.count (.connectEstablished x) +
    lp.todo.count (.connectEstablished x)

/-- The loop is going to call `connectDestroyed` for `x`, or to hand it to the loop that does. -/
def Loop.Destroying (lp : Loop) (x : Nat) : Prop :=
  .queueDestroyed x ∈ lp.stack ∨ .connectDestroyed x ∈ lp.pendingFunctors ∨
    .connectDestroyed x ∈ lp.todo

/-- The loop has a part of the tear-down of `x` before it. -/
def Loop.Removing (lp : Loop) (x : Nat) : Prop :=
  .removeConnectionInLoop x ∈ lp.stack ∨ .removeConnectionInLoop x ∈ lp.pendingFunctors ∨
    .removeConnectionInLoop x ∈ lp.todo ∨ lp.Destroying x

/-- What keeps `x` until its channel is removed. -/
def Kept (s : State) (x : Nat) : Prop :=
  InMap s x ∨ ∃ l, (s.loops l).Destroying x

/-- The part of the invariant about loop `l`, when it is in the state `lp`.  Of `s` only the connections
and the map matter. -/
structure LoopInv (s : State) (l : Nat) (lp : Loop) : Prop where
  knows : ∀ x, lp.poller.Knows x → l = (s.conns x).loop ∧ Tied s x
  active : ∀ x ∈ lp.active, l = (s.conns x).loop ∧ lp.phase = .dispatch ∧ Tied s x
  work : ∀ x ∈ lp.work, x ∈ lp.active
  callback : ∀ x cb, .callback x cb ∈ lp.stack → x ∈ lp.active
  close : ∀ x, .closeCallback x ∈ lp.stack → x ∈ lp.active
  called : ∀ f ∈ lp.todo, f ∈ lp.functors
  calling : lp.todo ≠ [] → lp.phase = .functors
  establishing : ∀ x, 0 < lp.establishing x → lp.establishing x = 1 ∧ InMap s x ∧ ¬ Tied s x
  removing : ∀ x, lp.Removing x → Tied s x
  destroys : ∀ x, .connectDestroyed x ∈ lp.pendingFunctors ∨ .connectDestroyed x ∈ lp.todo →
    l = (s.conns x).loop

/-- The invariant of the server, in which the connections in `lost` may be watched without being kept:
their tear-down is in hand. -/
structure InvWith (cfg : Config) (lost : Nat → Prop) (s : State) : Prop where
  accepted_lt : s.accepted < 2 ^ 31
  names : ∀ x, x < s.accepted → (s.conns x).name = connName cfg ((x + 1 : Nat) : Int)
  counter : s.accepted + 1 < 2 ^ 31 → s.nextConnId = ((s.accepted + 1 : Nat) : Int)
  mapped : ∀ name x, s.connections name = some x → x < s.accepted ∧ name = (s.conns x).name
  tied : ∀ x, Tied s x → x < s.accepted
  loops : ∀ l, LoopInv s l (s.loops l)
  tracks : ∀ x, (s.loops (s.conns x).loop).poller.Tracks x (s.conns x).conn.channel
  unique : ∀ l l' x, 0 < (s.loops l).establishing x → 0 < (s.loops l').establishing x → l = l'
  kept : ∀ x, Watched s x → lost x ∨ Kept s x

abbrev Inv (cfg : Config) (s : State) : Prop := InvWith cfg (fun _ => False) s

theorem inv_start (cfg : Config) : Inv cfg State.start where
  accepted_lt := by decide
  names := by simp [State.start]
  counter := by simp [State.start]
  mapped := by simp [State.start]
  tied := by simp [State.start, Tied, Conn.unused, Channel.new]
  loops := by
    intro l
    constructor <;>
      simp [State.start, Loop.init, Poller.Knows, Poller.empty, Loop.establishing, Loop.Removing,
        Loop.Destroying]
  tracks := by
    intro x
    constructor <;> simp [State.start, Loop.init, Poller.empty]
  unique := by simp [State.start, Loop.init, Loop.establishing]
  kept := by simp [State.start, Watched, Loop.init, Poller.Knows, Poller.empty]

variable {cfg : Config} {s : State}

/-- The invariant implies that a watched connection is referenced. -/
theorem Inv.referenced (h : Inv cfg s) {x : Nat} (hx : Watched s x) : Referenced s x := by
  rcases h.kept x hx with hfalse | hmap | ⟨l, hstack | hpending | htodo⟩
  · exact hfalse.elim
  · exact .inl ⟨_, hmap⟩
  · exact .inr ⟨l, .inr ⟨_, hstack, rfl⟩⟩
  · exact .inr ⟨l, .inl ⟨_, List.mem_append_left _ hpending, rfl⟩⟩
  · exact .inr ⟨l, .inl ⟨_, List.mem_append_right _ ((h.loops l).called _ htodo), rfl⟩⟩

theorem setLoop_loops_self (s : State) (l : Nat) (lp : Loop) : (s.setLoop l lp).loops l = lp := by
  simp [State.setLoop]

theorem setLoop_loops_ne (s : State) {l l' : Nat} (lp : Loop) (h : l' ≠ l) :
    (s.setLoop l lp).loops l' = s.loops l' := by
  simp [State.setLoop, h]

theorem LoopInv.transfer {s t : State} {l : Nat} {lp : Loop} (h : LoopInv s l lp)
    (hloop : ∀ x, Tied s x → (t.conns x).loop = (s.conns x).loop)
    (htied : ∀ x, Tied s x → Tied t x)
    (hest : ∀ x, 0 < lp.establishing x → InMap t x ∧ ¬ Tied t x) : LoopInv t l lp where
  knows := by
    intro x hx
    obtain ⟨h₁, h₂⟩ := h.knows x hx
    exact ⟨h₁.trans (hloop x h₂).symm, htied x h₂⟩
  active := by
    intro x hx
    obtain ⟨h₁, h₂, h₃⟩ := h.active x hx
    exact ⟨h₁.trans (hloop x h₃).symm, h₂, htied x h₃⟩
  work := h.work
  callback := h.callback
  close := h.close
  called := h.called
  calling := h.calling
  establishing := fun x hx => ⟨(h.establishing x hx).1, hest x hx⟩
  removing := fun x hx => htied x (h.removing x hx)
  destroys := by
    intro x hx
    have hrem : lp.Removing x := .inr (.inr (.inr (.inr hx)))
    exact (h.destroys x hx).trans (hloop x (h.removing x hrem)).symm

/-- The invariant of a loop is about the connections and the map, not about other loops. -/
theorem LoopInv.setLoop {l l' : Nat} {lp lp' : Loop} (h : LoopInv s l lp) :
    LoopInv (s.setLoop l' lp') l lp :=
  h.transfer (fun _ _ => rfl) (fun _ hx => hx) (fun x hx => (h.establishing x hx).2)

/-- A step that changes one loop, but no registration, no connection and not the map. -/
theorem setLoop_keeps {lost lost' : Nat → Prop} (h : InvWith cfg lost s) {l : Nat} {lp : Loop}
    (hlp : LoopInv s l lp) (hpoller : lp.poller = (s.loops l).poller)
    (hactive : ∀ x ∈ lp.active, x ∈ (s.loops l).active ∨ lp.poller.Knows x)
    (hest : ∀ x, 0 < lp.establishing x →
      0 < (s.loops l).establishing x ∨ ∀ l', (s.loops l').establishing x = 0)
    (hdestroying : ∀ x, (s.loops l).Destroying x → lp.Destroying x ∨ lost' x)
    (hlost : ∀ x, lost x → lost' x ∨ lp.Destroying x) :
    InvWith cfg lost' (s.setLoop l lp) where
  accepted_lt := h.accepted_lt
  names := h.names
  counter := h.counter
  mapped := h.mapped
  tied := h.tied
  loops := by
    intro l'
    by_cases hl : l' = l
    · subst hl
      rw [setLoop_loops_self]
      exact hlp.setLoop
    · rw [setLoop_loops_ne s lp hl]
      exact (h.loops l').setLoop
  tracks := by
    intro x
    by_cases hl : (s.conns x).loop = l
    · have htr := h.tracks x
      rw [hl, ← hpoller] at htr
      change ((s.setLoop l lp).loops (s.conns x).loop).poller.Tracks x _
      rw [hl, setLoop_loops_self]
      exact htr
    · change ((s.setLoop l lp).loops (s.conns x).loop).poller.Tracks x _
      rw [setLoop_loops_ne s lp hl]
      exact h.tracks x
  unique := by
    intro l₁ l₂ x h₁ h₂
    by_cases hl₁ : l₁ = l <;> by_cases hl₂ : l₂ = l
    · rw [hl₁, hl₂]
    · subst hl₁
      rw [setLoop_loops_self] at h₁
      rw [setLoop_loops_ne s lp hl₂] at h₂
      rcases hest x h₁ with hold | hnone
      · exact h.unique l₁ l₂ x hold h₂
      · exact absurd h₂ (by simp [hnone l₂])
    · subst hl₂
      rw [setLoop_loops_self] at h₂
      rw [setLoop_loops_ne s lp hl₁] at h₁
      rcases hest x h₂ with hold | hnone
      · exact h.unique l₁ l₂ x h₁ hold
      · exact absurd h₁ (by simp [hnone l₁])
    · rw [setLoop_loops_ne s lp hl₁] at h₁
      rw [setLoop_loops_ne s lp hl₂] at h₂
      exact h.unique l₁ l₂ x h₁ h₂
  kept := by
    intro x hx
    -- What is watched after the step was watched before, since no registration is new.
    have hwatched : Watched s x := by
      obtain ⟨l', hl'⟩ := hx
      by_cases hl : l' = l
      · subst hl
        rw [setLoop_loops_self] at hl'
        rcases hl' with hk | ha
        · exact ⟨l', .inl (hpoller ▸ hk)⟩
        · rcases hactive x ha with ha' | hk
          · exact ⟨l', .inr ha'⟩
          · exact ⟨l', .inl (hpoller ▸ hk)⟩
      · rw [setLoop_loops_ne s lp hl] at hl'
        exact ⟨l', hl'⟩
    have hmine : lp.Destroying x → Kept (s.setLoop l lp) x :=
      fun hd => .inr ⟨l, by rw [setLoop_loops_self]; exact hd⟩
    rcases h.kept x hwatched with hl | hmap | ⟨l', hd⟩
    · exact (hlost x hl).imp id hmine
    · exact .inr (.inl hmap)
    · by_cases hl : l' = l
      · subst hl
        exact (hdestroying x hd).symm.imp id hmine
      · exact .inr (.inr ⟨l', by rw [setLoop_loops_ne s lp hl]; exact hd⟩)

/-! ## Changes of the registration -/

theorem LoopInv.setPoller {l : Nat} {lp : Loop} {p : Poller Nat} (h : LoopInv s l lp)
    (hp : ∀ x, p.Knows x → lp.poller.Knows x ∨ (l = (s.conns x).loop ∧ Tied s x)) :
    LoopInv s l { lp with poller := p } where
  knows := fun x hx => (hp x hx).elim (h.knows x) id
  active := h.active
  work := h.work
  callback := h.callback
  close := h.close
  called := h.called
  calling := h.calling
  establishing := h.establishing
  removing := h.removing
  destroys := h.destroys

/-- What `apply` does: it changes the poller of the loop of `x` to `p`, and the fields of `x` other than
its name and its loop. -/
structure Applied (s : State) (x : Nat) (r : TcpConnection × List Effect) (p : Poller Nat)
    (t : State) : Prop where
  carried : ∃ c, carryOut (s.loops (s.conns x).loop).poller x (s.conns x).conn.channel r.2 =
    some (p, c)
  touches : Poller.OnlyTouches x (s.loops (s.conns x).loop).poller p
  tracks : p.Tracks x (t.conns x).conn.channel
  tied : (t.conns x).conn.channel.tied = r.1.channel.tied
  other : ∀ y, y ≠ x → t.conns y = s.conns y
  name : ∀ y, (t.conns y).name = (s.conns y).name
  loop : ∀ y, (t.conns y).loop = (s.conns y).loop
  home : t.loops (s.conns x).loop = { s.loops (s.conns x).loop with poller := p }
  elsewhere : ∀ l, l ≠ (s.conns x).loop → t.loops l = s.loops l
  connections : t.connections = s.connections
  nextConnId : t.nextConnId = s.nextConnId
  accepted : t.accepted = s.accepted

theorem apply_spec {x : Nat} {r : TcpConnection × List Effect} {t : State}
    (htr : (s.loops (s.conns x).loop).poller.Tracks x (s.conns x).conn.channel)
    (hfd : r.1.channel.fd = (s.conns x).conn.channel.fd) (h : s.apply x r = some t) :
    ∃ p, Applied s x r p t := by
  obtain ⟨⟨p, c⟩, hcarry, ht⟩ := Option.bind_eq_some_iff.1 h
  obtain ⟨htr', htouch, hfd'⟩ := carryOut_spec htr hcarry
  obtain rfl := Option.some.inj ht
  have hsame : ∀ y, y ≠ x → Function.update s.conns x
      { s.conns x with conn := { r.1 with channel := { r.1.channel with index := c.index } } } y =
        s.conns y := fun y hy => by simp [hy]
  refine ⟨p, ⟨c, hcarry⟩, htouch, ?_, by simp, hsame, ?_, ?_, by simp [State.setLoop],
    fun l hl => by simp [State.setLoop, hl], rfl, rfl, rfl⟩
  · refine tracks_congr htr' ?_ (by simp)
    simpa using hfd.trans hfd'.symm
  · intro y
    by_cases hy : y = x
    · subst hy
      simp
    · simp [hy]
  · intro y
    by_cases hy : y = x
    · subst hy
      simp
    · simp [hy]

namespace Applied

variable {x : Nat} {r : TcpConnection × List Effect} {p : Poller Nat} {t : State}

theorem tied_iff (ha : Applied s x r p t) {y : Nat} (hy : y ≠ x) : Tied t y ↔ Tied s y := by
  rw [Tied, Tied, ha.other y hy]

theorem inMap_iff (ha : Applied s x r p t) (y : Nat) : InMap t y ↔ InMap s y := by
  rw [InMap, InMap, ha.connections, ha.name]

/-- A handler leaves all but the pollers of the loops alone. -/
theorem loops_eq (ha : Applied s x r p t) (l : Nat) :
    t.loops l = { s.loops l with poller := (t.loops l).poller } := by
  by_cases hl : l = (s.conns x).loop
  · subst hl
    rw [ha.home]
  · rw [ha.elsewhere l hl]

theorem knows_imp (ha : Applied s x r p t) {l y : Nat} (hk : (t.loops l).poller.Knows y) :
    (s.loops l).poller.Knows y ∨ (y = x ∧ l = (s.conns x).loop) := by
  by_cases hl : l = (s.conns x).loop
  · subst hl
    rw [ha.home] at hk
    by_cases hy : y = x
    · exact .inr ⟨hy, rfl⟩
    · exact .inl (ha.touches.knows hy hk)
  · rw [ha.elsewhere l hl] at hk
    exact .inl hk

end Applied

/-- A handler of `x` on the poller of its loop.  Whatever it registers, `x` is kept. -/
theorem apply_keeps {lost : Nat → Prop} (h : InvWith cfg lost s) {x : Nat}
    {r : TcpConnection × List Effect} {p : Poller Nat} {t : State} (ha : Applied s x r p t)
    (hx : x < s.accepted) (htied : r.1.channel.tied = true)
    (hest : ∀ l, (s.loops l).establishing x = 0) (hlost : ∀ y, lost y → y = x)
    (hkept : Watched t x → Kept s x) : Inv cfg t := by
  have hTied : Tied t x := ha.tied.trans htied
  -- A handler queues nothing and takes nothing from the queues.
  have hestEq : ∀ l y, (t.loops l).establishing y = (s.loops l).establishing y := by
    intro l y
    rw [ha.loops_eq l]
    rfl
  have hkeptImp : ∀ y, Kept s y → Kept t y := by
    rintro y (hmap | ⟨l, hd⟩)
    · exact .inl ((ha.inMap_iff y).2 hmap)
    · refine .inr ⟨l, ?_⟩
      rw [ha.loops_eq l]
      exact hd
  exact
    { accepted_lt := ha.accepted ▸ h.accepted_lt
      names := by
        intro y hy
        rw [ha.accepted] at hy
        rw [ha.name y]
        exact h.names y hy
      counter := by
        rw [ha.accepted, ha.nextConnId]
        exact h.counter
      mapped := by
        intro name y hy
        rw [ha.connections] at hy
        rw [ha.accepted, ha.name y]
        exact h.mapped name y hy
      tied := by
        intro y hy
        rw [ha.accepted]
        by_cases hyx : y = x
        · exact hyx ▸ hx
        · exact h.tied y ((ha.tied_iff hyx).1 hy)
      loops := by
        intro l
        rw [ha.loops_eq l]
        refine LoopInv.setPoller ((h.loops l).transfer (fun y _ => ha.loop y) ?_ ?_) ?_
        · intro y hy
          by_cases hyx : y = x
          · exact hyx ▸ hTied
          · exact (ha.tied_iff hyx).2 hy
        -- A connection whose handler runs is not waiting for `connectEstablished`.
        · intro y hy
          have hyx : y ≠ x := by
            rintro rfl
            simp [hest l] at hy
          obtain ⟨-, hmap, hnot⟩ := (h.loops l).establishing y hy
          exact ⟨(ha.inMap_iff y).2 hmap, mt (ha.tied_iff hyx).1 hnot⟩
        · intro y hk
          refine (ha.knows_imp hk).imp id ?_
          rintro ⟨rfl, hl⟩
          exact ⟨hl.trans (ha.loop y).symm, hTied⟩
      tracks := by
        intro y
        rw [ha.loop y]
        by_cases hyx : y = x
        · subst hyx
          rw [ha.home]
          exact ha.tracks
        · rw [ha.other y hyx]
          by_cases hl : (s.conns y).loop = (s.conns x).loop
          · have htr := h.tracks y
            rw [hl] at htr ⊢
            rw [ha.home]
            exact ⟨fun fd hk => htr.channels fd (ha.touches.channels fd y hyx hk),
              fun fd mask hk => htr.interest fd mask (ha.touches.interest fd y mask hyx hk)⟩
          · rw [ha.elsewhere _ hl]
            exact h.tracks y
      unique := by
        intro l l' y h₁ h₂
        rw [hestEq] at h₁ h₂
        exact h.unique l l' y h₁ h₂
      kept := by
        intro y hy
        by_cases hyx : y = x
        · subst hyx
          exact .inr (hkeptImp y (hkept hy))
        · have hwatched : Watched s y := by
            obtain ⟨l, hk | hactive⟩ := hy
            · rcases ha.knows_imp hk with hk' | ⟨rfl, -⟩
              · exact ⟨l, .inl hk'⟩
              · exact absurd rfl hyx
            · rw [ha.loops_eq l] at hactive
              exact ⟨l, .inr hactive⟩
          rcases h.kept y hwatched with hl | hk
          · exact absurd (hlost y hl) hyx
          · exact .inr (hkeptImp y hk) }

end TcpServer
end MyServer
end MyCppCode
