import MyCppCode.MyServer.TcpServerInvariant

/-!
# TcpServerEvents — what the parts of an iteration keep

The queues and stacks of the loops, the poll with the events it reports, and the map of the server: each
changes one part of the state, and the invariant says what has to be known of the others.
-/

namespace MyCppCode
namespace MyServer
namespace TcpServer

open Foundation

variable {cfg : Config} {s : State}

/-! ## Scheduling -/

/-- A task may be put on the stack of a loop. -/
def Task.Ok (s : State) (lp : Loop) : Task → Prop
  | .establish _ => False
  | .callback x _ => x ∈ lp.active
  | .closeCallback x => x ∈ lp.active
  | .removeConnectionInLoop x => Tied s x
  | .queueDestroyed x => Tied s x

/-- A loop that has dealt with some of its tasks and functors, and has new tasks. -/
theorem LoopInv.proceed {l : Nat} {lp lp' : Loop} (h : LoopInv s l lp)
    (hpoller : lp'.poller = lp.poller) (hactive : lp'.active = lp.active)
    (hphase : lp'.phase = lp.phase) (hfunctors : lp'.functors = lp.functors)
    (hwork : ∀ x ∈ lp'.work, x ∈ lp.work)
    (hstack : ∀ t ∈ lp'.stack, t ∈ lp.stack ∨ t.Ok s lp)
    (hpending : ∀ f ∈ lp'.pendingFunctors, f ∈ lp.pendingFunctors)
    (htodo : ∀ f ∈ lp'.todo, f ∈ lp.todo)
    (hest : ∀ x, lp'.establishing x ≤ lp.establishing x) : LoopInv s l lp' where
  knows := hpoller ▸ h.knows
  active := by
    rw [hactive, hphase]
    exact h.active
  work := by
    intro x hx
    rw [hactive]
    exact h.work x (hwork x hx)
  callback := by
    intro x cb hx
    rw [hactive]
    exact (hstack _ hx).elim (h.callback x cb) id
  close := by
    intro x hx
    rw [hactive]
    exact (hstack _ hx).elim (h.close x) id
  called := by
    intro f hf
    rw [hfunctors]
    exact h.called f (htodo f hf)
  calling := by
    intro hne
    obtain ⟨f, hf⟩ := List.exists_mem_of_ne_nil _ hne
    rw [hphase]
    exact h.calling (List.ne_nil_of_mem (htodo f hf))
  establishing := by
    intro x hx
    have hle := hest x
    obtain ⟨hone, hrest⟩ := h.establishing x (by omega)
    exact ⟨by omega, hrest⟩
  removing := by
    rintro x (hx | hx | hx | hx | hx | hx)
    · exact (hstack _ hx).elim (fun hx' => h.removing x (.inl hx')) id
    · exact h.removing x (.inr (.inl (hpending _ hx)))
    · exact h.removing x (.inr (.inr (.inl (htodo _ hx))))
    · exact (hstack _ hx).elim (fun hx' => h.removing x (.inr (.inr (.inr (.inl hx'))))) id
    · exact h.removing x (.inr (.inr (.inr (.inr (.inl (hpending _ hx))))))
    · exact h.removing x (.inr (.inr (.inr (.inr (.inr (htodo _ hx))))))
  destroys := by
    intro x hx
    exact h.destroys x (hx.imp (hpending _) (htodo _))

/-- The top of the stack is replaced by new tasks. -/
theorem setStack_keeps {lost : Nat → Prop} (h : Inv cfg s) {l : Nat} {task : Task}
    {rest : List Task} (hst : (s.loops l).stack = task :: rest) (new : List Task)
    (hnew : ∀ t ∈ new, t.Ok s (s.loops l))
    (hlost : ∀ x, task = .queueDestroyed x → .queueDestroyed x ∈ new ∨ lost x) :
    InvWith cfg lost (s.setStack l (new ++ rest)) := by
  -- None of the new tasks is `establish`.
  have hest : ∀ x, ({ s.loops l with stack := new ++ rest } : Loop).establishing x ≤
      (s.loops l).establishing x := by
    intro x
    have hzero : new.count (.establish x) = 0 := by
      refine List.count_eq_zero.2 fun hmem => ?_
      exact hnew _ hmem
    simp only [Loop.establishing, hst, List.count_append, hzero, List.count_cons]
    omega
  have hmem : ∀ t ∈ new ++ rest, t ∈ (s.loops l).stack ∨ t.Ok s (s.loops l) := by
    intro t ht
    rcases List.mem_append.1 ht with ht | ht
    · exact .inr (hnew t ht)
    · exact .inl (by simp [hst, ht])
  have hlp : LoopInv s l { s.loops l with stack := new ++ rest } :=
    (h.loops l).proceed rfl rfl rfl rfl (fun _ hx => hx) hmem (fun _ hf => hf) (fun _ hf => hf) hest
  refine setLoop_keeps h hlp rfl (fun _ hx => .inl hx) (fun x hx => .inl ?_) ?_ (fun _ hf => hf.elim)
  · exact lt_of_lt_of_le hx (hest x)
  · rintro x (hx | hx | hx)
    · rw [hst] at hx
      rcases List.mem_cons.1 hx with htask | hx
      · exact (hlost x htask.symm).imp (fun hin => .inl (List.mem_append_left _ hin)) id
      · exact .inl (.inl (List.mem_append_right _ hx))
    · exact .inl (.inr (.inl hx))
    · exact .inl (.inr (.inr hx))

/-- A functor may be queued in loop `l`. -/
def Functor.Ok (s : State) (l : Nat) : Functor → Prop
  | .connectEstablished x => (∀ l', (s.loops l').establishing x = 0) ∧ InMap s x ∧ ¬ Tied s x
  | .removeConnectionInLoop x => Tied s x
  | .connectDestroyed x => Tied s x ∧ l = (s.conns x).loop

theorem queueInLoop_keeps {lost : Nat → Prop} (h : InvWith cfg lost s) {l : Nat} {f : Functor}
    (hf : f.Ok s l) (hlost : ∀ x, lost x → f = .connectDestroyed x) :
    Inv cfg (s.queueInLoop l f) := by
  have hl := h.loops l
  have hest : ∀ x, ({ s.loops l with
      pendingFunctors := (s.loops l).pendingFunctors ++ [f] } : Loop).establishing x =
        (s.loops l).establishing x + if f = .connectEstablished x then 1 else 0 := by
    intro x
    simp only [Loop.establishing, List.count_append, List.count_singleton, beq_iff_eq]
    omega
  have hpend : ∀ g, g ∈ (s.loops l).pendingFunctors ++ [f] →
      g ∈ (s.loops l).pendingFunctors ∨ g = f := by
    intro g hg
    simpa using hg
  have hlp : LoopInv s l
      { s.loops l with pendingFunctors := (s.loops l).pendingFunctors ++ [f] } :=
    { knows := hl.knows
      active := hl.active
      work := hl.work
      callback := hl.callback
      close := hl.close
      called := hl.called
      calling := hl.calling
      establishing := by
        intro x hx
        rw [hest] at hx ⊢
        by_cases hfx : f = .connectEstablished x
        · subst hfx
          obtain ⟨hzero, hrest⟩ := hf
          exact ⟨by simp [hzero], hrest⟩
        · simp only [if_neg hfx, Nat.add_zero] at hx ⊢
          exact hl.establishing x hx
      removing := by
        rintro x (hx | hx | hx | hx | hx | hx)
        · exact hl.removing x (.inl hx)
        · rcases hpend _ hx with hx | rfl
          · exact hl.removing x (.inr (.inl hx))
          · exact hf
        · exact hl.removing x (.inr (.inr (.inl hx)))
        · exact hl.removing x (.inr (.inr (.inr (.inl hx))))
        · rcases hpend _ hx with hx | rfl
          · exact hl.removing x (.inr (.inr (.inr (.inr (.inl hx)))))
          · exact hf.1
        · exact hl.removing x (.inr (.inr (.inr (.inr (.inr hx)))))
      destroys := by
        rintro x (hx | hx)
        · rcases hpend _ hx with hx | rfl
          · exact hl.destroys x (.inl hx)
          · exact hf.2
        · exact hl.destroys x (.inr hx) }
  refine setLoop_keeps h hlp rfl (fun _ hx => .inl hx) ?_ ?_ ?_
  · intro x hx
    rw [hest] at hx
    by_cases hfx : f = .connectEstablished x
    · subst hfx
      exact .inr hf.1
    · exact .inl (by simpa [hfx] using hx)
  · rintro x (hx | hx | hx)
    · exact .inl (.inl hx)
    · exact .inl (.inr (.inl (List.mem_append_left _ hx)))
    · exact .inl (.inr (.inr hx))
  · intro x hx
    refine .inr (.inr (.inl ?_))
    rw [hlost x hx]
    simp

/-- The functor at the head of the vector is called; what it does on the stack is given by `new`. -/
theorem takeFunctor_keeps {lost : Nat → Prop} (h : Inv cfg s) {l : Nat} {f : Functor}
    {rest : List Functor} {new : List Task} (htodo : (s.loops l).todo = f :: rest)
    (hst : (s.loops l).stack = []) (hnew : ∀ t ∈ new, t.Ok s (s.loops l))
    (hlost : ∀ x, f = .connectDestroyed x → lost x) :
    InvWith cfg lost (s.setLoop l { s.loops l with todo := rest, stack := new }) := by
  have hest : ∀ x, ({ s.loops l with todo := rest, stack := new } : Loop).establishing x ≤
      (s.loops l).establishing x := by
    intro x
    have hzero : new.count (.establish x) = 0 :=
      List.count_eq_zero.2 fun hmem => hnew _ hmem
    simp only [Loop.establishing, htodo, hzero, List.count_cons]
    omega
  have hlp : LoopInv s l { s.loops l with todo := rest, stack := new } :=
    (h.loops l).proceed rfl rfl rfl rfl (fun _ hx => hx) (fun t ht => .inr (hnew t ht))
      (fun _ hf => hf) (fun g hg => by simp [htodo, hg]) hest
  refine setLoop_keeps h hlp rfl (fun _ hx => .inl hx) (fun x hx => .inl ?_) ?_ (fun _ hf => hf.elim)
  · exact lt_of_lt_of_le hx (hest x)
  · rintro x (hx | hx | hx)
    · simp [hst] at hx
    · exact .inl (.inr (.inl hx))
    · rw [htodo] at hx
      rcases List.mem_cons.1 hx with hf | hx
      · exact .inr (hlost x hf.symm)
      · exact .inl (.inr (.inr hx))

theorem handleEvent_keeps (h : Inv cfg s) {l x : Nat} {rest : List Nat} {new : List Task}
    (hst : (s.loops l).stack = []) (hwork : (s.loops l).work = x :: rest)
    (hnew : ∀ t ∈ new, ∃ cb, t = .callback x cb) :
    Inv cfg (s.setLoop l { s.loops l with work := rest, stack := new }) := by
  have hx : x ∈ (s.loops l).active := (h.loops l).work x (by simp [hwork])
  have hok : ∀ t ∈ new, t.Ok s (s.loops l) := by
    intro t ht
    obtain ⟨cb, rfl⟩ := hnew t ht
    exact hx
  have hest : ∀ y, ({ s.loops l with work := rest, stack := new } : Loop).establishing y ≤
      (s.loops l).establishing y := by
    intro y
    have hzero : new.count (.establish y) = 0 :=
      List.count_eq_zero.2 fun hmem => hok _ hmem
    simp only [Loop.establishing, hst, hzero, List.count_nil]
    exact le_refl _
  have hlp : LoopInv s l { s.loops l with work := rest, stack := new } :=
    (h.loops l).proceed rfl rfl rfl rfl (fun y hy => by simp [hwork, hy])
      (fun t ht => .inr (hok t ht)) (fun _ hf => hf) (fun _ hf => hf) hest
  refine setLoop_keeps h hlp rfl (fun _ hy => .inl hy) (fun y hy => .inl ?_) ?_ (fun _ hf => hf.elim)
  · exact lt_of_lt_of_le hy (hest y)
  · rintro y (hy | hy | hy)
    · simp [hst] at hy
    · exact .inl (.inr (.inl hy))
    · exact .inl (.inr (.inr hy))

theorem LoopInv.todo_eq_nil {l : Nat} {lp : Loop} (h : LoopInv s l lp) (hphase : lp.phase ≠ .functors) :
    lp.todo = [] := by
  by_contra hne
  exact hphase (h.calling hne)

/-- The swap of `doPendingFunctors`; the iteration is not being dispatched any more. -/
theorem doPendingFunctors_keeps (h : Inv cfg s) {l : Nat} (hphase : (s.loops l).phase = .dispatch)
    (hst : (s.loops l).stack = []) (hwork : (s.loops l).work = []) :
    Inv cfg (s.setLoop l
      { s.loops l with
        phase := .functors
        active := []
        pendingFunctors := []
        functors := (s.loops l).pendingFunctors
        todo := (s.loops l).pendingFunctors }) := by
  have hl := h.loops l
  -- The loop is dispatching, so no functor is left from the last swap.
  have htodo := hl.todo_eq_nil (by simp [hphase])
  have hest : ∀ x, ({ s.loops l with
      phase := .functors
      active := []
      pendingFunctors := []
      functors := (s.loops l).pendingFunctors
      todo := (s.loops l).pendingFunctors } : Loop).establishing x = (s.loops l).establishing x := by
    intro x
    simp [Loop.establishing, htodo]
  refine setLoop_keeps h
    { knows := hl.knows
      active := by simp
      work := by simp [hwork]
      callback := by simp [hst]
      close := by simp [hst]
      called := fun _ hf => hf
      calling := fun _ => rfl
      establishing := ?_
      removing := ?_
      destroys := ?_ } rfl (by simp) ?_ ?_ (fun _ hf => hf.elim)
  · intro x hx
    rw [hest] at hx ⊢
    exact hl.establishing x hx
  · rintro x (hx | hx | hx | hx | hx | hx)
    · exact hl.removing x (.inl hx)
    · simp at hx
    · exact hl.removing x (.inr (.inl hx))
    · exact hl.removing x (.inr (.inr (.inr (.inl hx))))
    · simp at hx
    · exact hl.removing x (.inr (.inr (.inr (.inr (.inl hx)))))
  · rintro x (hx | hx)
    · simp at hx
    · exact hl.destroys x (.inl hx)
  · intro x hx
    rw [hest] at hx
    exact .inl hx
  · rintro x (hx | hx | hx)
    · exact .inl (.inl hx)
    · exact .inl (.inr (.inr hx))
    · simp [htodo] at hx

/-- The vector of `doPendingFunctors` is destroyed after its last functor has been called. -/
theorem endFunctors_keeps (h : Inv cfg s) {l : Nat} (hphase : (s.loops l).phase = .functors)
    (htodo : (s.loops l).todo = []) :
    Inv cfg (s.setLoop l { s.loops l with phase := .poll, functors := [] }) := by
  have hl := h.loops l
  -- While functors run, no channel is listed as active.
  have hactive : (s.loops l).active = [] := by
    rw [List.eq_nil_iff_forall_not_mem]
    intro x hx
    have := (hl.active x hx).2.1
    simp [hphase] at this
  refine setLoop_keeps h
    { knows := hl.knows
      active := by simp [hactive]
      work := hl.work
      callback := hl.callback
      close := hl.close
      called := by simp [htodo]
      calling := by simp [htodo]
      establishing := hl.establishing
      removing := hl.removing
      destroys := hl.destroys } rfl (fun _ hx => .inl hx) (fun _ hx => .inl hx) (fun _ hx => .inl hx)
    (fun _ hf => hf.elim)

/-! ## Polling -/

/-- The connections change in what the invariant does not see. -/
theorem conns_keeps (h : Inv cfg s) {conns : Nat → Conn}
    (hname : ∀ x, (conns x).name = (s.conns x).name)
    (hloop : ∀ x, (conns x).loop = (s.conns x).loop)
    (hfd : ∀ x, (conns x).conn.channel.fd = (s.conns x).conn.channel.fd)
    (hindex : ∀ x, (conns x).conn.channel.index = (s.conns x).conn.channel.index)
    (htied : ∀ x, (conns x).conn.channel.tied = (s.conns x).conn.channel.tied) :
    Inv cfg { s with conns := conns } where
  accepted_lt := h.accepted_lt
  names := fun x hx => (hname x).trans (h.names x hx)
  counter := h.counter
  mapped := by
    intro name x hx
    obtain ⟨h₁, h₂⟩ := h.mapped name x hx
    exact ⟨h₁, h₂.trans (hname x).symm⟩
  tied := fun x hx => h.tied x ((htied x).symm.trans hx)
  loops := by
    intro l
    refine (h.loops l).transfer (fun x _ => hloop x) (fun x hx => (htied x).trans hx) ?_
    intro x hx
    obtain ⟨-, hmap, hnot⟩ := (h.loops l).establishing x hx
    refine ⟨?_, fun ht => hnot ((htied x).symm.trans ht)⟩
    change s.connections (conns x).name = some x
    rw [hname x]
    exact hmap
  tracks := by
    intro x
    change ((s.loops (conns x).loop).poller).Tracks x (conns x).conn.channel
    rw [hloop x]
    exact tracks_congr (h.tracks x) (hfd x) (hindex x)
  unique := h.unique
  kept := by
    intro x hx
    rcases h.kept x hx with hfalse | hmap | hd
    · exact hfalse.elim
    · refine .inr (.inl ?_)
      change s.connections (conns x).name = some x
      rw [hname x]
      exact hmap
    · exact .inr (.inr hd)

theorem knows_of_registered {l x : Nat} (h : s.registered l x = true) :
    (s.loops l).poller.Knows x := by
  unfold State.registered at h
  split at h
  · rename_i y mask hy
    obtain rfl : y = x := by simpa using h
    exact .inr ⟨_, mask, hy⟩
  · cases h

theorem poll_keeps (h : Inv cfg s) {l : Nat} {reported : List (Nat × EventMask)}
    (hphase : (s.loops l).phase = .poll)
    (hreg : ∀ r ∈ reported, s.registered l r.1 = true) :
    Inv cfg { s.setLoop l
        { s.loops l with
          phase := .dispatch
          active := reported.map (·.1)
          work := reported.map (·.1) } with
      conns := setRevents s.conns reported } := by
  have hsame : ∀ x, (setRevents s.conns reported x).name = (s.conns x).name ∧
      (setRevents s.conns reported x).loop = (s.conns x).loop ∧
      (setRevents s.conns reported x).conn.channel.fd = (s.conns x).conn.channel.fd ∧
      (setRevents s.conns reported x).conn.channel.index = (s.conns x).conn.channel.index ∧
      (setRevents s.conns reported x).conn.channel.tied = (s.conns x).conn.channel.tied := by
    intro x
    unfold setRevents
    split <;> exact ⟨rfl, rfl, rfl, rfl, rfl⟩
  have h' : Inv cfg { s with conns := setRevents s.conns reported } :=
    conns_keeps h (fun x => (hsame x).1) (fun x => (hsame x).2.1) (fun x => (hsame x).2.2.1)
      (fun x => (hsame x).2.2.2.1) (fun x => (hsame x).2.2.2.2)
  have hl := h'.loops l
  have htodo : (s.loops l).todo = [] := hl.todo_eq_nil (by simp [hphase])
  have hknows : ∀ x ∈ reported.map (·.1), (s.loops l).poller.Knows x := by
    intro x hx
    obtain ⟨r, hr, rfl⟩ := List.mem_map.1 hx
    exact knows_of_registered (hreg r hr)
  -- Before the poll nothing is active, so no callback of the last result is left.
  have hidle : ∀ x, x ∉ (s.loops l).active := by
    intro x hx
    have := (hl.active x hx).2.1
    simp [hphase] at this
  refine setLoop_keeps h'
    { knows := hl.knows
      active := ?_
      work := fun _ hx => hx
      callback := fun x cb hx => absurd (hl.callback x cb hx) (hidle x)
      close := fun x hx => absurd (hl.close x hx) (hidle x)
      called := hl.called
      calling := by simp [htodo]
      establishing := hl.establishing
      removing := hl.removing
      destroys := hl.destroys } rfl (fun x hx => .inr (hknows x hx)) (fun _ hx => .inl hx)
    (fun _ hx => .inl hx) (fun _ hf => hf.elim)
  intro x hx
  obtain ⟨h₁, h₂⟩ := hl.knows x (hknows x hx)
  exact ⟨h₁, rfl, h₂⟩

/-! ## Accepting and erasing -/

theorem name_ne (h : Inv cfg s) {x y : Nat} (hx : x < s.accepted) (hy : y < s.accepted)
    (hne : y ≠ x) : (s.conns y).name ≠ (s.conns x).name := by
  intro heq
  have hlt := h.accepted_lt
  rw [h.names y hy, h.names x hx] at heq
  have := connName_injective cfg (by omega) (by omega) heq
  omega

/-- Nothing in the server refers to a connection that has not been accepted. -/
theorem fresh (h : Inv cfg s) {x : Nat} (hx : s.accepted ≤ x) (l : Nat) :
    ¬ (s.loops l).poller.Knows x ∧ x ∉ (s.loops l).active ∧ (s.loops l).establishing x = 0 ∧
      ¬ (s.loops l).Removing x := by
  have hnot : ¬ Tied s x := fun ht => absurd (h.tied x ht) (by omega)
  refine ⟨fun hk => hnot ((h.loops l).knows x hk).2, fun ha => hnot ((h.loops l).active x ha).2.2, ?_,
    fun hr => hnot ((h.loops l).removing x hr)⟩
  by_contra hest
  have hmap := ((h.loops l).establishing x (by omega)).2.1
  exact absurd (h.mapped _ x hmap).1 (by omega)

/-- The connection is entered into the map; its `connectEstablished` is not on its way yet. -/
def enroll (cfg : Config) (s : State) (c : TcpConnection) : State :=
  { newConnection cfg s c with loops := s.loops }

theorem enroll_conns_ne (s : State) (c : TcpConnection) {y : Nat} (hy : y ≠ s.accepted) :
    (enroll cfg s c).conns y = s.conns y := by
  simp [enroll, newConnection, hy]

theorem enroll_keeps (h : Inv cfg s) {c : TcpConnection} (hc : c.channel.tied = false)
    (hlt : s.accepted + 1 < 2 ^ 31) :
    Inv cfg (enroll cfg s c) ∧ InMap (enroll cfg s c) s.accepted ∧ ¬ Tied (enroll cfg s c) s.accepted := by
  have hname : ((enroll cfg s c).conns s.accepted).name =
      connName cfg ((s.accepted + 1 : Nat) : Int) := by
    simp [enroll, newConnection, h.counter hlt]
  have hnot : ¬ Tied (enroll cfg s c) s.accepted := by
    simp [Tied, enroll, newConnection, hc]
  have hmapNew : InMap (enroll cfg s c) s.accepted := by
    simp [InMap, enroll, newConnection]
  have hne : ∀ y, y < s.accepted → y ≠ s.accepted := fun y hy => by omega
  -- The name of an older connection is not the one that the map has been updated at.
  have hmap : ∀ y, InMap s y → InMap (enroll cfg s c) y := by
    intro y hy
    have hyl := (h.mapped _ y hy).1
    have hdiff : (s.conns y).name ≠ connName cfg s.nextConnId := by
      rw [h.names y hyl, h.counter hlt]
      intro heq
      have := connName_injective cfg (by omega) hlt heq
      omega
    change Function.update s.connections (connName cfg s.nextConnId) (some s.accepted)
      ((enroll cfg s c).conns y).name = some y
    rw [enroll_conns_ne s c (hne y hyl), Function.update_of_ne hdiff]
    exact hy
  have htied : ∀ y, Tied (enroll cfg s c) y ↔ Tied s y := by
    intro y
    by_cases hy : y = s.accepted
    · subst hy
      exact iff_of_false hnot (fun ht => absurd (h.tied _ ht) (lt_irrefl _))
    · rw [Tied, Tied, enroll_conns_ne s c hy]
  have hinv : Inv cfg (enroll cfg s c) :=
    { accepted_lt := hlt
      names := by
        intro y hy
        by_cases hya : y = s.accepted
        · subst hya
          exact hname
        · rw [enroll_conns_ne s c hya]
          exact h.names y (lt_of_le_of_ne (Nat.le_of_lt_succ hy) hya)
      counter := by
        intro hlt'
        have hlt'' : s.accepted + 1 + 1 < 2 ^ 31 := hlt'
        change (s.nextConnId + 1).bmod (2 ^ 32) = ((s.accepted + 1 + 1 : Nat) : Int)
        rw [h.counter hlt, Int.bmod_def]
        omega
      mapped := by
        intro name y hy
        by_cases hn : name = connName cfg s.nextConnId
        · subst hn
          obtain rfl : s.accepted = y := by simpa [enroll, newConnection] using hy
          exact ⟨Nat.lt_succ_self _, by simp [enroll, newConnection]⟩
        · obtain ⟨h₁, h₂⟩ := h.mapped name y (by simpa [enroll, newConnection, hn] using hy)
          rw [enroll_conns_ne s c (hne y h₁)]
          exact ⟨Nat.lt_succ_of_lt h₁, h₂⟩
      tied := fun y hy => Nat.lt_succ_of_lt (h.tied y ((htied y).1 hy))
      loops := by
        intro l
        refine (h.loops l).transfer ?_ (fun y hy => (htied y).2 hy) ?_
        · intro y hy
          rw [enroll_conns_ne s c (hne y (h.tied y hy))]
        · intro y hy
          obtain ⟨-, hin, hno⟩ := (h.loops l).establishing y hy
          exact ⟨hmap y hin, mt (htied y).1 hno⟩
      tracks := by
        intro y
        by_cases hy : y = s.accepted
        · subst hy
          exact tracks_of_not_knows (fresh h (le_refl _) _).1 _
        · rw [enroll_conns_ne s c hy]
          exact h.tracks y
      unique := h.unique
      kept := by
        intro y hy
        rcases h.kept y hy with hfalse | hin | hd
        · exact hfalse.elim
        · exact .inr (.inl (hmap y hin))
        · exact .inr (.inr hd) }
  exact ⟨hinv, hmapNew, hnot⟩

theorem newConnection_keeps (h : Inv cfg s) {c : TcpConnection} (hc : c.channel.tied = false)
    (hst : (s.loops 0).stack = []) (hlt : s.accepted + 1 < 2 ^ 31) :
    Inv cfg (newConnection cfg s c) := by
  obtain ⟨h', hmap, hnot⟩ := enroll_keeps h hc hlt
  have hzero : ∀ l, (s.loops l).establishing s.accepted = 0 :=
    fun l => (fresh h (le_refl _) l).2.2.1
  have hl := h'.loops 0
  have hest : ∀ x, ({ s.loops 0 with stack := [.establish s.accepted] } : Loop).establishing x =
      (s.loops 0).establishing x + if s.accepted = x then 1 else 0 := by
    intro x
    simp only [Loop.establishing, hst, List.count_nil, List.count_singleton, beq_iff_eq,
      Task.establish.injEq]
    omega
  refine setLoop_keeps (s := enroll cfg s c) h'
    { knows := hl.knows
      active := hl.active
      work := hl.work
      callback := by simp
      close := by simp
      called := hl.called
      calling := hl.calling
      establishing := ?_
      removing := ?_
      destroys := hl.destroys } rfl (fun _ hx => .inl hx) ?_ ?_ (fun _ hf => hf.elim)
  · intro x hx
    rw [hest] at hx ⊢
    by_cases hxa : s.accepted = x
    · subst hxa
      exact ⟨by simp [hzero], hmap, hnot⟩
    · simp only [if_neg hxa, Nat.add_zero] at hx ⊢
      exact hl.establishing x hx
  · rintro x (hx | hx | hx | hx | hx | hx)
    · simp at hx
    · exact hl.removing x (.inr (.inl hx))
    · exact hl.removing x (.inr (.inr (.inl hx)))
    · simp at hx
    · exact hl.removing x (.inr (.inr (.inr (.inr (.inl hx)))))
    · exact hl.removing x (.inr (.inr (.inr (.inr (.inr hx)))))
  · intro x hx
    rw [hest] at hx
    by_cases hxa : s.accepted = x
    · subst hxa
      exact .inr hzero
    · rw [if_neg hxa, Nat.add_zero] at hx
      exact .inl hx
  · rintro x (hx | hx | hx)
    · have hx' : Task.queueDestroyed x ∈ (s.loops 0).stack := hx
      simp [hst] at hx'
    · exact .inl (.inr (.inl hx))
    · exact .inl (.inr (.inr hx))

theorem erase_keeps (h : Inv cfg s) {l x : Nat} {rest : List Task}
    (hst : (s.loops l).stack = .removeConnectionInLoop x :: rest) :
    Inv cfg { s.setStack l (.queueDestroyed x :: rest) with
      connections := Function.update s.connections (s.conns x).name none } := by
  -- Only a connection that was established is removed.
  have htied : Tied s x := (h.loops l).removing x (.inl (by simp [hst]))
  have hx := h.tied x htied
  have h' : Inv cfg (s.setStack l ([.queueDestroyed x] ++ rest)) :=
    setStack_keeps h hst _ (by simpa [Task.Ok] using htied) (by simp)
  -- Names are distinct, so the entry that is erased is that of `x` and no other.
  have hmap : ∀ y, y ≠ x → InMap s y →
      Function.update s.connections (s.conns x).name none (s.conns y).name = some y := by
    intro y hyx hy
    have hlt := (h.mapped _ y hy).1
    rw [Function.update_of_ne (name_ne h hx hlt hyx)]
    exact hy
  exact
    { accepted_lt := h'.accepted_lt
      names := h'.names
      counter := h'.counter
      mapped := by
        intro name y hy
        by_cases hn : name = (s.conns x).name
        · subst hn
          simp at hy
        · exact h.mapped name y (by simpa [hn] using hy)
      tied := h'.tied
      loops := by
        intro l'
        refine (h'.loops l').transfer (fun _ _ => rfl) (fun _ hy => hy) ?_
        intro y hy
        obtain ⟨-, hin, hnot⟩ := (h'.loops l').establishing y hy
        have hyx : y ≠ x := by
          rintro rfl
          exact hnot htied
        exact ⟨hmap y hyx hin, hnot⟩
      tracks := h'.tracks
      unique := h'.unique
      kept := by
        intro y hy
        by_cases hyx : y = x
        · subst hyx
          refine .inr (.inr ⟨l, .inl ?_⟩)
          change _ ∈ ((s.setStack l _).loops l).stack
          rw [State.setStack, setLoop_loops_self]
          simp
        · rcases h'.kept y hy with hfalse | hin | hd
          · exact hfalse.elim
          · exact .inr (.inl (hmap y hyx hin))
          · exact .inr (.inr hd) }

end TcpServer
end MyServer
end MyCppCode
