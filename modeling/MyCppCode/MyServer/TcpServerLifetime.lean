import MyCppCode.MyServer.TcpServerEvents

/-!
# TcpServerLifetime — a watched connection is referenced

In every run, with or without io loops, a connection that epoll, a poller or an iteration still knows has
a `TcpConnectionPtr` in `m_connections` or in a functor that is queued or running.
-/

namespace MyCppCode
namespace MyServer
namespace TcpServer

open Foundation

variable {cfg : Config} {s : State}

/-! ## Steps and runs -/

/-- There is one call of `connectEstablished` for `x`; the loop that has taken it in hand leaves none. -/
theorem establishing_eq_zero (h : Inv cfg s) {l x : Nat} {lp : Loop}
    (htaken : lp.establishing x + 1 = (s.loops l).establishing x) (l' : Nat) :
    ((s.setLoop l lp).loops l').establishing x = 0 := by
  have hpos : 0 < (s.loops l).establishing x := by omega
  by_cases hl : l' = l
  · subst hl
    rw [setLoop_loops_self]
    have hone := ((h.loops l').establishing x hpos).1
    omega
  · rw [setLoop_loops_ne s lp hl]
    by_contra hother
    exact hl (h.unique l' l x (by omega) hpos)

/-- `connectEstablished` for `x`, once nothing else is going to call it. -/
theorem established_keeps (h : Inv cfg s) {x : Nat} {calls : List UserCall} {t : State}
    (hmap : InMap s x) (hest : ∀ l, (s.loops l).establishing x = 0)
    {r : TcpConnection × List Effect} (hr : runEstablished (s.conns x).conn calls = .ok r)
    (happly : s.apply x r = some t) : Inv cfg t := by
  obtain ⟨hfd, htied⟩ := runEstablished_channel hr
  obtain ⟨p, ha⟩ := apply_spec (h.tracks x) hfd happly
  exact apply_keeps h ha (h.mapped _ x hmap).1 htied hest (fun _ hf => hf.elim)
    (fun _ => .inl hmap)

/-- A callback of the channel of `x` while `x` is listed as active. -/
theorem callback_keeps (h : Inv cfg s) {l x : Nat} {input : Input} {cb : Channel.Callback} {t : State}
    (hactive : x ∈ (s.loops l).active) {r : TcpConnection × List Effect}
    (hr : runCallback (s.conns x).conn input cb = .ok r) (happly : s.apply x r = some t) :
    Inv cfg t := by
  have htied := ((h.loops l).active x hactive).2.2
  have hsame := sameChannel_runCallback hr
  obtain ⟨p, ha⟩ := apply_spec (h.tracks x) hsame.1 happly
  refine apply_keeps h ha (h.tied x htied) (hsame.2.trans htied) ?_ (fun _ hf => hf.elim) ?_
  -- A connection that was established is not established again.
  · intro l'
    by_contra hpos
    exact ((h.loops l').establishing x (by omega)).2.2 htied
  · intro _
    exact (h.kept x ⟨l, .inr hactive⟩).resolve_left id

/-- `connectDestroyed` for `x` on the thread of its loop, which is not dispatching. -/
theorem destroyed_keeps {x : Nat} (h : InvWith cfg (· = x) s) {t : State} (htied : Tied s x)
    (hidle : (s.loops (s.conns x).loop).phase ≠ .dispatch)
    (happly : s.apply x (s.conns x).conn.connectDestroyed = some t) : Inv cfg t := by
  obtain ⟨hsame, pre, hpre⟩ := connectDestroyed_spec (s.conns x).conn
  obtain ⟨p, ha⟩ := apply_spec (h.tracks x) hsame.1 happly
  refine apply_keeps h ha (h.tied x htied) (hsame.2.trans htied) ?_ (fun _ hy => hy) ?_
  · intro l'
    by_contra hpos
    exact ((h.loops l').establishing x (by omega)).2.2 htied
  · rintro ⟨l, hk | hactive⟩
    · rcases ha.knows_imp hk with hk' | ⟨-, rfl⟩
      · obtain ⟨rfl, -⟩ := (h.loops l).knows x hk'
        rw [ha.home] at hk
        obtain ⟨c, hcarried⟩ := ha.carried
        rw [hpre] at hcarried
        exact absurd hk (carryOut_removeChannel (h.tracks x) hcarried)
      · rw [ha.home] at hk
        obtain ⟨c, hcarried⟩ := ha.carried
        rw [hpre] at hcarried
        exact absurd hk (carryOut_removeChannel (h.tracks x) hcarried)
    · rw [ha.loops_eq l] at hactive
      obtain ⟨rfl, hdispatch, -⟩ := (h.loops l).active x hactive
      exact absurd hdispatch hidle

theorem step_keeps (h : Inv cfg s) {e : Event} {t : State} (hstep : step cfg s e = some t) :
    Inv cfg t := by
  cases e with
  | newConnection fd =>
      simp only [step, Option.ite_none_right_eq_some, Option.bind_eq_bind,
        Option.bind_eq_some_iff] at hstep
      obtain ⟨⟨-, hst, hlt⟩, c, hc, ht⟩ := hstep
      obtain rfl := Option.some.inj ht
      refine newConnection_keeps h ?_ hst hlt
      obtain ⟨b, -, hb⟩ := bind_eq_ok (toOption_eq_some hc)
      obtain ⟨b', -, hb'⟩ := bind_eq_ok hb
      cases hb'
      rfl
  | establish l calls =>
      simp only [step] at hstep
      split at hstep
      · rename_i x rest hst
        have hpos : 0 < (s.loops l).establishing x := by
          simp [Loop.establishing, hst]
        obtain ⟨hone, hmap, hnot⟩ := (h.loops l).establishing x hpos
        have h' : Inv cfg (s.setStack l rest) :=
          setStack_keeps h hst [] (by simp) (by simp)
        have hzero : ∀ l', ((s.setStack l rest).loops l').establishing x = 0 := by
          refine establishing_eq_zero h ?_
          simp only [Loop.establishing, hst, List.count_cons_self]
          omega
        split at hstep
        · obtain ⟨r, hr, happly⟩ := Option.bind_eq_some_iff.1 hstep
          exact established_keeps h' hmap hzero (toOption_eq_some hr) happly
        · obtain rfl := Option.some.inj hstep
          exact queueInLoop_keeps h' ⟨hzero, hmap, hnot⟩ (fun _ hf => hf.elim)
      · cases hstep
  | poll l reported =>
      simp only [step, Option.ite_none_right_eq_some, Option.some.injEq] at hstep
      obtain ⟨⟨hphase, hreg⟩, rfl⟩ := hstep
      exact poll_keeps h hphase hreg
  | handleEvent l locked =>
      simp only [step] at hstep
      split at hstep
      · rename_i x rest hst hwork
        obtain rfl := Option.some.inj hstep
        refine handleEvent_keeps h hst hwork ?_
        intro task htask
        split at htask
        · simp at htask
        · obtain ⟨cb, -, rfl⟩ := List.mem_map.1 htask
          exact ⟨cb, rfl⟩
      · cases hstep
  | callback l input =>
      simp only [step] at hstep
      split at hstep
      · rename_i x cb rest hst
        obtain ⟨r, hr, happly⟩ := Option.bind_eq_some_iff.1 hstep
        have hactive : x ∈ (s.loops l).active := (h.loops l).callback x cb (by simp [hst])
        have h' : Inv cfg (s.setStack l
            ((if .closeCallback ∈ r.2 then [Task.closeCallback x] else []) ++ rest)) := by
          refine setStack_keeps h hst _ ?_ (by simp)
          intro task htask
          split at htask
          · obtain rfl := List.mem_singleton.1 htask
            exact hactive
          · simp at htask
        refine callback_keeps (l := l) h' ?_ (toOption_eq_some hr) happly
        rw [State.setStack, setLoop_loops_self]
        exact hactive
      · cases hstep
  | closeCallback l =>
      simp only [step] at hstep
      split at hstep
      · rename_i x rest hst
        have hactive : x ∈ (s.loops l).active := (h.loops l).close x (by simp [hst])
        have htied := ((h.loops l).active x hactive).2.2
        split at hstep
        · obtain rfl := Option.some.inj hstep
          exact setStack_keeps h hst [.removeConnectionInLoop x]
            (by simpa [Task.Ok] using htied) (by simp)
        · obtain rfl := Option.some.inj hstep
          have h' : Inv cfg (s.setStack l rest) :=
            setStack_keeps h hst [] (by simp) (by simp)
          exact queueInLoop_keeps h' htied (fun _ hf => hf.elim)
      · cases hstep
  | removeConnectionInLoop l =>
      simp only [step] at hstep
      split at hstep
      · rename_i x rest hst
        obtain rfl := Option.some.inj hstep
        exact erase_keeps h hst
      · cases hstep
  | queueDestroyed l =>
      simp only [step] at hstep
      split at hstep
      · rename_i x rest hst
        obtain rfl := Option.some.inj hstep
        have htied : Tied s x :=
          (h.loops l).removing x (.inr (.inr (.inr (.inl (by simp [hst])))))
        have h' : InvWith cfg (· = x) (s.setStack l rest) :=
          setStack_keeps h hst [] (by simp) (by simp)
        refine queueInLoop_keeps h' ⟨htied, rfl⟩ ?_
        rintro y rfl
        rfl
      · cases hstep
  | doPendingFunctors l =>
      simp only [step, Option.ite_none_right_eq_some, Option.some.injEq] at hstep
      obtain ⟨⟨hphase, hst, hwork⟩, rfl⟩ := hstep
      exact doPendingFunctors_keeps h hphase hst hwork
  | runFunctor l calls =>
      simp only [step, Option.ite_none_right_eq_some] at hstep
      obtain ⟨⟨hphase, hst⟩, hstep⟩ := hstep
      split at hstep
      · rename_i x rest htodo
        obtain ⟨r, hr, happly⟩ := Option.bind_eq_some_iff.1 hstep
        have hpos : 0 < (s.loops l).establishing x := by
          simp [Loop.establishing, htodo]
        have hmap := ((h.loops l).establishing x hpos).2.1
        have h' : Inv cfg (s.setLoop l { s.loops l with todo := rest, stack := [] }) :=
          takeFunctor_keeps h htodo hst (by simp) (by simp)
        rw [← hst] at h'
        refine established_keeps h' hmap (establishing_eq_zero h ?_) (toOption_eq_some hr) happly
        simp only [Loop.establishing, htodo, List.count_cons_self]
        omega
      · rename_i x rest htodo
        obtain rfl := Option.some.inj hstep
        have htied : Tied s x :=
          (h.loops l).removing x (.inr (.inr (.inl (by simp [htodo]))))
        exact takeFunctor_keeps h htodo hst (by simpa [Task.Ok] using htied) (by simp)
      · rename_i x rest htodo
        have hmem : Functor.connectDestroyed x ∈ (s.loops l).todo := by simp [htodo]
        have htied : Tied s x := (h.loops l).removing x (.inr (.inr (.inr (.inr (.inr hmem)))))
        have h' : InvWith cfg (· = x) (s.setLoop l { s.loops l with todo := rest, stack := [] }) :=
          takeFunctor_keeps h htodo hst (by simp) (by simp)
        rw [← hst] at h'
        refine destroyed_keeps h' htied ?_ hstep
        obtain rfl := (h.loops l).destroys x (.inr hmem)
        change ((s.setLoop (s.conns x).loop _).loops (s.conns x).loop).phase ≠ .dispatch
        rw [setLoop_loops_self]
        simp [hphase]
      · cases hstep
  | endFunctors l =>
      simp only [step, Option.ite_none_right_eq_some, Option.some.injEq] at hstep
      obtain ⟨⟨hphase, -, htodo⟩, rfl⟩ := hstep
      exact endFunctors_keeps h hphase htodo

/-- In every run of the server, with or without io loops and whatever the interleaving, a connection
that is watched is referenced. -/
theorem watched_referenced {es : List Event} (hrun : Run (step cfg) State.start es s) {x : Nat}
    (hx : Watched s x) : Referenced s x := by
  have h : Inv cfg s := hrun.invariant (fun _ _ _ h hstep => step_keeps h hstep) (inv_start cfg)
  exact h.referenced hx

/-- One io loop, and a peer that hangs up: `removeConnectionInLoop` has erased the map's entry on the main
thread while the io loop still knows the channel and lists it as active. -/
theorem watched_referenced_erased :
    ∃ s : State, Run (step { name := ['s'], listenAddr := ⟨127, 0, 0, 1, 80⟩, numThreads := 1 })
        State.start
        [.poll 0 [], .newConnection 5, .establish 0 [], .poll 1 [], .doPendingFunctors 1,
          .runFunctor 1 [], .endFunctors 1, .poll 1 [(0, EPOLLHUP)], .handleEvent 1 true,
          .callback 1 ⟨.error 0, .failed 0, []⟩, .closeCallback 1, .doPendingFunctors 0,
          .runFunctor 0 [], .removeConnectionInLoop 0] s ∧
      s.connections (s.conns 0).name = none ∧ Watched s 0 ∧ Referenced s 0 := by
  obtain ⟨s, hexec, hmap, hactive⟩ : ∃ s, exec
      (step { name := ['s'], listenAddr := ⟨127, 0, 0, 1, 80⟩, numThreads := 1 }) State.start
      [.poll 0 [], .newConnection 5, .establish 0 [], .poll 1 [], .doPendingFunctors 1,
        .runFunctor 1 [], .endFunctors 1, .poll 1 [(0, EPOLLHUP)], .handleEvent 1 true,
        .callback 1 ⟨.error 0, .failed 0, []⟩, .closeCallback 1, .doPendingFunctors 0,
        .runFunctor 0 [], .removeConnectionInLoop 0] = some s ∧
      s.connections (s.conns 0).name = none ∧ (s.loops 1).active = [0] := ⟨_, rfl, rfl, rfl⟩
  have hwatched : Watched s 0 := ⟨1, .inr (by simp [hactive])⟩
  exact ⟨s, run_of_exec hexec, hmap, hwatched, watched_referenced (run_of_exec hexec) hwatched⟩

end TcpServer
end MyServer
end MyCppCode
