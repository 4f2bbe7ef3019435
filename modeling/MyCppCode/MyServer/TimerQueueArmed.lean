import MyCppCode.MyServer.TimerQueue

/-!
# TimerQueueArmed — when the timerfd is armed for the earliest timer

`addTimerInLoop` arms the timerfd when the new timer is the earliest one, and `reset` arms it after
each timer that has run.  If `handleRead` finds no timer expired, `reset` has nothing to loop over and
arms nothing: that is the only way to lose the timerfd.
-/

namespace MyCppCode
namespace MyServer
namespace TimerQueue

open Foundation

variable {s t : State}

/-! ## Inserting an entry -/

theorem entryLt_of_fst_lt {a b : Entry} (h : a.1 < b.1) : entryLt a b := Or.inl h

theorem eq_of_not_entryLt {a b : Entry} (h₁ : ¬ entryLt a b) (h₂ : ¬ entryLt b a) : a = b := by
  unfold entryLt at h₁ h₂
  obtain ⟨a₁, a₂⟩ := a
  obtain ⟨b₁, b₂⟩ := b
  simp only [Prod.mk.injEq] at *
  omega

/-- Inserting a new element only adds it. -/
theorem insertEntry_perm {e : Entry} : ∀ {l : List Entry}, e ∉ l → (insertEntry e l).Perm (e :: l)
  | [], _ => List.Perm.refl _
  | x :: xs, hmem => by
      have hne : e ≠ x := fun h => hmem (by simp [h])
      have hxs : e ∉ xs := fun h => hmem (by simp [h])
      unfold insertEntry
      split
      · exact List.Perm.refl _
      · split
        · exact (List.Perm.cons x (insertEntry_perm hxs)).trans (List.Perm.swap e x xs)
        · rename_i h₁ h₂
          exact absurd (eq_of_not_entryLt h₁ h₂) hne

/-- The expiration of the first timer. -/
def firstExpiration (l : List Entry) : Option Int :=
  l.head?.map Prod.fst

theorem firstExpiration_insertEntry_of_lt {e : Entry} {l : List Entry}
    (h : ∀ x ∈ l.head?, e.1 < x.1) : firstExpiration (insertEntry e l) = some e.1 := by
  cases l with
  | nil => rfl
  | cons x xs =>
      have hlt : entryLt e x := entryLt_of_fst_lt (h x rfl)
      simp [insertEntry, hlt, firstExpiration]

/-- An entry that is not earlier than the first leaves the first expiration alone, even when it comes
before the first in the order of the addresses. -/
theorem firstExpiration_insertEntry_of_not_lt {e x : Entry} {xs : List Entry}
    (h : ¬ e.1 < x.1) : firstExpiration (insertEntry e (x :: xs)) = some x.1 := by
  unfold insertEntry
  split
  · rename_i hlt
    have heq : e.1 = x.1 := by
      unfold entryLt at hlt
      omega
    simp [firstExpiration, heq]
  · split <;> simp [firstExpiration]

/-! ## Invariants -/

/-- Every entry is keyed by the expiration of its timer; the timers are alive and distinct. -/
structure Inv (s : State) : Prop where
  keyed : ∀ e ∈ s.timers, (s.heap e.2).expiration = e.1
  live : ∀ e ∈ s.timers, e.2 ∈ s.live
  nodup : (s.timers.map Prod.snd).Nodup
  addr : ∀ p ∈ s.live, p < uintptrMax

/-- The extracted entries are alive, distinct, and out of the set. -/
structure Detached (s : State) (expired : List Entry) : Prop where
  nodup : (expired.map Prod.snd).Nodup
  live : ∀ e ∈ expired, e.2 ∈ s.live
  out : ∀ e ∈ expired, e.2 ∉ s.timers.map Prod.snd

/-- The timerfd is armed with the time to the earliest expiration, as measured by some call of
`now()` in the past. -/
def Armed (s : State) : Prop :=
  ∀ w, firstExpiration s.timers = some w →
    ∃ k, k < s.ticks ∧ s.timerfd = some (timespecFor w (s.clock k))

theorem resetTimerfd_armed {w : Int} (h : firstExpiration s.timers = some w) :
    Armed (resetTimerfd s w) := by
  intro w' hw'
  have heq : w = w' := by
    have := h.symm.trans hw'
    simpa using this
  subst heq
  exact ⟨s.ticks, Nat.lt_succ_self _, rfl⟩

theorem Inv.resetTimerfd (h : Inv s) (w : Int) : Inv (resetTimerfd s w) :=
  ⟨h.keyed, h.live, h.nodup, h.addr⟩

/-- A timer of the heap that is alive and not in the set may be inserted. -/
theorem Inv.insert (h : Inv s) {p : Ptr} (hlive : p ∈ s.live) (hout : p ∉ s.timers.map Prod.snd) :
    Inv (insert s p).2 ∧
      ∀ e, e ∈ (TimerQueue.insert s p).2.timers ↔
        e = ((s.heap p).expiration, p) ∨ e ∈ s.timers := by
  -- An entry of the set would put the timer into it.
  have hnotin : ((s.heap p).expiration, p) ∉ s.timers := fun hin =>
    hout (List.mem_map.2 ⟨_, hin, rfl⟩)
  have hperm := insertEntry_perm hnotin
  have hmem : ∀ e, e ∈ insertEntry ((s.heap p).expiration, p) s.timers ↔
      e = ((s.heap p).expiration, p) ∨ e ∈ s.timers := by
    intro e
    rw [hperm.mem_iff, List.mem_cons]
  refine ⟨⟨?_, ?_, ?_, h.addr⟩, hmem⟩
  · intro e he
    rcases (hmem e).1 he with rfl | he
    · rfl
    · exact h.keyed e he
  · intro e he
    rcases (hmem e).1 he with rfl | he
    · exact hlive
    · exact h.live e he
  · have hcons : (((s.heap p).expiration, p) :: s.timers).map Prod.snd = p :: s.timers.map Prod.snd :=
      rfl
    exact ((hperm.map Prod.snd).nodup_iff).2 (hcons ▸ List.nodup_cons.2 ⟨hout, h.nodup⟩)

/-! ## `addTimer` -/

/-- The state in which `addTimerInLoop` is called: the timer exists and is not in the set yet. -/
theorem Inv.newTimer (h : Inv s) {p : Ptr} (hfresh : p ∉ s.live) (haddr : p < uintptrMax)
    (timer : Timer) (n : Nat) :
    let s' : State :=
      { s with heap := Function.update s.heap p timer, live := p :: s.live, created := n }
    Inv s' ∧ p ∉ s'.timers.map Prod.snd := by
  have hout : p ∉ s.timers.map Prod.snd := by
    intro hin
    obtain ⟨e, he, rfl⟩ := List.mem_map.1 hin
    exact hfresh (h.live e he)
  refine ⟨⟨?_, ?_, h.nodup, ?_⟩, hout⟩
  · intro e he
    have hne : e.2 ≠ p := fun heq => hout (List.mem_map.2 ⟨e, he, heq⟩)
    simpa [Function.update_of_ne hne] using h.keyed e he
  · intro e he
    exact List.mem_cons_of_mem _ (h.live e he)
  · intro q hq
    rcases List.mem_cons.1 hq with rfl | hq
    · exact haddr
    · exact h.addr q hq

theorem addTimerInLoop_inv (h : Inv s) {p : Ptr} (hlive : p ∈ s.live)
    (hout : p ∉ s.timers.map Prod.snd) :
    Inv (addTimerInLoop s p) ∧ (addTimerInLoop s p).live = s.live ∧
      (∀ e ∈ (addTimerInLoop s p).timers, e.2 = p ∨ e ∈ s.timers) ∧
      (Armed s → Armed (addTimerInLoop s p)) := by
  obtain ⟨hinv, hmem⟩ := h.insert hlive hout
  have hmem' : ∀ e ∈ (TimerQueue.insert s p).2.timers, e.2 = p ∨ e ∈ s.timers := by
    intro e he
    rcases (hmem e).1 he with rfl | he
    · exact Or.inl rfl
    · exact Or.inr he
  -- `insert` says whether the new timer is the earliest one, and the timerfd is set only then.
  cases hb : (TimerQueue.insert s p).1 with
  | true =>
      have heq : addTimerInLoop s p =
          TimerQueue.resetTimerfd (TimerQueue.insert s p).2 (s.heap p).expiration := by
        simp only [addTimerInLoop]
        split
        · rename_i s' hs'
          have hs : s' = (TimerQueue.insert s p).2 := by rw [hs']
          rw [hs]
          rfl
        · rename_i s' hs'
          simp [hs'] at hb
      -- The flag was computed by comparing with the first entry before the insertion.
      have hfirst : firstExpiration (TimerQueue.insert s p).2.timers = some (s.heap p).expiration := by
        apply firstExpiration_insertEntry_of_lt (e := ((s.heap p).expiration, p))
        intro x hx
        cases hl : s.timers with
        | nil => simp [hl] at hx
        | cons y ys =>
            have hxy : y = x := by simpa [hl] using hx
            subst hxy
            simpa [TimerQueue.insert, hl] using hb
      rw [heq]
      exact ⟨hinv.resetTimerfd _, rfl, hmem', fun _ => resetTimerfd_armed hfirst⟩
  | false =>
      have heq : addTimerInLoop s p = (TimerQueue.insert s p).2 := by
        simp only [addTimerInLoop]
        split
        · rename_i s' hs'
          simp [hs'] at hb
        · rename_i s' hs'
          rw [hs']
      rw [heq]
      -- The first entry is what it was, and so is the timerfd.
      refine ⟨hinv, rfl, hmem', fun harmed w hw => ?_⟩
      cases hl : s.timers with
      | nil => simp [TimerQueue.insert, hl] at hb
      | cons y ys =>
          have hnlt : ¬ (s.heap p).expiration < y.1 := by simpa [TimerQueue.insert, hl] using hb
          have hfirst : firstExpiration (TimerQueue.insert s p).2.timers = some y.1 := by
            simp only [TimerQueue.insert, hl]
            exact firstExpiration_insertEntry_of_not_lt hnlt
          apply harmed w
          rw [← hw, hfirst, hl]
          rfl

theorem addTimer_inv (h : Inv s) {r : AddRequest} (hadd : addTimer s r = some t) :
    Inv t ∧ (∀ xs, Detached s xs → Detached t xs) ∧ (Armed s → Armed t) := by
  simp only [addTimer, Option.ite_none_right_eq_some, Option.some.injEq] at hadd
  obtain ⟨⟨hfresh, haddr⟩, rfl⟩ := hadd
  obtain ⟨hinv', hout'⟩ := h.newTimer hfresh haddr
    { expiration := r.when, interval := r.interval, repeats := r.repeats, serial := s.created }
    (s.created + 1)
  obtain ⟨hinv, hlive, hmem, harmed⟩ := addTimerInLoop_inv hinv' List.mem_cons_self hout'
  refine ⟨hinv, fun xs hxs => ⟨hxs.nodup, ?_, ?_⟩, harmed⟩
  · intro e he
    rw [hlive]
    exact List.mem_cons_of_mem _ (hxs.live e he)
  · intro e he hin
    obtain ⟨e', he', heq⟩ := List.mem_map.1 hin
    rcases hmem e' he' with hp | hold
    · exact hfresh (hp ▸ heq ▸ hxs.live e he)
    · exact hxs.out e he (List.mem_map.2 ⟨e', hold, heq⟩)

theorem addTimers_inv : ∀ {s t : State} {rs : List AddRequest}, Inv s → addTimers s rs = some t →
    Inv t ∧ ∀ xs, Detached s xs → Detached t xs
  | s, t, [], h, hadd => by
      cases hadd
      exact ⟨h, fun _ hxs => hxs⟩
  | s, t, r :: rs, h, hadd => by
      simp only [addTimers, Option.bind_eq_bind, Option.bind_eq_some_iff] at hadd
      obtain ⟨u, hu, hrest⟩ := hadd
      obtain ⟨hinv, hdet, -⟩ := addTimer_inv h hu
      obtain ⟨hinv', hdet'⟩ := addTimers_inv hinv hrest
      exact ⟨hinv', fun xs hxs => hdet' xs (hdet xs hxs)⟩

/-! ## `handleRead` -/

theorem runCallbacks_inv {callback : Ptr → List AddRequest} :
    ∀ {s t : State} {its : List Entry}, Inv s → runCallbacks callback s its = some t →
      Inv t ∧ ∀ xs, Detached s xs → Detached t xs
  | s, t, [], h, hrun => by
      cases hrun
      exact ⟨h, fun _ hxs => hxs⟩
  | s, t, it :: rest, h, hrun => by
      simp only [runCallbacks, Option.bind_eq_bind, Option.bind_eq_some_iff] at hrun
      obtain ⟨u, hu, hrest⟩ := hrun
      -- Recording that the callback was called touches nothing that the invariant is about.
      have hran : Inv { s with ran := s.ran ++ [((s.heap it.2).serial, (s.heap it.2).expiration)] } :=
        ⟨h.keyed, h.live, h.nodup, h.addr⟩
      obtain ⟨hinv, hdet⟩ := addTimers_inv hran hu
      obtain ⟨hinv', hdet'⟩ := runCallbacks_inv hinv hrest
      exact ⟨hinv', fun xs hxs => hdet' xs (hdet xs ⟨hxs.nodup, hxs.live, hxs.out⟩)⟩

/-- `getExpired` splits the set; both parts stay alive and distinct. -/
theorem getExpired_inv (h : Inv s) (now : Int) :
    Inv (getExpired s now).2 ∧ Detached (getExpired s now).2 (getExpired s now).1 := by
  have hsplit : (getExpired s now).1 ++ (getExpired s now).2.timers = s.timers :=
    List.takeWhile_append_dropWhile
  have hnodup := h.nodup
  rw [← hsplit, List.map_append, List.nodup_append] at hnodup
  obtain ⟨hn₁, hn₂, hdisj⟩ := hnodup
  have hmem₁ : ∀ e ∈ (getExpired s now).1, e ∈ s.timers := fun e he => by
    rw [← hsplit]
    exact List.mem_append_left _ he
  have hmem₂ : ∀ e ∈ (getExpired s now).2.timers, e ∈ s.timers := fun e he => by
    rw [← hsplit]
    exact List.mem_append_right _ he
  refine ⟨⟨fun e he => h.keyed e (hmem₂ e he), fun e he => h.live e (hmem₂ e he), hn₂, h.addr⟩,
    ⟨hn₁, fun e he => h.live e (hmem₁ e he), fun e he hin => ?_⟩⟩
  exact hdisj e.2 (List.mem_map.2 ⟨e, he, rfl⟩) e.2 hin rfl

/-- The first half of the body of `reset`: the timer is back in the set, or gone. -/
def putBack (s : State) (it : Entry) : State :=
  if (s.heap it.2).repeats then
    (TimerQueue.insert (restart (now s).2 it.2 (now s).1) it.2).2
  else
    { s with live := s.live.erase it.2 }

theorem putBack_inv (h : Inv s) {it : Entry} {xs : List Entry} (hdet : Detached s (it :: xs)) :
    Inv (putBack s it) ∧ Detached (putBack s it) xs := by
  have hlive := hdet.live it List.mem_cons_self
  have hout := hdet.out it List.mem_cons_self
  obtain ⟨hnotin, hnodup⟩ := List.nodup_cons.1 hdet.nodup
  -- The timers that are out of the set are distinct from each other and from those in it.
  have hxs : ∀ e ∈ xs, e.2 ≠ it.2 := fun e he heq => hnotin (List.mem_map.2 ⟨e, he, heq⟩)
  have htimers : ∀ e ∈ s.timers, e.2 ≠ it.2 := fun e he heq => hout (List.mem_map.2 ⟨e, he, heq⟩)
  unfold putBack
  split
  · have hrestart : Inv (restart (now s).2 it.2 (now s).1) := by
      refine ⟨fun e he => ?_, h.live, h.nodup, h.addr⟩
      simpa [restart, Function.update_of_ne (htimers e he), now] using h.keyed e he
    obtain ⟨hinv, hmem⟩ := hrestart.insert hlive hout
    refine ⟨hinv, ⟨hnodup, fun e he => hdet.live e (List.mem_cons_of_mem _ he), fun e he hin => ?_⟩⟩
    obtain ⟨e', he', heq⟩ := List.mem_map.1 hin
    rcases (hmem e').1 he' with rfl | hold
    · exact hxs e he heq.symm
    · exact hdet.out e (List.mem_cons_of_mem _ he) (List.mem_map.2 ⟨e', hold, heq⟩)
  · refine ⟨⟨h.keyed, fun e he => ?_, h.nodup, fun p hp => h.addr p (List.mem_of_mem_erase hp)⟩,
      ⟨hnodup, fun e he => ?_, fun e he => hdet.out e (List.mem_cons_of_mem _ he)⟩⟩
    · exact (List.mem_erase_of_ne (htimers e he)).2 (h.live e he)
    · exact (List.mem_erase_of_ne (hxs e he)).2 (hdet.live e (List.mem_cons_of_mem _ he))

theorem resetOne_eq (s : State) (it : Entry) :
    resetOne s it =
      match (putBack s it).timers with
      | [] => putBack s it
      | first :: _ => resetTimerfd (putBack s it) ((putBack s it).heap first.2).expiration := rfl

/-- After the body of `reset`, the timerfd is armed for the first timer. -/
theorem resetOne_inv (h : Inv s) {it : Entry} {xs : List Entry} (hdet : Detached s (it :: xs)) :
    Inv (resetOne s it) ∧ Detached (resetOne s it) xs ∧ Armed (resetOne s it) := by
  obtain ⟨hinv, hdet'⟩ := putBack_inv h hdet
  rw [resetOne_eq]
  cases hl : (putBack s it).timers with
  | nil =>
      refine ⟨hinv, hdet', fun w hw => ?_⟩
      simp [hl, firstExpiration] at hw
  | cons first rest =>
      have hkey := hinv.keyed first (by simp [hl])
      have hfirst : firstExpiration (putBack s it).timers =
          some ((putBack s it).heap first.2).expiration := by
        simp [hl, firstExpiration, hkey]
      exact ⟨hinv.resetTimerfd _, ⟨hdet'.nodup, hdet'.live, hdet'.out⟩, resetTimerfd_armed hfirst⟩

theorem reset_inv {xs : List Entry} (h : Inv s) (hdet : Detached s xs) :
    Inv (reset s xs) ∧ (Armed s ∨ xs ≠ [] → Armed (reset s xs)) := by
  induction xs generalizing s with
  | nil =>
      refine ⟨h, fun harmed => ?_⟩
      rcases harmed with harmed | hne
      · exact harmed
      · exact absurd rfl hne
  | cons it xs ih =>
      obtain ⟨hinv, hdet', harmed⟩ := resetOne_inv h hdet
      obtain ⟨hinv', harmed'⟩ := ih hinv hdet'
      exact ⟨hinv', fun _ => harmed' (Or.inl harmed)⟩

/-- `handleRead` is entered with an expired timerfd only if the earliest timer, if any, is due. -/
def FindsExpired (s : State) : Event → Prop
  | .addTimer _ => True
  | .handleRead fired _ =>
      fired = true → ∀ w, firstExpiration s.timers = some w → w ≤ s.clock s.ticks

/-- The part of `handleRead` before the callbacks. -/
def extract (s : State) (fired : Bool) : List Entry × State :=
  getExpired (readTimerFd (now s).2 fired) (now s).1

theorem handleRead_eq_some {fired : Bool} {callback : Ptr → List AddRequest} :
    handleRead s fired callback = some t ↔
      ∃ u, runCallbacks callback (extract s fired).2 (extract s fired).1 = some u ∧
        reset u (extract s fired).1 = t := by
  simp [handleRead, extract, Option.bind_eq_some_iff]

theorem extract_timers (s : State) (fired : Bool) :
    (extract s fired).1 =
        s.timers.takeWhile (fun e => decide (entryLt e (s.clock s.ticks, uintptrMax))) ∧
      (extract s fired).2.timers =
        s.timers.dropWhile (fun e => decide (entryLt e (s.clock s.ticks, uintptrMax))) := by
  cases fired <;> exact ⟨rfl, rfl⟩

/-- Nothing is extracted exactly when the earliest timer is not due. -/
theorem extract_eq_nil_iff (h : Inv s) (fired : Bool) :
    (extract s fired).1 = [] ↔ ∀ w, firstExpiration s.timers = some w → s.clock s.ticks < w := by
  rw [(extract_timers s fired).1]
  cases hl : s.timers with
  | nil => simp [firstExpiration]
  | cons x xs =>
      -- The sentry carries the largest address, so an entry with the same time is below it.
      have haddr : x.2 < uintptrMax := h.addr _ (h.live x (by simp [hl]))
      have hlt : entryLt x (s.clock s.ticks, uintptrMax) ↔ ¬ s.clock s.ticks < x.1 := by
        unfold entryLt
        simp only
        omega
      simp [firstExpiration, List.takeWhile_cons, hlt]

theorem extract_inv (h : Inv s) (fired : Bool) :
    Inv (extract s fired).2 ∧ Detached (extract s fired).2 (extract s fired).1 := by
  apply getExpired_inv
  cases fired <;> exact ⟨h.keyed, h.live, h.nodup, h.addr⟩

/-- When nothing is extracted, `handleRead` reads the clock and the timerfd and does nothing else. -/
theorem handleRead_of_extract_nil {fired : Bool} {callback : Ptr → List AddRequest}
    (hnil : (extract s fired).1 = []) (hread : handleRead s fired callback = some t) :
    t.timers = s.timers ∧ t.clock = s.clock ∧ t.ticks = s.ticks + 1 ∧
      t.timerfd = if fired then none else s.timerfd := by
  obtain ⟨u, hu, rfl⟩ := handleRead_eq_some.1 hread
  rw [hnil] at hu ⊢
  cases hu
  have htimers : (extract s fired).2.timers = s.timers := by
    have hsplit := List.takeWhile_append_dropWhile
      (p := fun e => decide (entryLt e (s.clock s.ticks, uintptrMax))) (l := s.timers)
    rw [← (extract_timers s fired).1, ← (extract_timers s fired).2, hnil] at hsplit
    exact hsplit
  refine ⟨htimers, ?_, ?_, ?_⟩ <;> cases fired <;> rfl

theorem handleRead_inv (h : Inv s) {fired : Bool} {callback : Ptr → List AddRequest}
    (hread : handleRead s fired callback = some t) :
    Inv t ∧ (Armed s → (Armed t ↔ FindsExpired s (.handleRead fired callback))) := by
  obtain ⟨hinv₁, hdet₁⟩ := extract_inv h fired
  obtain ⟨u, hu, ht⟩ := handleRead_eq_some.1 hread
  obtain ⟨hinv₂, hdet₂⟩ := runCallbacks_inv hinv₁ hu
  obtain ⟨hinv₃, harmed₃⟩ := reset_inv hinv₂ (hdet₂ _ hdet₁)
  rw [ht] at hinv₃ harmed₃
  refine ⟨hinv₃, fun harmed => ?_⟩
  -- If something was extracted, `reset` has armed the timerfd; if not, it is as `read` left it.
  by_cases hnil : (extract s fired).1 = []
  · have hlate := (extract_eq_nil_iff h fired).1 hnil
    obtain ⟨htimers, hclock, hticks, hfd⟩ := handleRead_of_extract_nil hnil hread
    constructor
    · -- The timerfd was consumed, so it is armed only if there is no timer to be armed for.
      rintro harmed' rfl w hw
      obtain ⟨k, -, hk⟩ := harmed' w (htimers ▸ hw)
      simp [hfd] at hk
    · intro hfinds w hw
      rw [htimers] at hw
      cases fired with
      | true =>
          have hle := hfinds rfl w hw
          have hlt := hlate w hw
          omega
      | false =>
          obtain ⟨k, hk, hfd'⟩ := harmed w hw
          refine ⟨k, by omega, ?_⟩
          rw [hfd, hclock]
          exact hfd'
  · refine ⟨fun _ _ w hw => ?_, fun _ => harmed₃ (Or.inr hnil)⟩
    by_contra hgt
    apply hnil
    rw [extract_eq_nil_iff h fired]
    intro w' hw'
    have heq : w' = w := by
      have := hw'.symm.trans hw
      simpa using this
    omega

/-! ## Runs -/

theorem step_inv (h : Inv s) {e : Event} (hstep : step s e = some t) :
    Inv t ∧ (Armed s → (Armed t ↔ FindsExpired s e)) := by
  cases e with
  | addTimer r =>
      obtain ⟨hinv, -, harmed⟩ := addTimer_inv h hstep
      exact ⟨hinv, fun ha => ⟨fun _ => trivial, fun _ => harmed ha⟩⟩
  | handleRead fired callback =>
      exact handleRead_inv h hstep

theorem inv_constructed (clock : Nat → Int) : Inv (constructed clock) where
  keyed _ he := by cases he
  live _ he := by cases he
  nodup := List.nodup_nil
  addr _ hp := by cases hp

theorem armed_constructed (clock : Nat → Int) : Armed (constructed clock) := by
  intro w hw
  simp [constructed, firstExpiration] at hw

/-- In every run of a queue, on every clock: between the calls, a non-empty `m_timers` always has the
timerfd armed for its earliest expiration, if and only if no `handleRead` of the run was entered with
an expired timerfd at a time before the earliest expiration. -/
theorem allAlong_armed_iff (clock : Nat → Int) (es : List Event) (t : State)
    (hrun : Run step (constructed clock) es t) :
    AllAlong step (constructed clock) es Armed ↔
      RunWithin step FindsExpired (constructed clock) es t := by
  refine allAlong_iff_runWithin ?_ hrun (inv_constructed clock) (armed_constructed clock)
  intro s e t hinv harmed hstep
  obtain ⟨hinv', hiff⟩ := step_inv hinv hstep
  exact ⟨hiff harmed, fun _ => hinv'⟩

/-- A one-shot timer due at 1, and a wall clock that goes with the timerfd. -/
theorem allAlong_armed_iff_steady :
    ∃ t, Run step (constructed (fun k => (k : Int)))
        [.addTimer ⟨1, 1, 0, false⟩, .handleRead true (fun _ => [])] t ∧
      AllAlong step (constructed (fun k => (k : Int)))
        [.addTimer ⟨1, 1, 0, false⟩, .handleRead true (fun _ => [])] Armed := by
  let clock : Nat → Int := fun k => (k : Int)
  let es : List Event := [.addTimer ⟨1, 1, 0, false⟩, .handleRead true (fun _ => [])]
  have hwithin : ∃ t, RunWithin step FindsExpired (constructed clock) es t := by
    refine ⟨_, RunWithin.cons trivial rfl (RunWithin.cons ?_ rfl (RunWithin.nil _))⟩
    intro _ w hw
    cases hw
    decide
  obtain ⟨t, ht⟩ := hwithin
  exact ⟨t, ht.toRun, (allAlong_armed_iff clock es t ht.toRun).2 ht⟩

/-- The same timer, and a wall clock that was set back when the timerfd fires: `handleRead` finds
nothing expired and leaves the timerfd disarmed with the timer still in the set. -/
theorem not_armed_after_clock_step :
    ¬ ∀ (clock : Nat → Int) (es : List Event) (t : State),
        Run step (constructed clock) es t → Armed t := by
  intro hall
  let es : List Event := [.addTimer ⟨1, 1, 0, false⟩, .handleRead true (fun _ => [])]
  obtain ⟨t, ht, htimers, hfd⟩ : ∃ t, exec step (constructed (fun _ => 0)) es = some t ∧
      firstExpiration t.timers = some 1 ∧ t.timerfd = none := ⟨_, rfl, rfl, rfl⟩
  obtain ⟨k, -, hk⟩ := hall _ es t (run_of_exec ht) 1 htimers
  simp [hfd] at hk

end TimerQueue
end MyServer
end MyCppCode
