import Mathlib.Data.List.Nodup
import MyCppCode.MyServer.TimerQueueArmed

/-!
# TimerQueueRuns — which timers run, in which order, and how often

`handleRead` takes the due timers out of the set, runs their callbacks, and puts the repeating ones back.
The callbacks add timers while the batch is out, and `reset` changes expirations on the way back.
`Listed s out` describes the set at any of these moments: `out` are the timers that are taken out.

`Handled` says what one `handleRead` does to the timers; that a one-shot timer runs at most once in a
whole run follows from it by induction, for the timer's number is not given again.
-/

namespace MyCppCode
namespace MyServer
namespace TimerQueue

open Foundation

variable {s t u : State}

/-! ## The order of the set -/

theorem entryLt_trans {a b c : Entry} (h₁ : entryLt a b) (h₂ : entryLt b c) : entryLt a c := by
  unfold entryLt at *
  omega

theorem mem_insertEntry {e x : Entry} {l : List Entry} (h : x ∈ insertEntry e l) :
    x = e ∨ x ∈ l := by
  induction l with
  | nil => exact .inl (List.mem_singleton.1 h)
  | cons y ys ih =>
      unfold insertEntry at h
      split at h
      · exact List.mem_cons.1 h
      · split at h
        · rcases List.mem_cons.1 h with rfl | h
          · exact .inr List.mem_cons_self
          · exact (ih h).imp_right (List.mem_cons_of_mem _)
        · exact .inr h

theorem insertEntry_pairwise (e : Entry) {l : List Entry} (h : l.Pairwise entryLt) :
    (insertEntry e l).Pairwise entryLt := by
  induction l with
  | nil => exact List.pairwise_singleton _ _
  | cons x xs ih =>
      obtain ⟨hx, hxs⟩ := List.pairwise_cons.1 h
      unfold insertEntry
      split
      · rename_i hlt
        refine List.pairwise_cons.2 ⟨?_, h⟩
        intro y hy
        rcases List.mem_cons.1 hy with rfl | hy
        · exact hlt
        · exact entryLt_trans hlt (hx y hy)
      · split
        · rename_i hnot hlt
          refine List.pairwise_cons.2 ⟨?_, ih hxs⟩
          intro y hy
          rcases mem_insertEntry hy with rfl | hy
          · exact hlt
          · exact hx y hy
        · exact h

/-- A new entry, beside the timers that are taken out. -/
theorem insertEntry_perm_out {e : Entry} {l : List Entry} (h : e ∉ l) (out : List Ptr) :
    (out ++ (insertEntry e l).map Prod.snd).Perm (e.2 :: (out ++ l.map Prod.snd)) := by
  calc
    (out ++ (insertEntry e l).map Prod.snd).Perm (out ++ e.2 :: l.map Prod.snd) :=
      ((insertEntry_perm h).map Prod.snd).append_left out
    List.Perm _ (e.2 :: (out ++ l.map Prod.snd)) := List.perm_middle

/-- The elements up to the first that is not in `p`, in a list where none is in `p` behind it. -/
theorem takeWhile_eq_filter {p : Entry → Bool} {l : List Entry}
    (h : l.Pairwise fun a b => p b = true → p a = true) : l.takeWhile p = l.filter p := by
  induction l with
  | nil => rfl
  | cons x xs ih =>
      obtain ⟨hx, hxs⟩ := List.pairwise_cons.1 h
      cases hp : p x with
      | true => rw [List.takeWhile_cons_of_pos hp, List.filter_cons_of_pos hp, ih hxs]
      | false =>
          have hnone : xs.filter p = [] := by
            rw [List.filter_eq_nil_iff]
            intro y hy hpy
            rw [hx y hy hpy] at hp
            cases hp
          rw [List.takeWhile_cons_of_neg (by simp [hp]), List.filter_cons_of_neg (by simp [hp]), hnone]

/-! ## The timers of the set and those that are taken out -/

/-- The number of a timer. -/
def serialOf (s : State) (p : Ptr) : Nat := (s.heap p).serial

/-- The set is in order; it and the timers that are taken out are the timers there are, each of them
once and with a number of its own; and only numbers that were given have run. -/
structure Listed (s : State) (out : List Ptr) : Prop where
  sorted : s.timers.Pairwise entryLt
  perm : (out ++ s.timers.map Prod.snd).Perm s.live
  serials : (s.live.map (serialOf s)).Nodup
  serial_lt : ∀ p ∈ s.live, serialOf s p < s.created
  ran_lt : ∀ r ∈ s.ran, r.1 < s.created

theorem Listed.nodup {out : List Ptr} (h : Listed s out) : s.live.Nodup :=
  h.serials.of_map

theorem Listed.mem_live_iff {out : List Ptr} (h : Listed s out) {p : Ptr} :
    p ∈ s.live ↔ p ∈ out ∨ p ∈ s.timers.map Prod.snd := by
  rw [← h.perm.mem_iff, List.mem_append]

theorem Listed.serial_inj {out : List Ptr} (h : Listed s out) {p q : Ptr} (hp : p ∈ s.live)
    (hq : q ∈ s.live) (heq : serialOf s p = serialOf s q) : p = q :=
  List.inj_on_of_nodup_map h.serials hp hq heq

/-! ## Adding timers -/

/-- `t` is `s` with one more timer. -/
structure Adds (s : State) (r : AddRequest) (t : State) : Prop where
  fresh : r.ptr ∉ s.live
  timers : t.timers = insertEntry (r.when, r.ptr) s.timers
  heap : t.heap = Function.update s.heap r.ptr
    { expiration := r.when, interval := r.interval, repeats := r.repeats, serial := s.created }
  live : t.live = r.ptr :: s.live
  clock : t.clock = s.clock
  ticks_le : s.ticks ≤ t.ticks
  created : t.created = s.created + 1
  ran : t.ran = s.ran

theorem addTimerInLoop_eq (s : State) (p : Ptr) :
    addTimerInLoop s p =
      if (insert s p).1 then resetTimerfd (insert s p).2 ((insert s p).2.heap p).expiration
      else (insert s p).2 := by
  unfold addTimerInLoop
  split <;> simp_all

theorem adds_of_addTimer {r : AddRequest} (h : addTimer s r = some t) : Adds s r t := by
  simp only [addTimer, Option.ite_none_right_eq_some, Option.some.injEq] at h
  obtain ⟨⟨hfresh, -⟩, rfl⟩ := h
  -- Arming the timerfd reads the clock and changes none of these.
  rw [addTimerInLoop_eq]
  split
  · exact ⟨hfresh, by simp [insert, resetTimerfd, now], rfl, rfl, rfl, Nat.le_succ _, rfl, rfl⟩
  · exact ⟨hfresh, by simp [insert], rfl, rfl, rfl, Nat.le_refl _, rfl, rfl⟩

/-- What the timers of `s` have become: they are all still there, as they were. -/
structure Keeps (s t : State) : Prop where
  live : ∀ p ∈ s.live, p ∈ t.live
  heap : ∀ p ∈ s.live, t.heap p = s.heap p
  clock : t.clock = s.clock
  ticks_le : s.ticks ≤ t.ticks
  created_le : s.created ≤ t.created
  origin : ∀ p ∈ t.live, p ∈ s.live ∨ s.created ≤ serialOf t p

theorem Keeps.refl (s : State) : Keeps s s :=
  ⟨fun _ h => h, fun _ _ => rfl, rfl, Nat.le_refl _, Nat.le_refl _, fun _ h => .inl h⟩

theorem Keeps.trans (h₁ : Keeps s t) (h₂ : Keeps t u) : Keeps s u where
  live p hp := h₂.live p (h₁.live p hp)
  heap p hp := (h₂.heap p (h₁.live p hp)).trans (h₁.heap p hp)
  clock := h₂.clock.trans h₁.clock
  ticks_le := Nat.le_trans h₁.ticks_le h₂.ticks_le
  created_le := Nat.le_trans h₁.created_le h₂.created_le
  origin p hp := by
    rcases h₂.origin p hp with hp | hp
    · refine (h₁.origin p hp).imp_right fun hle => ?_
      rw [serialOf, h₂.heap p hp]
      exact hle
    · exact .inr (Nat.le_trans h₁.created_le hp)

theorem Adds.keeps {r : AddRequest} (h : Adds s r t) : Keeps s t where
  live p hp := by
    rw [h.live]
    exact List.mem_cons_of_mem _ hp
  heap p hp := by
    have hne : p ≠ r.ptr := fun heq => h.fresh (heq ▸ hp)
    rw [h.heap, Function.update_of_ne hne]
  clock := h.clock
  ticks_le := h.ticks_le
  created_le := by
    rw [h.created]
    exact Nat.le_succ _
  origin p hp := by
    rw [h.live] at hp
    rcases List.mem_cons.1 hp with rfl | hp
    · right
      have hserial : serialOf t r.ptr = s.created := by
        rw [serialOf, h.heap, Function.update_self]
      exact Nat.le_of_eq hserial.symm
    · exact .inl hp

/-- The numbers of the timers of `s` have not changed. -/
theorem Keeps.map_serialOf (h : Keeps s t) : s.live.map (serialOf t) = s.live.map (serialOf s) :=
  List.map_congr_left fun p hp => by rw [serialOf, h.heap p hp, serialOf]

theorem Adds.listed {r : AddRequest} {out : List Ptr} (h : Adds s r t) (hs : Listed s out) :
    Listed t out := by
  have hkeeps := h.keeps
  have hserial : serialOf t r.ptr = s.created := by
    rw [serialOf, h.heap, Function.update_self]
  have hout : (r.when, r.ptr) ∉ s.timers := fun hin =>
    h.fresh (hs.mem_live_iff.2 (.inr (List.mem_map.2 ⟨_, hin, rfl⟩)))
  refine ⟨?_, ?_, ?_, ?_, ?_⟩
  · rw [h.timers]
    exact insertEntry_pairwise _ hs.sorted
  · rw [h.timers, h.live]
    exact (insertEntry_perm_out hout out).trans (hs.perm.cons _)
  · rw [h.live, List.map_cons, hserial, hkeeps.map_serialOf]
    refine List.nodup_cons.2 ⟨?_, hs.serials⟩
    intro hin
    obtain ⟨p, hp, heq⟩ := List.mem_map.1 hin
    exact absurd (hs.serial_lt p hp) (by omega)
  · intro p hp
    rw [h.created]
    rw [h.live] at hp
    rcases List.mem_cons.1 hp with rfl | hp
    · omega
    · have hlt := hs.serial_lt p hp
      rw [serialOf, hkeeps.heap p hp]
      exact Nat.lt_succ_of_lt hlt
  · intro r' hr'
    rw [h.ran] at hr'
    rw [h.created]
    exact Nat.lt_succ_of_lt (hs.ran_lt r' hr')

theorem addTimers_listed {rs : List AddRequest} {out : List Ptr} (hs : Listed s out)
    (hadd : addTimers s rs = some t) : Listed t out ∧ Keeps s t ∧ t.ran = s.ran := by
  induction rs generalizing s with
  | nil =>
      cases hadd
      exact ⟨hs, Keeps.refl _, rfl⟩
  | cons r rs ih =>
      simp only [addTimers, Option.bind_eq_bind, Option.bind_eq_some_iff] at hadd
      obtain ⟨u, hu, hrest⟩ := hadd
      have hadds := adds_of_addTimer hu
      obtain ⟨hlisted, hkeeps, hran⟩ := ih (hadds.listed hs) hrest
      exact ⟨hlisted, hadds.keeps.trans hkeeps, hran.trans hadds.ran⟩

/-! ## The batch of one `handleRead` -/

/-- What is recorded of the run of an entry. -/
def record (s : State) (e : Entry) : Nat × Int :=
  (serialOf s e.2, (s.heap e.2).expiration)

theorem Keeps.record_eq (h : Keeps s t) {e : Entry} (he : e.2 ∈ s.live) : record t e = record s e := by
  rw [record, serialOf, h.heap _ he, record, serialOf]

/-- Recording the run of a timer. -/
theorem Listed.run {out : List Ptr} (h : Listed s out) {e : Entry} (he : e.2 ∈ s.live) :
    Listed { s with ran := s.ran ++ [record s e] } out := by
  refine ⟨h.sorted, h.perm, h.serials, h.serial_lt, ?_⟩
  intro r hr
  rcases List.mem_append.1 hr with hr | hr
  · exact h.ran_lt r hr
  · rw [List.mem_singleton.1 hr]
    exact h.serial_lt _ he

/-- The callbacks of the batch run one after the other, whatever timers they add. -/
theorem runCallbacks_listed {callback : Ptr → List AddRequest} {its : List Entry} {out : List Ptr}
    (hs : Listed s out) (hits : ∀ it ∈ its, it.2 ∈ s.live)
    (hrun : runCallbacks callback s its = some t) :
    Listed t out ∧ Keeps s t ∧ t.ran = s.ran ++ its.map (record s) := by
  induction its generalizing s with
  | nil =>
      cases hrun
      exact ⟨hs, Keeps.refl _, by simp⟩
  | cons it rest ih =>
      simp only [runCallbacks, Option.bind_eq_bind, Option.bind_eq_some_iff] at hrun
      obtain ⟨u, hu, hrest⟩ := hrun
      have hit : it.2 ∈ s.live := hits it List.mem_cons_self
      obtain ⟨hlisted, hkeeps, hran⟩ := addTimers_listed (hs.run hit) hu
      have hkeeps' : Keeps s u :=
        ⟨hkeeps.live, hkeeps.heap, hkeeps.clock, hkeeps.ticks_le, hkeeps.created_le, hkeeps.origin⟩
      have hlive : ∀ e ∈ rest, e.2 ∈ s.live := fun e he => hits e (List.mem_cons_of_mem _ he)
      obtain ⟨hlisted', hkeeps'', hran'⟩ := ih hlisted (fun e he => hkeeps'.live _ (hlive e he)) hrest
      refine ⟨hlisted', hkeeps'.trans hkeeps'', ?_⟩
      have hsame : rest.map (record u) = rest.map (record s) :=
        List.map_congr_left fun e he => hkeeps'.record_eq (hlive e he)
      rw [hran', hran, hsame, List.map_cons, List.append_assoc]
      rfl

/-- The timers that are due when `handleRead` reads the clock. -/
def due (s : State) : List Entry :=
  s.timers.filter fun e => decide (e.1 ≤ s.clock s.ticks)

/-- The sentinel with the greatest pointer splits the set behind the timers that are due. -/
theorem extract_eq_due (h : Inv s) (hs : Listed s []) (fired : Bool) :
    (extract s fired).1 = due s := by
  have hiff : ∀ e ∈ s.timers,
      decide (entryLt e (s.clock s.ticks, uintptrMax)) = decide (e.1 ≤ s.clock s.ticks) := by
    intro e he
    have haddr : e.2 < uintptrMax := h.addr _ (h.live e he)
    apply decide_eq_decide.2
    unfold entryLt
    simp only
    omega
  rw [(extract_timers s fired).1, takeWhile_eq_filter]
  · exact List.filter_congr hiff
  · refine hs.sorted.imp ?_
    intro a b hab hb
    rw [decide_eq_true_iff] at hb ⊢
    exact entryLt_trans hab hb

theorem extract_listed (hs : Listed s []) (fired : Bool) :
    Listed (extract s fired).2 ((extract s fired).1.map Prod.snd) ∧
      Keeps s (extract s fired).2 ∧ (extract s fired).2.ran = s.ran ∧
      (extract s fired).2.ticks = s.ticks + 1 := by
  obtain ⟨hfirst, hsecond⟩ := extract_timers s fired
  have hrest : (extract s fired).2.live = s.live ∧ (extract s fired).2.heap = s.heap ∧
      (extract s fired).2.created = s.created ∧ (extract s fired).2.ran = s.ran ∧
      (extract s fired).2.clock = s.clock ∧ (extract s fired).2.ticks = s.ticks + 1 := by
    cases fired <;> exact ⟨rfl, rfl, rfl, rfl, rfl, rfl⟩
  obtain ⟨hlive, hheap, hcreated, hran, hclock, hticks⟩ := hrest
  have hserial : serialOf (extract s fired).2 = serialOf s := by
    funext p
    rw [serialOf, hheap, serialOf]
  refine ⟨⟨?_, ?_, ?_, ?_, ?_⟩, ?_, hran, hticks⟩
  · rw [hsecond]
    exact hs.sorted.sublist (List.dropWhile_sublist _)
  · rw [hfirst, hsecond, ← List.map_append, List.takeWhile_append_dropWhile, hlive]
    exact hs.perm
  · rw [hserial, hlive]
    exact hs.serials
  · rw [hserial, hlive, hcreated]
    exact hs.serial_lt
  · rw [hran, hcreated]
    exact hs.ran_lt
  · refine ⟨?_, ?_, hclock, ?_, ?_, ?_⟩
    · rw [hlive]
      exact fun p hp => hp
    · rw [hheap]
      exact fun p _ => rfl
    · rw [hticks]
      exact Nat.le_succ _
    · exact Nat.le_of_eq hcreated.symm
    · rw [hlive]
      exact fun p hp => .inl hp

/-! ## Putting the batch back -/

/-- The timer `p` with the expiration that `restart` gives it at the `k`-th reading of the clock. -/
def restarted (s : State) (p : Ptr) (k : Nat) : Timer :=
  { s.heap p with expiration := wrap64 (s.clock k + (s.heap p).interval) }

/-- What the body of `reset` does to a timer that was taken out. -/
structure ResetOne (s : State) (p : Ptr) (t : State) : Prop where
  ran : t.ran = s.ran
  created : t.created = s.created
  clock : t.clock = s.clock
  ticks_le : s.ticks ≤ t.ticks
  back : (s.heap p).repeats = true →
    s.ticks < t.ticks ∧ t.live = s.live ∧ t.heap = Function.update s.heap p (restarted s p s.ticks)
  gone : (s.heap p).repeats = false → t.live = s.live.erase p ∧ t.heap = s.heap

theorem putBack_resetOne (s : State) (it : Entry) : ResetOne s it.2 (putBack s it) := by
  unfold putBack
  split
  · rename_i hrepeats
    refine ⟨rfl, rfl, rfl, Nat.le_succ _, fun _ => ⟨Nat.lt_succ_self _, rfl, ?_⟩, fun hnot => ?_⟩
    · simp [insert, restart, now, restarted, hrepeats]
    · rw [hrepeats] at hnot
      cases hnot
  · rename_i hrepeats
    exact ⟨rfl, rfl, rfl, Nat.le_refl _, fun hyes => absurd hyes hrepeats, fun _ => ⟨rfl, rfl⟩⟩

theorem putBack_listed {it : Entry} {out : List Ptr} (hs : Listed s (it.2 :: out)) :
    Listed (putBack s it) out := by
  have hnodup := (hs.perm.nodup_iff).2 hs.nodup
  rw [List.cons_append, List.nodup_cons, List.mem_append, not_or] at hnodup
  -- A timer that was taken out is not in the set, and no other one has its address.
  have hout : it.2 ∉ s.timers.map Prod.snd := hnodup.1.2
  unfold putBack
  split
  · -- The restarted timer goes back into the set with its new expiration.
    have hserial : ∀ (now : Int) (p : Ptr), serialOf (restart (TimerQueue.now s).2 it.2 now) p =
        serialOf s p := by
      intro now p
      by_cases hp : p = it.2
      · subst hp
        simp [serialOf, restart, TimerQueue.now]
      · simp [serialOf, restart, TimerQueue.now, hp]
    have hnotin : ∀ w, (w, it.2) ∉ s.timers := fun w hin => hout (List.mem_map.2 ⟨_, hin, rfl⟩)
    refine ⟨insertEntry_pairwise _ hs.sorted, ?_, ?_, ?_, hs.ran_lt⟩
    · exact (insertEntry_perm_out (hnotin _) out).trans hs.perm
    · have hmap : s.live.map (serialOf (restart (TimerQueue.now s).2 it.2 (TimerQueue.now s).1)) =
          s.live.map (serialOf s) := List.map_congr_left fun p _ => hserial _ p
      exact hmap ▸ hs.serials
    · intro p hp
      exact Nat.lt_of_le_of_lt (Nat.le_of_eq (hserial _ p)) (hs.serial_lt p hp)
  · refine ⟨hs.sorted, ?_, ?_, fun p hp => hs.serial_lt p (List.mem_of_mem_erase hp), hs.ran_lt⟩
    · exact (List.cons_perm_iff_perm_erase.1 hs.perm).2
    · exact hs.serials.sublist (List.erase_sublist.map _)

theorem resetOne_listed {it : Entry} {out : List Ptr} (hs : Listed s (it.2 :: out)) :
    Listed (resetOne s it) out ∧ ResetOne s it.2 (resetOne s it) := by
  have hlisted := putBack_listed hs
  obtain ⟨hran, hcreated, hclock, hticks, hback, hgone⟩ := putBack_resetOne s it
  rw [resetOne_eq]
  split
  · exact ⟨hlisted, hran, hcreated, hclock, hticks, hback, hgone⟩
  · -- Arming the timerfd reads the clock once more.
    refine ⟨⟨hlisted.sorted, hlisted.perm, hlisted.serials, hlisted.serial_lt, hlisted.ran_lt⟩,
      hran, hcreated, hclock, Nat.le_succ_of_le hticks, fun h => ?_, hgone⟩
    obtain ⟨hlt, hrest⟩ := hback h
    exact ⟨Nat.lt_succ_of_lt hlt, hrest⟩

/-- What `reset` does to the timers of the batch and to the others. -/
structure ResetAll (s : State) (ps : List Ptr) (t : State) : Prop where
  ran : t.ran = s.ran
  created : t.created = s.created
  clock : t.clock = s.clock
  ticks_le : s.ticks ≤ t.ticks
  others : ∀ p ∈ s.live, p ∉ ps → p ∈ t.live ∧ t.heap p = s.heap p
  back : ∀ p ∈ ps, (s.heap p).repeats = true →
    p ∈ t.live ∧ ∃ k, s.ticks ≤ k ∧ k < t.ticks ∧ t.heap p = restarted s p k
  gone : ∀ p ∈ ps, (s.heap p).repeats = false → p ∉ t.live
  origin : ∀ p ∈ t.live, p ∈ s.live ∧ serialOf t p = serialOf s p

/-- The body of `reset` leaves every timer alone but its own. -/
theorem ResetOne.other {p q : Ptr} (h : ResetOne s p t) (hq : q ≠ p) :
    t.heap q = s.heap q ∧ (q ∈ t.live ↔ q ∈ s.live) := by
  cases hrepeats : (s.heap p).repeats with
  | true =>
      obtain ⟨-, hlive, hheap⟩ := h.back hrepeats
      rw [hlive, hheap, Function.update_of_ne hq]
      exact ⟨rfl, Iff.rfl⟩
  | false =>
      obtain ⟨hlive, hheap⟩ := h.gone hrepeats
      rw [hlive, hheap]
      exact ⟨rfl, List.mem_erase_of_ne hq⟩

theorem ResetOne.serialOf_eq {p : Ptr} (h : ResetOne s p t) (q : Ptr) :
    serialOf t q = serialOf s q := by
  by_cases hq : q = p
  · subst hq
    cases hrepeats : (s.heap q).repeats with
    | true =>
        rw [serialOf, (h.back hrepeats).2.2, Function.update_self]
        rfl
    | false => rw [serialOf, (h.gone hrepeats).2, serialOf]
  · rw [serialOf, (h.other hq).1, serialOf]

theorem ResetAll.nil (s : State) : ResetAll s [] s where
  ran := rfl
  created := rfl
  clock := rfl
  ticks_le := Nat.le_refl _
  others _ hp _ := ⟨hp, rfl⟩
  back _ hp := by cases hp
  gone _ hp := by cases hp
  origin _ hp := ⟨hp, rfl⟩

/-- The first timer of the batch, and the rest. -/
theorem ResetAll.cons {p : Ptr} {ps : List Ptr} (h₁ : ResetOne s p t) (h₂ : ResetAll t ps u)
    (hp : p ∈ s.live) (hnodup : s.live.Nodup) (hps : p ∉ ps) : ResetAll s (p :: ps) u := by
  have hne : ∀ q ∈ ps, q ≠ p := fun q hq heq => hps (heq ▸ hq)
  refine ⟨h₂.ran.trans h₁.ran, h₂.created.trans h₁.created, h₂.clock.trans h₁.clock,
    Nat.le_trans h₁.ticks_le h₂.ticks_le, ?_, ?_, ?_, ?_⟩
  · intro q hq hout
    rw [List.mem_cons, not_or] at hout
    obtain ⟨hheap, hlive⟩ := h₁.other hout.1
    obtain ⟨hq', hheap'⟩ := h₂.others q (hlive.2 hq) hout.2
    exact ⟨hq', hheap'.trans hheap⟩
  · intro q hq hrepeats
    rcases List.mem_cons.1 hq with rfl | hq
    · -- The timer is back before the rest of the batch is looked at.
      obtain ⟨hlt, hlive, hheap⟩ := h₁.back hrepeats
      obtain ⟨hq', hheap'⟩ := h₂.others q (hlive ▸ hp) hps
      refine ⟨hq', s.ticks, Nat.le_refl _, Nat.lt_of_lt_of_le hlt h₂.ticks_le, ?_⟩
      rw [hheap', hheap, Function.update_self]
    · have hsame := (h₁.other (hne q hq)).1
      rw [← hsame] at hrepeats
      obtain ⟨hq', k, hle, hlt, hheap⟩ := h₂.back q hq hrepeats
      refine ⟨hq', k, Nat.le_trans h₁.ticks_le hle, hlt, ?_⟩
      rw [hheap, restarted, hsame, h₁.clock, restarted]
  · intro q hq hrepeats
    rcases List.mem_cons.1 hq with rfl | hq
    · intro hin
      have hin' := (h₂.origin q hin).1
      rw [(h₁.gone hrepeats).1] at hin'
      exact ((List.Nodup.mem_erase_iff hnodup).1 hin').1 rfl
    · rw [← (h₁.other (hne q hq)).1] at hrepeats
      exact h₂.gone q hq hrepeats
  · intro q hq
    obtain ⟨hq', hsame⟩ := h₂.origin q hq
    refine ⟨?_, hsame.trans (h₁.serialOf_eq q)⟩
    by_cases hqp : q = p
    · rw [hqp]
      exact hp
    · exact (h₁.other hqp).2.1 hq'

theorem reset_listed {xs : List Entry} (hs : Listed s (xs.map Prod.snd)) :
    Listed (reset s xs) [] ∧ ResetAll s (xs.map Prod.snd) (reset s xs) := by
  induction xs generalizing s with
  | nil => exact ⟨hs, ResetAll.nil s⟩
  | cons it xs ih =>
      obtain ⟨hlisted, hone⟩ := resetOne_listed hs
      obtain ⟨hlisted', hall⟩ := ih hlisted
      have hnodup := (hs.perm.nodup_iff).2 hs.nodup
      rw [List.map_cons, List.cons_append, List.nodup_cons, List.mem_append, not_or] at hnodup
      have hit : it.2 ∈ s.live := hs.mem_live_iff.2 (.inl (by simp))
      exact ⟨hlisted', hall.cons hone hit hs.nodup hnodup.1.1⟩

/-! ## One `handleRead` -/

/-- What a `handleRead` does: it runs the timers that are due, each of them once and the earlier ones
first; the repeating ones are back, the one-shot ones gone, and the others as they were. -/
structure Handled (s t : State) : Prop where
  ran : t.ran = s.ran ++ (due s).map (record s)
  created_le : s.created ≤ t.created
  others : ∀ p ∈ s.live, p ∉ (due s).map Prod.snd → p ∈ t.live ∧ t.heap p = s.heap p
  back : ∀ p ∈ (due s).map Prod.snd, (s.heap p).repeats = true →
    p ∈ t.live ∧ ∃ k, s.ticks < k ∧ k < t.ticks ∧ t.heap p = restarted s p k
  gone : ∀ p ∈ (due s).map Prod.snd, (s.heap p).repeats = false → p ∉ t.live
  origin : ∀ p ∈ t.live,
    (p ∈ s.live ∧ serialOf t p = serialOf s p) ∨ s.created ≤ serialOf t p

theorem handleRead_handled (h : Inv s) (hs : Listed s []) {fired : Bool}
    {callback : Ptr → List AddRequest} (hread : handleRead s fired callback = some t) :
    Listed t [] ∧ Handled s t := by
  obtain ⟨u, hrun, rfl⟩ := handleRead_eq_some.1 hread
  obtain ⟨hlisted₁, hkeeps₁, hran₁, hticks₁⟩ := extract_listed hs fired
  -- `getExpired` takes exactly the timers that are due, whatever `read` returned.
  have hdue := extract_eq_due h hs fired
  rw [hdue] at hrun hlisted₁ ⊢
  have hlive : ∀ e ∈ due s, e.2 ∈ s.live := fun e he => h.live e (List.mem_of_mem_filter he)
  obtain ⟨hlisted₂, hkeeps₂, hran₂⟩ :=
    runCallbacks_listed hlisted₁ (fun e he => hkeeps₁.live _ (hlive e he)) hrun
  obtain ⟨hlisted₃, hreset⟩ := reset_listed hlisted₂
  -- The callbacks may add timers, but they change none that was there.
  have hkeeps := hkeeps₁.trans hkeeps₂
  have hlive' : ∀ p ∈ (due s).map Prod.snd, p ∈ s.live := by
    intro p hp
    obtain ⟨e, he, rfl⟩ := List.mem_map.1 hp
    exact hlive e he
  refine ⟨hlisted₃, ?_, ?_, ?_, ?_, ?_, ?_⟩
  · have hsame : (due s).map (record (extract s fired).2) = (due s).map (record s) :=
      List.map_congr_left fun e he => hkeeps₁.record_eq (hlive e he)
    rw [hreset.ran, hran₂, hran₁, hsame]
  · rw [hreset.created]
    exact hkeeps.created_le
  · intro p hp hout
    obtain ⟨hp', hheap⟩ := hreset.others p (hkeeps.live p hp) hout
    exact ⟨hp', hheap.trans (hkeeps.heap p hp)⟩
  · intro p hp hrepeats
    have hsame := hkeeps.heap p (hlive' p hp)
    rw [← hsame] at hrepeats
    obtain ⟨hp', k, hle, hlt, hheap⟩ := hreset.back p hp hrepeats
    have hticks := hkeeps₂.ticks_le
    refine ⟨hp', k, by omega, hlt, ?_⟩
    rw [hheap, restarted, hsame, hkeeps.clock, restarted]
  · intro p hp hrepeats
    rw [← hkeeps.heap p (hlive' p hp)] at hrepeats
    exact hreset.gone p hp hrepeats
  · intro p hp
    obtain ⟨hp', hserial⟩ := hreset.origin p hp
    rw [hserial]
    refine (hkeeps.origin p hp').imp_left fun hp'' => ⟨hp'', ?_⟩
    rw [serialOf, hkeeps.heap p hp'', serialOf]

/-- The numbers of the timers that are due. -/
def dueSerials (s : State) : List Nat :=
  (due s).map fun e => serialOf s e.2

theorem Listed.dueSerials_nodup (hs : Listed s []) : (dueSerials s).Nodup := by
  have hperm : (s.timers.map fun e => serialOf s e.2).Perm (s.live.map (serialOf s)) := by
    have hmap := hs.perm.map (serialOf s)
    rwa [List.nil_append, List.map_map] at hmap
  exact ((hperm.nodup_iff).2 hs.serials).sublist (List.filter_sublist.map _)

/-- The timers that are due stand in the order of their expirations. -/
theorem Listed.due_pairwise (hs : Listed s []) : ((due s).map Prod.fst).Pairwise (· ≤ ·) := by
  have hsorted : (due s).Pairwise entryLt := hs.sorted.sublist List.filter_sublist
  rw [List.pairwise_map]
  refine hsorted.imp fun hlt => ?_
  unfold entryLt at hlt
  omega

/-- A number that is due is the number of one timer. -/
theorem Listed.mem_due_of_serial (h : Inv s) (hs : Listed s []) {p : Ptr} (hp : p ∈ s.live)
    (hserial : serialOf s p ∈ dueSerials s) : p ∈ (due s).map Prod.snd := by
  obtain ⟨e, he, heq⟩ := List.mem_map.1 hserial
  have hlive : e.2 ∈ s.live := h.live e (List.mem_of_mem_filter he)
  rw [← hs.serial_inj hlive hp heq]
  exact List.mem_map.2 ⟨e, he, rfl⟩

theorem Handled.ran_serials (h : Handled s t) :
    t.ran.map Prod.fst = s.ran.map Prod.fst ++ dueSerials s := by
  rw [h.ran, List.map_append, List.map_map]
  rfl

theorem Listed.dueSerials_lt (h : Inv s) (hs : Listed s []) : ∀ n ∈ dueSerials s, n < s.created := by
  intro n hn
  obtain ⟨e, he, rfl⟩ := List.mem_map.1 hn
  exact hs.serial_lt _ (h.live e (List.mem_of_mem_filter he))

/-! ## One-shot timers -/

/-- The one-shot timer of number `n` is waiting, or has run and is gone. -/
structure RunsOnce (n : Nat) (s : State) : Prop where
  given : n < s.created
  once : ((s.ran.map Prod.fst).count n = 0 ∧
      ∃ p ∈ s.live, serialOf s p = n ∧ (s.heap p).repeats = false) ∨
    ((s.ran.map Prod.fst).count n = 1 ∧ ∀ p ∈ s.live, serialOf s p ≠ n)

/-- The one-shot timers that are there have not run. -/
def Unspent (s : State) : Prop :=
  ∀ p ∈ s.live, (s.heap p).repeats = false → serialOf s p ∉ s.ran.map Prod.fst

theorem Adds.unspent {r : AddRequest} (h : Adds s r t) (hs : Listed s []) (hu : Unspent s) :
    Unspent t := by
  intro p hp hrepeats
  rw [h.ran]
  rcases h.keeps.origin p hp with hp' | hnew
  · have hsame := h.keeps.heap p hp'
    rw [hsame] at hrepeats
    rw [serialOf, hsame]
    exact hu p hp' hrepeats
  · intro hin
    obtain ⟨r', hr', heq⟩ := List.mem_map.1 hin
    have hlt := hs.ran_lt r' hr'
    omega

theorem Handled.unspent (h : Handled s t) (hinv : Inv s) (hs : Listed s []) (hu : Unspent s) :
    Unspent t := by
  intro p hp hrepeats
  rw [h.ran_serials, List.mem_append, not_or]
  rcases h.origin p hp with ⟨hp', hserial⟩ | hnew
  · rw [hserial]
    by_cases hdue : p ∈ (due s).map Prod.snd
    · -- A timer of the batch that is still there is a repeating one.
      cases hrep : (s.heap p).repeats with
      | true =>
          obtain ⟨-, k, -, -, hheap⟩ := h.back p hdue hrep
          rw [hheap] at hrepeats
          have : (s.heap p).repeats = false := hrepeats
          rw [hrep] at this
          cases this
      | false => exact absurd hp (h.gone p hdue hrep)
    · obtain ⟨-, hheap⟩ := h.others p hp' hdue
      rw [hheap] at hrepeats
      exact ⟨hu p hp' hrepeats, fun hin => hdue (hs.mem_due_of_serial hinv hp' hin)⟩
  · refine ⟨fun hin => ?_, fun hin => ?_⟩
    · obtain ⟨r', hr', heq⟩ := List.mem_map.1 hin
      have hlt := hs.ran_lt r' hr'
      omega
    · have hlt := Listed.dueSerials_lt hinv hs _ hin
      omega

theorem Adds.runsOnce {r : AddRequest} {n : Nat} (h : Adds s r t) (hn : RunsOnce n s) :
    RunsOnce n t := by
  have hkeeps := h.keeps
  have hgiven := hn.given
  refine ⟨Nat.lt_of_lt_of_le hgiven hkeeps.created_le, ?_⟩
  rw [h.ran]
  refine hn.once.imp (fun hwait => ?_) fun hgone => ?_
  · obtain ⟨hcount, p, hp, hserial, hrepeats⟩ := hwait
    refine ⟨hcount, p, hkeeps.live p hp, ?_, ?_⟩
    · rw [serialOf, hkeeps.heap p hp]
      exact hserial
    · rw [hkeeps.heap p hp]
      exact hrepeats
  · refine ⟨hgone.1, fun p hp hserial => ?_⟩
    rcases hkeeps.origin p hp with hp' | hnew
    · rw [serialOf, hkeeps.heap p hp'] at hserial
      exact hgone.2 p hp' hserial
    · omega

/-- The number of a timer that is not there any more is not given again. -/
theorem Handled.gone_of_gone {n : Nat} (h : Handled s t) (hgiven : n < s.created)
    (hgone : ∀ p ∈ s.live, serialOf s p = n → p ∉ t.live) : ∀ p ∈ t.live, serialOf t p ≠ n := by
  intro p hp hserial
  rcases h.origin p hp with ⟨hp', hsame⟩ | hnew
  · exact hgone p hp' (hsame ▸ hserial) hp
  · omega

theorem Handled.runsOnce {n : Nat} (h : Handled s t) (hinv : Inv s) (hs : Listed s [])
    (hn : RunsOnce n s) : RunsOnce n t := by
  have hgiven := hn.given
  refine ⟨Nat.lt_of_lt_of_le hgiven h.created_le, ?_⟩
  rw [h.ran_serials, List.count_append]
  rcases hn.once with ⟨hcount, p, hp, rfl, hrepeats⟩ | ⟨hcount, hgone⟩
  · by_cases hdue : p ∈ (due s).map Prod.snd
    · -- This is the `handleRead` that runs it.
      right
      obtain ⟨e, he, rfl⟩ := List.mem_map.1 hdue
      have hone : (dueSerials s).count (serialOf s e.2) = 1 :=
        List.count_eq_one_of_mem hs.dueSerials_nodup (List.mem_map.2 ⟨e, he, rfl⟩)
      refine ⟨by omega, h.gone_of_gone hgiven fun q hq hserial => ?_⟩
      rw [hs.serial_inj hq hp hserial]
      exact h.gone _ hdue hrepeats
    · left
      obtain ⟨hp', hheap⟩ := h.others p hp hdue
      have hnone : (dueSerials s).count (serialOf s p) = 0 :=
        List.count_eq_zero.2 fun hin => hdue (hs.mem_due_of_serial hinv hp hin)
      refine ⟨by omega, p, hp', ?_, ?_⟩
      · rw [serialOf, hheap, serialOf]
      · rw [hheap]
        exact hrepeats
  · right
    have hnone : (dueSerials s).count n = 0 := by
      refine List.count_eq_zero.2 fun hin => ?_
      obtain ⟨e, he, heq⟩ := List.mem_map.1 hin
      exact hgone _ (hinv.live e (List.mem_of_mem_filter he)) heq
    exact ⟨by omega, h.gone_of_gone hgiven fun q hq hserial => absurd hserial (hgone q hq)⟩

/-! ## Runs -/

/-- What holds between the calls. -/
structure InOrder (s : State) : Prop where
  inv : Inv s
  listed : Listed s []
  unspent : Unspent s

theorem inOrder_constructed (clock : Nat → Int) : InOrder (constructed clock) where
  inv := inv_constructed clock
  listed :=
    { sorted := List.Pairwise.nil
      perm := List.Perm.refl _
      serials := List.nodup_nil
      serial_lt := fun _ hp => by cases hp
      ran_lt := fun _ hr => by cases hr }
  unspent _ hp := by cases hp

theorem step_inOrder (h : InOrder s) {e : Event} (hstep : step s e = some t) :
    InOrder t ∧ ∀ n, RunsOnce n s → RunsOnce n t := by
  have hinv := (step_inv h.inv hstep).1
  cases e with
  | addTimer r =>
      have hadds := adds_of_addTimer hstep
      exact ⟨⟨hinv, hadds.listed h.listed, hadds.unspent h.listed h.unspent⟩,
        fun n hn => hadds.runsOnce hn⟩
  | handleRead fired callback =>
      obtain ⟨hlisted, hhandled⟩ := handleRead_handled h.inv h.listed hstep
      exact ⟨⟨hinv, hlisted, hhandled.unspent h.inv h.listed h.unspent⟩,
        fun n hn => hhandled.runsOnce h.inv h.listed hn⟩

theorem run_inOrder {es : List Event} (hrun : Run step s es t) (h : InOrder s) : InOrder t :=
  hrun.invariant (fun _ _ _ h hstep => (step_inOrder h hstep).1) h

theorem run_runsOnce {es : List Event} {n : Nat} (hrun : Run step s es t) (h : InOrder s)
    (hn : RunsOnce n s) : RunsOnce n t :=
  (hrun.invariant (I := fun s => InOrder s ∧ RunsOnce n s)
    (fun _ _ _ h hstep =>
      ⟨(step_inOrder h.1 hstep).1, (step_inOrder h.1 hstep).2 n h.2⟩) ⟨h, hn⟩).2

/-- In every run of a queue, on every clock: between the calls the set holds each timer once, keyed by
its expiration; a `handleRead` runs the timers that are due, once each and in the order of their
expirations, and puts the repeating ones back; and a one-shot timer runs at most once, and is gone when
it has. -/
theorem timers_run (clock : Nat → Int) {es : List Event} {s : State}
    (hrun : Run step (constructed clock) es s) :
    ((∀ e ∈ s.timers, (s.heap e.2).expiration = e.1) ∧
      (s.timers.map Prod.snd).Perm s.live ∧ s.live.Nodup) ∧
    (∀ fired callback t, handleRead s fired callback = some t →
      t.ran = s.ran ++ (due s).map (fun e => ((s.heap e.2).serial, e.1)) ∧
      ((due s).map Prod.fst).Pairwise (· ≤ ·) ∧
      ((due s).map fun e => (s.heap e.2).serial).Nodup ∧
      ∀ e ∈ due s, (s.heap e.2).repeats = true →
        ∃ k, s.ticks < k ∧ k < t.ticks ∧ t.heap e.2 = restarted s e.2 k ∧
          ((restarted s e.2 k).expiration, e.2) ∈ t.timers) ∧
    ∀ p ∈ s.live, (s.heap p).repeats = false → ∀ es' t, Run step s es' t →
      (t.ran.map Prod.fst).count (s.heap p).serial ≤ 1 ∧
      ((s.heap p).serial ∈ t.ran.map Prod.fst → ∀ q ∈ t.live, (t.heap q).serial ≠ (s.heap p).serial) := by
  have horder := run_inOrder hrun (inOrder_constructed clock)
  have hinv := horder.inv
  have hlisted := horder.listed
  refine ⟨⟨hinv.keyed, hlisted.perm, hlisted.nodup⟩, ?_, ?_⟩
  · intro fired callback t hread
    obtain ⟨hlisted', hhandled⟩ := handleRead_handled hinv hlisted hread
    have hinv' := (handleRead_inv hinv hread).1
    refine ⟨?_, hlisted.due_pairwise, hlisted.dueSerials_nodup, ?_⟩
    · have hrecord : (due s).map (record s) = (due s).map fun e => ((s.heap e.2).serial, e.1) := by
        refine List.map_congr_left fun e he => ?_
        rw [record, hinv.keyed e (List.mem_of_mem_filter he), serialOf]
      rw [hhandled.ran, hrecord]
    · intro e he hrepeats
      obtain ⟨hlive, k, hlt, hlt', hheap⟩ := hhandled.back e.2 (List.mem_map.2 ⟨e, he, rfl⟩) hrepeats
      refine ⟨k, hlt, hlt', hheap, ?_⟩
      -- The timer is alive, so it is in the set, under the expiration it has now.
      obtain ⟨e', he', heq⟩ := List.mem_map.1 (hlisted'.perm.mem_iff.2 hlive)
      have hkey := hinv'.keyed e' he'
      rw [heq, hheap] at hkey
      rw [hkey, ← heq]
      exact he'
  · intro p hp hrepeats es' t hrun'
    have honce : RunsOnce (s.heap p).serial s :=
      ⟨hlisted.serial_lt p hp,
        .inl ⟨List.count_eq_zero.2 (horder.unspent p hp hrepeats), p, hp, rfl, hrepeats⟩⟩
    have hend := (run_runsOnce hrun' horder honce).once
    refine ⟨?_, fun hran => ?_⟩
    · rcases hend with ⟨hzero, -⟩ | ⟨hone, -⟩ <;> omega
    · rcases hend with ⟨hzero, -⟩ | ⟨-, hgone⟩
      · exact absurd hran (List.count_eq_zero.1 hzero)
      · exact hgone

/-- A one-shot and a repeating timer with the same expiration; the callback of the second adds a
timer that is due at once. -/
def sameInstant : List Event :=
  [.addTimer ⟨2, 5, 10, true⟩, .addTimer ⟨1, 5, 0, false⟩]

/-- Both run in one `handleRead`, the timer that was added meanwhile does not, and the one-shot timer
is gone. -/
theorem timers_run_sameInstant :
    ∃ s t, Run step (constructed fun _ => 7) sameInstant s ∧
      handleRead s true (fun p => if p = 2 then [⟨3, 0, 0, false⟩] else []) = some t ∧
      t.ran = [(1, 5), (0, 5)] ∧
      (∀ q ∈ t.live, (t.heap q).serial ≠ 1) := by
  obtain ⟨s, t, hexec, hread, hdue, hone⟩ : ∃ s t,
      exec step (constructed fun _ => 7) sameInstant = some s ∧
      handleRead s true (fun p => if p = 2 then [⟨3, 0, 0, false⟩] else []) = some t ∧
      s.ran ++ (due s).map (fun e => ((s.heap e.2).serial, e.1)) = [(1, 5), (0, 5)] ∧
      (1 ∈ s.live ∧ (s.heap 1).repeats = false ∧ (s.heap 1).serial = 1) :=
    ⟨_, _, rfl, rfl, rfl, by decide⟩
  obtain ⟨hlive, hrepeats, hserial⟩ := hone
  have hrun := run_of_exec hexec
  obtain ⟨-, hbatch, honce⟩ := timers_run (fun _ => 7) hrun
  have hran := (hbatch _ _ t hread).1.trans hdue
  have hstep : Run step s [.handleRead true fun p => if p = 2 then [⟨3, 0, 0, false⟩] else []] t :=
    Run.cons hread (Run.nil t)
  have hgone := (honce 1 hlive hrepeats _ t hstep).2
  rw [hserial] at hgone
  exact ⟨s, t, hrun, hread, hran, hgone (by rw [hran]; decide)⟩

end TimerQueue
end MyServer
end MyCppCode
