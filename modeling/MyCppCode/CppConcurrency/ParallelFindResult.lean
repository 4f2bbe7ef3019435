import MyCppCode.CppConcurrency.ParallelFind

/-!
# ParallelFindResult — what `parallel_find` returns, under every interleaving

The promise is satisfied by a match and by nothing else, and once it is satisfied the flag is up or the
thread that satisfied it is about to raise it.  So when all threads have returned, a flag that is down
means that every thread came to the end of its block, and a flag that is up means that `get` finds a
match.
-/

namespace MyCppCode
namespace CppConcurrency

open Foundation

universe u

namespace ParallelFind

variable {α : Type u} [BEq α] {hw : Nat} {xs : List α} {value : α} {s t : State}

/-! ## The invariant -/

/-- What is known at each program point of the calling thread. -/
def MainPc.Sound (hw : Nat) (xs : List α) (value : α) (s : State) : MainPc → Prop
  | .spawning i st =>
      xs.length ≠ 0 ∧ s.workers.length = i ∧ i < numTh hw xs.length ∧ st = i * blkSz hw xs.length
  | .searching => xs.length ≠ 0 ∧ s.workers.length = numTh hw xs.length
  | .joining i =>
      xs.length ≠ 0 ∧ s.workers.length = numTh hw xs.length ∧ i < numTh hw xs.length ∧
        IsAt s (numTh hw xs.length - 1) .returned ∧ ∀ j < i, IsAt s j .returned
  | .loadDone =>
      xs.length ≠ 0 ∧ s.workers.length = numTh hw xs.length ∧ ∀ w ∈ s.workers, w.pc = .returned
  | .getFuture => s.workers.length = numTh hw xs.length ∧ s.promise ≠ none
  | .returned it => s.workers.length = numTh hw xs.length ∧ Correct xs value it
  | .threw => False

structure Inv (hw : Nat) (xs : List α) (value : α) (s : State) : Prop where
  promise_ok : ∀ o, s.promise = some o → ∃ i, o = .value i ∧ Matches xs value i
  done_ok : s.done = true → s.promise ≠ none
  raising : s.promise ≠ none → s.done = true ∨ ∃ i, IsAt s i .storeDone
  workers_ok : ∀ w ∈ s.workers, WorkerOk xs value s.promise w
  blocks : s.workers.map (fun w => (w.first, w.en)) =
    (List.range s.workers.length).map (block hw xs.length)
  main_ok : s.main.Sound hw xs value s

theorem start_inv (hw : Nat) (xs : List α) (value : α) : Inv hw xs value (start xs) := by
  refine ⟨by simp [start], by simp [start], by simp [start], by simp [start], by simp [start], ?_⟩
  by_cases hn : xs.length = 0
  · have hnil : xs = [] := List.length_eq_zero_iff.1 hn
    subst hnil
    refine ⟨(numTh_zero hw).symm, Or.inl ⟨rfl, ?_⟩⟩
    rintro i ⟨x, hx, -⟩
    simp at hx
  · have hmain : (start xs).main = .spawning 0 0 := by simp only [start, if_neg hn]
    rw [hmain]
    exact ⟨hn, rfl, numTh_pos hw hn, by simp⟩

/-! ## Steps of the calls -/

/-- The effect of a worker's step: its inversion, and what it leaves alone. -/
theorem step_worker {i : Nat} (h : step hw xs value s (.worker i) = some t) :
    ∃ w w', s.workers[i]? = some w ∧ WorkerMoves xs value w s.promise s.done t.promise t.done w' ∧
      t.workers = s.workers.set i w' ∧ t.main = s.main := by
  simp only [step] at h
  split at h
  · rename_i w hget
    split at h
    · rename_i promise done w' hstep
      cases h
      exact ⟨w, w', hget, workerStep_moves hstep, rfl, rfl⟩
    · cases h
  · cases h

theorem WorkerMoves.not_returned {p p' : Option Outcome} {d d' : Bool} {w w' : Worker}
    (h : WorkerMoves xs value w p d p' d' w') : w.pc ≠ .returned := by
  intro hret
  cases h <;> simp_all

theorem WorkerMoves.block_eq {p p' : Option Outcome} {d d' : Bool} {w w' : Worker}
    (h : WorkerMoves xs value w p d p' d' w') : (w'.first, w'.en) = (w.first, w.en) := by
  cases h <;> rfl

theorem WorkerMoves.promise_mono {p p' : Option Outcome} {d d' : Bool} {w w' : Worker}
    (h : WorkerMoves xs value w p d p' d' w') (hp : p ≠ none) : p' = p := by
  cases h <;> first | rfl | exact absurd rfl hp

/-- A call that is elsewhere stays there when another one moves. -/
theorem isAt_set {i j : Nat} {w w' : Worker} {pc : WorkerPc} (hget : s.workers[i]? = some w)
    (hpc : w.pc ≠ pc) (hworkers : t.workers = s.workers.set i w') (h : IsAt s j pc) :
    IsAt t j pc := by
  obtain ⟨v, hv, hvpc⟩ := h
  have hij : i ≠ j := by
    rintro rfl
    cases hget.symm.trans hv
    exact hpc hvpc
  refine ⟨v, ?_, hvpc⟩
  rw [hworkers, List.getElem?_set_ne hij]
  exact hv

theorem isAt_moved {i : Nat} {w w' : Worker} (hget : s.workers[i]? = some w)
    (hworkers : t.workers = s.workers.set i w') : IsAt t i w'.pc := by
  have hlt := (List.getElem?_eq_some_iff.1 hget).1
  refine ⟨w', ?_, rfl⟩
  rw [hworkers, List.getElem?_set_self hlt]
  rfl

/-- After a worker's step a satisfied promise still stands for a raised flag or for a thread about to
raise it. -/
theorem raising_step {i : Nat} {w w' : Worker} (h : Inv hw xs value s)
    (hget : s.workers[i]? = some w)
    (hmoves : WorkerMoves xs value w s.promise s.done t.promise t.done w')
    (hworkers : t.workers = s.workers.set i w') (hp : t.promise ≠ none) :
    t.done = true ∨ ∃ j, IsAt t j .storeDone := by
  -- Only the thread that satisfies the promise comes to the store, and only that store leaves it.
  have hkeep : w.pc ≠ .storeDone → s.promise ≠ none → t.done = s.done →
      t.done = true ∨ ∃ j, IsAt t j .storeDone := by
    intro hpc hps hdone
    rcases h.raising hps with hraised | ⟨j, hj⟩
    · exact Or.inl (hdone.trans hraised)
    · exact Or.inr ⟨j, isAt_set hget hpc hworkers hj⟩
  have hmoved := isAt_moved hget hworkers
  generalize hps : s.promise = p, hpt : t.promise = p', hds : s.done = d, hdt : t.done = d'
    at hmoves hkeep hp ⊢
  cases hmoves with
  | satisfy hpc => exact Or.inr ⟨i, hmoved⟩
  | raise hpc => exact Or.inl rfl
  | raiseCaught hpc => exact Or.inl rfl
  | caught hpc =>
      have hsound := (h.workers_ok w (List.mem_of_getElem? hget)).sound
      simp [hpc, WorkerPc.Sound, hps] at hsound
  | stop hpc _ => exact hkeep (by simp [hpc]) hp rfl
  | look hpc _ _ => exact hkeep (by simp [hpc]) hp rfl
  | mismatch hpc _ => exact hkeep (by simp [hpc]) hp rfl
  | found hpc _ => exact hkeep (by simp [hpc]) hp rfl
  | occupied hpc _ => exact hkeep (by simp [hpc]) hp rfl
  | swallow hpc _ => exact hkeep (by simp [hpc]) hp rfl

/-- The promise is satisfied by matches only. -/
theorem promise_step {p p' : Option Outcome} {d d' : Bool} {w w' : Worker}
    (hmoves : WorkerMoves xs value w p d p' d' w') (hw : WorkerOk xs value p w)
    (h : ∀ o, p = some o → ∃ i, o = .value i ∧ Matches xs value i) :
    ∀ o, p' = some o → ∃ i, o = .value i ∧ Matches xs value i := by
  have hsound := hw.sound
  cases hmoves with
  | satisfy hpc =>
      intro o ho
      cases ho
      simp only [hpc, WorkerPc.Sound] at hsound
      exact ⟨w.st, rfl, hsound⟩
  | caught hpc =>
      simp [hpc, WorkerPc.Sound] at hsound
  | _ => exact h

theorem done_step {p p' : Option Outcome} {d d' : Bool} {w w' : Worker}
    (hmoves : WorkerMoves xs value w p d p' d' w') (hw : WorkerOk xs value p w)
    (h : d = true → p ≠ none) : d' = true → p' ≠ none := by
  have hsound := hw.sound
  cases hmoves with
  | satisfy hpc =>
      intro _
      exact Option.some_ne_none _
  | caught hpc =>
      intro _
      exact Option.some_ne_none _
  | raise hpc =>
      intro _
      simpa only [hpc, WorkerPc.Sound] using hsound
  | raiseCaught hpc =>
      simp only [hpc, WorkerPc.Sound] at hsound
  | _ => exact h

/-- What the calling thread knows is not changed by the others. -/
theorem MainPc.Sound.set {i : Nat} {w w' : Worker} {m : MainPc} (h : m.Sound hw xs value s)
    (hget : s.workers[i]? = some w) (hpc : w.pc ≠ .returned)
    (hworkers : t.workers = s.workers.set i w') (hp : s.promise ≠ none → t.promise ≠ none) :
    m.Sound hw xs value t := by
  have hlen : t.workers.length = s.workers.length := by rw [hworkers, List.length_set]
  cases m with
  | spawning i st =>
      obtain ⟨hn, hk, hi, hst⟩ := h
      exact ⟨hn, hlen.trans hk, hi, hst⟩
  | searching =>
      obtain ⟨hn, hk⟩ := h
      exact ⟨hn, hlen.trans hk⟩
  | joining j =>
      obtain ⟨hn, hk, hj, hlast, hall⟩ := h
      exact ⟨hn, hlen.trans hk, hj, isAt_set hget hpc hworkers hlast,
        fun k hkj => isAt_set hget hpc hworkers (hall k hkj)⟩
  | loadDone =>
      -- all calls have returned, so none of them moves
      obtain ⟨-, -, hall⟩ := h
      exact absurd (hall w (List.mem_of_getElem? hget)) hpc
  | getFuture =>
      obtain ⟨hk, hps⟩ := h
      exact ⟨hlen.trans hk, hp hps⟩
  | returned it =>
      obtain ⟨hk, hcorrect⟩ := h
      exact ⟨hlen.trans hk, hcorrect⟩
  | threw => exact h

theorem worker_step_inv {i : Nat} (h : Inv hw xs value s)
    (hstep : step hw xs value s (.worker i) = some t) : Inv hw xs value t := by
  obtain ⟨w, w', hget, hmoves, hworkers, hmain⟩ := step_worker hstep
  have hok := h.workers_ok w (List.mem_of_getElem? hget)
  have hpromise : s.promise ≠ none → t.promise ≠ none := by
    intro hp
    rw [hmoves.promise_mono hp]
    exact hp
  refine ⟨promise_step hmoves hok h.promise_ok, done_step hmoves hok h.done_ok,
    raising_step h hget hmoves hworkers, ?_, ?_, ?_⟩
  · intro v hv
    rw [hworkers] at hv
    rcases List.mem_or_eq_of_mem_set hv with hv | rfl
    · exact (h.workers_ok v hv).mono hpromise
    · exact hmoves.ok hok h.done_ok
  · -- a call keeps its block, so setting the entry changes nothing here
    rw [hworkers, List.length_set,
      map_set_eq (fun w : Worker => (w.first, w.en)) hget hmoves.block_eq]
    exact h.blocks
  · rw [hmain]
    exact h.main_ok.set hget hmoves.not_returned hworkers hpromise

/-! ## Steps of the calling thread -/

theorem Inv.setMain (h : Inv hw xs value s) {m : MainPc} (hm : m.Sound hw xs value s) :
    Inv hw xs value { s with main := m } := by
  refine ⟨h.promise_ok, h.done_ok, h.raising, h.workers_ok, h.blocks, ?_⟩
  cases m <;> exact hm

/-- A new call of `find_ele`, on the next block. -/
def freshWorker (blk : Nat × Nat) : Worker :=
  { first := blk.1, st := blk.1, en := blk.2, pc := .test }

/-- The moves of the calling thread. -/
inductive MainMoves (hw : Nat) (xs : List α) (s : State) : State → Prop where
  | spawn (i st : Nat) : s.main = .spawning i st → i < numTh hw xs.length - 1 →
      MainMoves hw xs s
        { s with
          workers := s.workers ++ [freshWorker (st, st + blkSz hw xs.length)]
          main := .spawning (i + 1) (st + blkSz hw xs.length) }
  | spawnLast (i st : Nat) : s.main = .spawning i st → ¬ i < numTh hw xs.length - 1 →
      MainMoves hw xs s
        { s with workers := s.workers ++ [freshWorker (st, xs.length)], main := .searching }
  | searched : s.main = .searching → IsAt s (numTh hw xs.length - 1) .returned →
      MainMoves hw xs s { s with main := .joining 0 }
  | join (i : Nat) : s.main = .joining i → i < numTh hw xs.length - 1 → IsAt s i .returned →
      MainMoves hw xs s { s with main := .joining (i + 1) }
  | joined (i : Nat) : s.main = .joining i → ¬ i < numTh hw xs.length - 1 →
      MainMoves hw xs s { s with main := .loadDone }
  | raised : s.main = .loadDone → s.done = true → MainMoves hw xs s { s with main := .getFuture }
  | notRaised : s.main = .loadDone → s.done = false →
      MainMoves hw xs s { s with main := .returned xs.length }
  | get (it : Nat) : s.main = .getFuture → s.promise = some (.value it) →
      MainMoves hw xs s { s with main := .returned it }
  | rethrow : s.main = .getFuture → s.promise = some .exception →
      MainMoves hw xs s { s with main := .threw }

omit [BEq α] in
theorem mainStep_moves (h : mainStep hw xs s = some t) : MainMoves hw xs s t := by
  unfold mainStep at h
  split at h
  next i st hpc =>
    split at h
    · cases h
      exact .spawn i st hpc ‹_›
    · cases h
      exact .spawnLast i st hpc ‹_›
  next hpc =>
    split at h
    · cases h
      exact .searched hpc ‹_›
    · cases h
  next i hpc =>
    split at h
    · split at h
      · cases h
        exact .join i hpc ‹_› ‹_›
      · cases h
    · cases h
      exact .joined i hpc ‹_›
  next hpc =>
    split at h
    · cases h
      exact .raised hpc ‹_›
    · rename_i hdone
      cases h
      exact .notRaised hpc (by simpa using hdone)
  next hpc =>
    split at h
    · cases h
      exact .get _ hpc ‹_›
    · cases h
      exact .rethrow hpc ‹_›
    · cases h
  next =>
    cases h
  next =>
    cases h

theorem Inv.spawn (h : Inv hw xs value s) {blk : Nat × Nat}
    (hblk : blk = block hw xs.length s.workers.length)
    (hmore : s.workers.length < numTh hw xs.length) {m : MainPc}
    (hm : m.Sound hw xs value { s with workers := s.workers ++ [freshWorker blk] }) :
    Inv hw xs value { s with workers := s.workers ++ [freshWorker blk], main := m } := by
  have hbounds := block_le hmore
  rw [← hblk] at hbounds
  refine ⟨h.promise_ok, h.done_ok, ?_, ?_, ?_, ?_⟩
  · intro hp
    rcases h.raising hp with hdone | ⟨j, w, hmem, hpc⟩
    · exact Or.inl hdone
    · refine Or.inr ⟨j, w, ?_, hpc⟩
      have hlt := (List.getElem?_eq_some_iff.1 hmem).1
      rw [List.getElem?_append_left hlt]
      exact hmem
  · intro w hmem
    rcases List.mem_append.1 hmem with hmem | hmem
    · exact h.workers_ok w hmem
    · obtain rfl := List.mem_singleton.1 hmem
      refine ⟨le_refl _, hbounds.1, hbounds.2, ?_, trivial⟩
      intro i hi hlt
      exact absurd hlt (Nat.not_lt.2 hi)
  · rw [List.map_append, List.length_append, h.blocks, List.length_singleton, List.range_succ,
      List.map_append]
    simp only [List.map_cons, List.map_nil, freshWorker, ← hblk]
  · cases m <;> exact hm

/-- With all calls made, every position belongs to one of them. -/
theorem Inv.covered (h : Inv hw xs value s)
    (hlen : s.workers.length = numTh hw xs.length) {i : Nat} (hi : i < xs.length) :
    ∃ w ∈ s.workers, w.first ≤ i ∧ i < w.en := by
  have hsomewhere : i ∈ (s.workers.map fun w => (w.first, w.en)).flatMap positions := by
    rw [h.blocks, hlen, flatMap_positions_blocks]
    exact List.mem_range.2 hi
  obtain ⟨blk, hblk, hpos⟩ := List.mem_flatMap.1 hsomewhere
  obtain ⟨w, hmem, rfl⟩ := List.mem_map.1 hblk
  obtain ⟨k, hk, rfl⟩ := List.mem_range'.1 hpos
  refine ⟨w, hmem, by omega, ?_⟩
  omega

/-- All calls have returned and the flag is down: each of them has seen its whole block. -/
theorem Inv.none_found (h : Inv hw xs value s)
    (hlen : s.workers.length = numTh hw xs.length) (hall : ∀ w ∈ s.workers, w.pc = .returned)
    (hdone : s.done = false) (i : Nat) : ¬ Matches xs value i := by
  intro hmatch
  -- A satisfied promise with the flag down would leave a thread before its store.
  have hpromise : s.promise = none := by
    by_contra hp
    rcases h.raising hp with hraised | ⟨j, w, hmem, hpc⟩
    · rw [hdone] at hraised
      cases hraised
    · rw [hall w (List.mem_of_getElem? hmem)] at hpc
      cases hpc
  obtain ⟨w, hmem, hfirst, hlt⟩ := h.covered hlen hmatch.lt
  have hok := h.workers_ok w hmem
  have hsound := hok.sound
  rw [hall w hmem] at hsound
  -- The call returned at the end of its block, and everything before that is clear.
  rcases hsound with hp | hend
  · exact hp hpromise
  · exact hok.clear i hfirst (by omega) hmatch

omit [BEq α] in
/-- The last call and the joined ones are all there are. -/
theorem all_returned (hn : xs.length ≠ 0) (hlen : s.workers.length = numTh hw xs.length) {i : Nat}
    (hi : ¬ i < numTh hw xs.length - 1) (hlast : IsAt s (numTh hw xs.length - 1) .returned)
    (hjoined : ∀ j < i, IsAt s j .returned) : ∀ w ∈ s.workers, w.pc = .returned := by
  intro w hmem
  obtain ⟨j, hj, hget⟩ := List.getElem_of_mem hmem
  have hsome : s.workers[j]? = some w := by rw [List.getElem?_eq_getElem hj, hget]
  have hat : IsAt s j .returned := by
    rcases Nat.lt_or_ge j i with hji | hji
    · exact hjoined j hji
    · have hpos := numTh_pos hw hn
      have heq : j = numTh hw xs.length - 1 := by omega
      rw [heq]
      exact hlast
  obtain ⟨v, hv, hpc⟩ := hat
  cases hsome.symm.trans hv
  exact hpc

theorem main_step_inv (h : Inv hw xs value s) (hstep : step hw xs value s .main = some t) :
    Inv hw xs value t := by
  have hmain := h.main_ok
  cases mainStep_moves hstep with
  | spawn i st hpc hmore =>
      rw [hpc] at hmain
      obtain ⟨hn, hlen, hi, rfl⟩ := hmain
      have hblk : (i * blkSz hw xs.length, i * blkSz hw xs.length + blkSz hw xs.length) =
          block hw xs.length s.workers.length := by
        rw [hlen]
        exact block_of_lt hmore
      refine h.spawn hblk (by omega) ⟨hn, ?_, by omega, (Nat.succ_mul _ _).symm⟩
      simp [hlen]
  | spawnLast i st hpc hlast =>
      rw [hpc] at hmain
      obtain ⟨hn, hlen, hi, rfl⟩ := hmain
      have hblk : (i * blkSz hw xs.length, xs.length) = block hw xs.length s.workers.length := by
        rw [hlen]
        exact block_of_last hlast
      refine h.spawn hblk (by omega) ⟨hn, ?_⟩
      simp only [List.length_append, List.length_singleton, hlen]
      omega
  | searched hpc hlast =>
      rw [hpc] at hmain
      obtain ⟨hn, hlen⟩ := hmain
      exact h.setMain ⟨hn, hlen, numTh_pos hw hn, hlast, fun j hj => absurd hj (Nat.not_lt_zero j)⟩
  | join i hpc hmore hret =>
      rw [hpc] at hmain
      obtain ⟨hn, hlen, hi, hlast, hjoined⟩ := hmain
      refine h.setMain ⟨hn, hlen, by omega, hlast, ?_⟩
      intro j hj
      rcases Nat.lt_succ_iff_lt_or_eq.1 hj with hj | rfl
      · exact hjoined j hj
      · exact hret
  | joined i hpc hend =>
      rw [hpc] at hmain
      obtain ⟨hn, hlen, hi, hlast, hjoined⟩ := hmain
      exact h.setMain ⟨hn, hlen, all_returned hn hlen hend hlast hjoined⟩
  | raised hpc hdone =>
      rw [hpc] at hmain
      obtain ⟨hn, hlen, hall⟩ := hmain
      exact h.setMain ⟨hlen, h.done_ok hdone⟩
  | notRaised hpc hdone =>
      rw [hpc] at hmain
      obtain ⟨hn, hlen, hall⟩ := hmain
      exact h.setMain ⟨hlen, Or.inl ⟨rfl, h.none_found hlen hall hdone⟩⟩
  | get it hpc hit =>
      rw [hpc] at hmain
      obtain ⟨hlen, hp⟩ := hmain
      obtain ⟨i, hi, hmatch⟩ := h.promise_ok _ hit
      cases hi
      exact h.setMain ⟨hlen, Or.inr hmatch⟩
  | rethrow hpc hexc =>
      -- no call comes to `set_exception` with the promise unsatisfied
      obtain ⟨i, hi, -⟩ := h.promise_ok _ hexc
      cases hi

theorem step_inv {e : Event} (h : Inv hw xs value s) (hstep : step hw xs value s e = some t) :
    Inv hw xs value t := by
  cases e with
  | main => exact main_step_inv h hstep
  | worker i => exact worker_step_inv h hstep

/-! ## The number of steps -/

/-- An upper bound for the steps that are left to a call of `find_ele`. -/
def Worker.rank (w : Worker) : Nat :=
  match w.pc with
  | .test => 3 * (w.en - w.st) + 4
  | .compare => 3 * (w.en - w.st) + 3
  | .setValue => 3
  | .setException => 2
  | .storeDone => 1
  | .storeDoneCaught => 1
  | .returned => 0
  | .terminated => 0

/-- The same for the calling thread, with the calls that it is still to make. -/
def MainPc.rank (hw sz : Nat) : MainPc → Nat
  | .spawning i st => 3 * (sz - st) + 5 * (numTh hw sz - i) + numTh hw sz + 5
  | .searching => numTh hw sz + 4
  | .joining i => numTh hw sz + 3 - i
  | .loadDone => 2
  | .getFuture => 1
  | .returned _ => 0
  | .threw => 0

def rank (hw sz : Nat) (s : State) : Nat :=
  (s.workers.map Worker.rank).sum + s.main.rank hw sz

theorem WorkerMoves.rank_lt {p p' : Option Outcome} {d d' : Bool} {w w' : Worker}
    (h : WorkerMoves xs value w p d p' d' w') (hok : WorkerOk xs value p w) : w'.rank < w.rank := by
  have hsound := hok.sound
  cases h with
  | mismatch hpc _ =>
      simp only [hpc, WorkerPc.Sound] at hsound
      simp only [Worker.rank, hpc]
      omega
  | found hpc _ =>
      simp only [hpc, WorkerPc.Sound] at hsound
      simp only [Worker.rank, hpc]
      omega
  | stop hpc _ => simp only [Worker.rank, hpc]; omega
  | look hpc _ _ => simp only [Worker.rank, hpc]; omega
  | satisfy hpc => simp only [Worker.rank, hpc]; omega
  | occupied hpc _ => simp only [Worker.rank, hpc]; omega
  | raise hpc => simp only [Worker.rank, hpc]; omega
  | caught hpc => simp only [Worker.rank, hpc]; omega
  | swallow hpc _ => simp only [Worker.rank, hpc]; omega
  | raiseCaught hpc => simp only [Worker.rank, hpc]; omega

theorem main_step_rank (h : Inv hw xs value s) (hstep : step hw xs value s .main = some t) :
    rank hw xs.length t < rank hw xs.length s := by
  have hmain := h.main_ok
  cases mainStep_moves hstep with
  | spawn i st hpc | spawnLast i st hpc =>
      -- the steps of the new call are paid for by those that the block had in reserve
      rw [hpc] at hmain
      obtain ⟨hn, hlen, hi, rfl⟩ := hmain
      have hupto := succ_mul_blkSz_le hi
      simp only [rank, MainPc.rank, hpc, List.map_append, List.sum_append, List.map_cons,
        List.map_nil, List.sum_cons, List.sum_nil, freshWorker, Worker.rank]
      omega
  | join i hpc | joined i hpc =>
      rw [hpc] at hmain
      obtain ⟨hn, hlen, hi, -⟩ := hmain
      simp only [rank, MainPc.rank, hpc]
      omega
  | searched hpc | raised hpc | notRaised hpc | get it hpc | rethrow hpc =>
      simp only [rank, MainPc.rank, hpc]
      omega

theorem step_rank {e : Event} (h : Inv hw xs value s) (hstep : step hw xs value s e = some t) :
    rank hw xs.length t < rank hw xs.length s := by
  cases e with
  | main => exact main_step_rank h hstep
  | worker i =>
      obtain ⟨w, w', hget, hmoves, hworkers, hmain⟩ := step_worker hstep
      have hlt := hmoves.rank_lt (h.workers_ok w (List.mem_of_getElem? hget))
      have hsum := sum_map_set Worker.rank w' hget
      unfold rank
      rw [hworkers, hmain]
      omega

/-! ## No deadlock -/

/-- A call that has not returned can go on. -/
theorem worker_enabled (h : Inv hw xs value s) {i : Nat} (hi : i < s.workers.length)
    (hnot : ¬ IsAt s i .returned) : ∃ t, step hw xs value s (.worker i) = some t := by
  obtain ⟨w, hget⟩ : ∃ w, s.workers[i]? = some w := ⟨_, List.getElem?_eq_getElem hi⟩
  have hok := h.workers_ok w (List.mem_of_getElem? hget)
  have hsound := hok.sound
  suffices hw : ∃ r, workerStep xs value s.promise s.done w = some r by
    obtain ⟨⟨p, d, w'⟩, hr⟩ := hw
    exact ⟨_, by simp only [step, hget, hr]; rfl⟩
  unfold workerStep
  cases hpc : w.pc with
  | test => simp only; split <;> exact ⟨_, rfl⟩
  | compare =>
      simp only [hpc, WorkerPc.Sound] at hsound
      have hlt : w.st < xs.length := lt_of_lt_of_le hsound hok.en_le
      simp only [List.getElem?_eq_getElem hlt]
      split <;> exact ⟨_, rfl⟩
  | setValue => simp only; split <;> exact ⟨_, rfl⟩
  | storeDone => exact ⟨_, rfl⟩
  | setException => simp only; split <;> exact ⟨_, rfl⟩
  | storeDoneCaught => exact ⟨_, rfl⟩
  | returned => exact absurd ⟨w, hget, hpc⟩ hnot
  | terminated => simp only [hpc, WorkerPc.Sound] at hsound

/-- Until `parallel_find` returns some thread can go on. -/
theorem exists_step (h : Inv hw xs value s) (hnot : ∀ it, s.main ≠ .returned it) :
    ∃ e t, step hw xs value s e = some t := by
  have hmain := h.main_ok
  cases hpc : s.main with
  | spawning i st =>
      refine ⟨.main, ?_⟩
      simp only [step, mainStep, hpc]
      split <;> exact ⟨_, rfl⟩
  | searching =>
      rw [hpc] at hmain
      obtain ⟨hn, hlen⟩ := hmain
      -- the calling thread waits for itself: its own call is the one that can move
      by_cases hret : IsAt s (numTh hw xs.length - 1) .returned
      · exact ⟨.main, _, by simp only [step, mainStep, hpc, if_pos hret]; rfl⟩
      · have hpos := numTh_pos hw hn
        exact ⟨.worker _, worker_enabled h (by omega) hret⟩
  | joining i =>
      rw [hpc] at hmain
      obtain ⟨hn, hlen, hi, -⟩ := hmain
      by_cases hmore : i < numTh hw xs.length - 1
      · by_cases hret : IsAt s i .returned
        · exact ⟨.main, _, by simp only [step, mainStep, hpc, if_pos hmore, if_pos hret]; rfl⟩
        · exact ⟨.worker i, worker_enabled h (by omega) hret⟩
      · exact ⟨.main, _, by simp only [step, mainStep, hpc, if_neg hmore]; rfl⟩
  | loadDone =>
      refine ⟨.main, ?_⟩
      simp only [step, mainStep, hpc]
      split <;> exact ⟨_, rfl⟩
  | getFuture =>
      rw [hpc] at hmain
      obtain ⟨-, hp⟩ := hmain
      obtain ⟨o, ho⟩ := Option.ne_none_iff_exists'.1 hp
      obtain ⟨i, rfl, -⟩ := h.promise_ok o ho
      exact ⟨.main, _, by simp only [step, mainStep, hpc, ho]; rfl⟩
  | returned it => exact absurd hpc (hnot it)
  | threw =>
      rw [hpc] at hmain
      exact absurd hmain id

/-! ## The result -/

/-- `parallel_find` over any sequence, value, hardware thread count and interleaving: it makes a bounded
number of steps and can always make the next one until it returns; it returns `lst` exactly if no
element equals the value and the position of an equal element otherwise; no exception leaves a thread
or the call; and when it returns, the blocks of the threads are the range, each position once. -/
theorem parallel_find_correct (hw : Nat) (xs : List α) (value : α) {es : List Event}
    (hrun : Run (step hw xs value) (start xs) es s) :
    es.length ≤ 3 * xs.length + 6 * numTh hw xs.length + 5 ∧
      ((∃ it, s.main = .returned it) ∨ ∃ e t, step hw xs value s e = some t) ∧
      s.main ≠ .threw ∧ (∀ w ∈ s.workers, w.pc ≠ .terminated) ∧
      ∀ it, s.main = .returned it →
        (it = xs.length ↔ ∀ x ∈ xs, (x == value) = false) ∧
          (it ≠ xs.length → Matches xs value it) ∧
          s.workers.flatMap (fun w => positions (w.first, w.en)) = List.range xs.length := by
  have hinv : Inv hw xs value s :=
    hrun.invariant (fun _ _ _ hs hstep => step_inv hs hstep) (start_inv hw xs value)
  have hmain := hinv.main_ok
  refine ⟨?_, ?_, ?_, ?_, ?_⟩
  · have hlen : es.length + rank hw xs.length s ≤ rank hw xs.length (start xs) :=
      hrun.length_add_le (fun _ _ _ hs hstep => ⟨step_inv hs hstep, step_rank hs hstep⟩)
        (start_inv hw xs value)
    have hstart : rank hw xs.length (start xs) ≤ 3 * xs.length + 6 * numTh hw xs.length + 5 := by
      simp only [rank, start, List.map_nil, List.sum_nil]
      split <;> simp only [MainPc.rank] <;> omega
    omega
  · by_cases hret : ∃ it, s.main = .returned it
    · exact Or.inl hret
    · exact Or.inr (exists_step hinv fun it hit => hret ⟨it, hit⟩)
  · intro hthrew
    rw [hthrew] at hmain
    exact hmain
  · intro w hmem hpc
    have hsound := (hinv.workers_ok w hmem).sound
    rw [hpc] at hsound
    exact hsound
  · intro it hit
    rw [hit] at hmain
    obtain ⟨hlen, hcorrect⟩ := hmain
    refine ⟨hcorrect.result.1, hcorrect.result.2, ?_⟩
    calc
      s.workers.flatMap (fun w => positions (w.first, w.en))
          = (s.workers.map fun w => (w.first, w.en)).flatMap positions := by
            rw [List.flatMap_map]
      _ = List.range xs.length := by
            rw [hinv.blocks, hlen, flatMap_positions_blocks]

/-- Two threads find the value at the same time: the second `set_value` throws, its exception is caught,
and so is that of `set_exception`. -/
theorem parallel_find_correct_race :
    ∃ s : State, Run (step 2 (List.replicate 26 7) 7) (start (List.replicate 26 7))
        [.main, .main, .worker 0, .worker 1, .worker 0, .worker 1, .worker 1, .worker 0, .worker 0,
          .worker 1, .main, .main, .main, .main, .main] s ∧
      s.main = .returned 13 ∧ Matches (List.replicate 26 7) 7 13 := by
  obtain ⟨s, hexec, hmain⟩ : ∃ s, exec (step 2 (List.replicate 26 7) 7) (start (List.replicate 26 7))
      [.main, .main, .worker 0, .worker 1, .worker 0, .worker 1, .worker 1, .worker 0, .worker 0,
        .worker 1, .main, .main, .main, .main, .main] = some s ∧ s.main = .returned 13 :=
    ⟨_, rfl, rfl⟩
  have hrun := run_of_exec hexec
  obtain ⟨-, -, -, -, hresult⟩ := parallel_find_correct 2 (List.replicate 26 7) 7 hrun
  exact ⟨s, hrun, hmain, (hresult 13 hmain).2.1 (by decide)⟩

end ParallelFind

end CppConcurrency
end MyCppCode
