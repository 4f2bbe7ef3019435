import Mathlib.Data.List.Perm.Basic
import MyCppCode.Foundation.TransitionSystem

/-!
# ThreadPool — the tasks of `thread_pool_6`

Each worker has a queue that it pushes to and pops from at one end and that the others steal from at
the other end; besides there is the queue of the pool.  Every operation on a queue holds its lock, so it
is one step.  `thread_safe_queue` is a first-in first-out queue.

A task may itself submit tasks and call `run_pending_task`, so what a thread is doing is a stack of
calls of it.  The threads from `0` to the number of queues are the workers, with their number as
`my_index` and the queue of that number as `local_work_queue`; any other thread has no local queue and
`my_index` zero.
-/

namespace MyCppCode
namespace CppConcurrency

open Foundation

namespace ThreadPool

/-! ## The state -/

/-- A call of `run_pending_task`: which queue it turns to next, or the task that it runs. -/
inductive Frame
  | localQueue
  | poolQueue
  | steal (i : Nat)
  | running (task : Nat)
  deriving DecidableEq, Repr

/-- Tasks are numbered in the order of their submission. -/
structure State where
  queues : List (List Nat)
  poolQueue : List Nat
  threads : List (List Frame)
  submitted : Nat
  finished : List Nat
  deriving DecidableEq, Repr

inductive Event
  | submit (thread : Nat)
  | call (thread : Nat)
  | move (thread : Nat)
  deriving DecidableEq, Repr

/-- A pool of `n` workers, and `m` threads outside it. -/
def start (n m : Nat) : State :=
  { queues := List.replicate n []
    poolQueue := []
    threads := List.replicate (n + m) []
    submitted := 0
    finished := [] }

/-! ## Steps -/

/-- The thread is outside `run_pending_task`, or in a task. -/
def atLarge : List Frame → Bool
  | [] => true
  | .running _ :: _ => true
  | _ => false

def State.setThread (s : State) (thread : Nat) (frames : List Frame) : State :=
  { s with threads := s.threads.set thread frames }

/-- `my_index` of the thread. -/
def State.myIndex (s : State) (thread : Nat) : Nat :=
  if thread < s.queues.length then thread else 0

/-- `submit`: onto the front of the local queue, or onto the back of that of the pool. -/
def State.submit (s : State) (thread : Nat) : State :=
  match s.queues[thread]? with
  | some q =>
      { s with
        queues := s.queues.set thread (s.submitted :: q)
        submitted := s.submitted + 1 }
  | none =>
      { s with
        poolQueue := s.poolQueue ++ [s.submitted]
        submitted := s.submitted + 1 }

/-- `pop_task_from_local_queue`. -/
def State.popLocal (s : State) (thread : Nat) (rest : List Frame) : State :=
  match s.queues[thread]? with
  | some (task :: q) =>
      State.setThread { s with queues := s.queues.set thread q } thread (.running task :: rest)
  | _ => s.setThread thread (.poolQueue :: rest)

/-- `pop_task_from_pool_queue`. -/
def State.popPool (s : State) (thread : Nat) (rest : List Frame) : State :=
  match s.poolQueue with
  | task :: q => State.setThread { s with poolQueue := q } thread (.running task :: rest)
  | [] => s.setThread thread (.steal 0 :: rest)

/-- One iteration of the loop of `pop_task_from_other_thread_queue`; after the last one,
`run_pending_task` yields and returns. -/
def State.steal (s : State) (thread i : Nat) (rest : List Frame) : Option State :=
  if i < s.queues.length then
    -- `try_steal` takes from the back, `try_pop` and `push` work at the front
    let idx := (s.myIndex thread + i + 1) % s.queues.length
    match s.queues[idx]? with
    | some q =>
        match q.getLast? with
        | some task =>
            some (State.setThread { s with queues := s.queues.set idx q.dropLast } thread
              (.running task :: rest))
        | none => some (s.setThread thread (.steal (i + 1) :: rest))
    | none => none
  else
    some (s.setThread thread rest)

def step (s : State) : Event → Option State
  | .submit thread =>
      match s.threads[thread]? with
      | some frames => if atLarge frames then some (s.submit thread) else none
      | none => none
  | .call thread =>
      match s.threads[thread]? with
      | some frames =>
          if atLarge frames then some (s.setThread thread (.localQueue :: frames)) else none
      | none => none
  | .move thread =>
      match s.threads[thread]? with
      | some (.localQueue :: rest) => some (s.popLocal thread rest)
      | some (.poolQueue :: rest) => some (s.popPool thread rest)
      | some (.steal i :: rest) => s.steal thread i rest
      | some (.running task :: rest) =>
          -- the task returns, and with it the call of `run_pending_task`
          some (State.setThread { s with finished := s.finished ++ [task] } thread rest)
      | _ => none

/-! ## Where the tasks are -/

def Frame.task? : Frame → Option Nat
  | .running task => some task
  | _ => none

/-- The tasks that a thread has taken and not finished. -/
def taken (frames : List Frame) : List Nat := frames.filterMap Frame.task?

/-- Every place where a task can be: the queues of the workers, that of the pool, the threads, and the
tasks that are finished. -/
def State.places (s : State) : List Nat :=
  s.queues.flatten ++ s.poolQueue ++ s.threads.flatMap taken ++ s.finished

/-- How often the task is in the places. -/
def State.tally (s : State) (task : Nat) : Nat :=
  (s.queues.map (List.count task)).sum + s.poolQueue.count task +
    (s.threads.map fun frames => (taken frames).count task).sum + s.finished.count task

theorem State.count_places (s : State) (task : Nat) : s.places.count task = s.tally task := by
  simp only [State.places, State.tally, List.count_append, List.count_flatten, List.flatMap,
    List.map_map]
  rfl

@[simp] theorem taken_running (task : Nat) (rest : List Frame) :
    taken (.running task :: rest) = task :: taken rest := rfl

@[simp] theorem taken_localQueue (rest : List Frame) : taken (.localQueue :: rest) = taken rest := rfl

@[simp] theorem taken_poolQueue (rest : List Frame) : taken (.poolQueue :: rest) = taken rest := rfl

@[simp] theorem taken_steal (i : Nat) (rest : List Frame) :
    taken (.steal i :: rest) = taken rest := rfl

/-- A thread that goes on changes the tally by what it takes and lets go. -/
theorem tally_setThread {s : State} {thread : Nat} {frames : List Frame}
    (h : s.threads[thread]? = some frames) (frames' : List Frame) (task : Nat) :
    (s.setThread thread frames').tally task + (taken frames).count task =
      s.tally task + (taken frames').count task := by
  have hsum := sum_map_set (fun frames => (taken frames).count task) frames' h
  simp only [State.tally, State.setThread]
  omega

theorem tally_setQueue {s : State} {i : Nat} {q : List Nat} (h : s.queues[i]? = some q)
    (q' : List Nat) (task : Nat) :
    State.tally { s with queues := s.queues.set i q' } task + q.count task =
      s.tally task + q'.count task := by
  have hsum := sum_map_set (List.count task) q' h
  simp only [State.tally]
  omega

/-- The task goes from the queue into the hands of the thread. -/
theorem tally_takeQueue {s : State} {thread i task₀ : Nat} {q q' : List Nat}
    {frames rest : List Frame} (hthread : s.threads[thread]? = some frames)
    (hframes : taken frames = taken rest) (hqueue : s.queues[i]? = some q)
    (hq : ∀ task, q.count task = q'.count task + [task₀].count task) (task : Nat) :
    (State.setThread { s with queues := s.queues.set i q' } thread
      (.running task₀ :: rest)).tally task = s.tally task := by
  have h₁ := tally_setQueue hqueue q' task
  have h₂ := tally_setThread (s := { s with queues := s.queues.set i q' }) hthread
    (.running task₀ :: rest) task
  have h₃ := hq task
  rw [taken_running, List.count_cons, hframes] at h₂
  simp only [List.count_singleton] at h₃
  omega

theorem tally_popLocal {s : State} {thread : Nat} {rest : List Frame}
    (h : s.threads[thread]? = some (.localQueue :: rest)) (task : Nat) :
    (s.popLocal thread rest).tally task = s.tally task := by
  unfold State.popLocal
  split
  · rename_i task₀ q hq
    refine tally_takeQueue h (taken_localQueue rest) hq (fun task => ?_) task
    rw [List.count_cons, List.count_singleton]
  · have := tally_setThread h (.poolQueue :: rest) task
    simpa using this

theorem tally_popPool {s : State} {thread : Nat} {rest : List Frame}
    (h : s.threads[thread]? = some (.poolQueue :: rest)) (task : Nat) :
    (s.popPool thread rest).tally task = s.tally task := by
  unfold State.popPool
  split
  · rename_i task₀ q hq
    have h₁ := tally_setThread (s := { s with poolQueue := q }) h (.running task₀ :: rest) task
    have h₂ : s.tally task = State.tally { s with poolQueue := q } task + [task₀].count task := by
      simp only [State.tally, hq, List.count_cons, List.count_nil]
      omega
    rw [taken_running, taken_poolQueue, List.count_cons] at h₁
    rw [List.count_singleton] at h₂
    omega
  · have := tally_setThread h (.steal 0 :: rest) task
    simpa using this

theorem tally_steal {s t : State} {thread i : Nat} {rest : List Frame}
    (h : s.threads[thread]? = some (.steal i :: rest)) (hstep : s.steal thread i rest = some t)
    (task : Nat) : t.tally task = s.tally task := by
  unfold State.steal at hstep
  split at hstep
  · dsimp only at hstep
    split at hstep
    · rename_i q hq
      split at hstep
      · rename_i task₀ hlast
        cases hstep
        refine tally_takeQueue h (taken_steal i rest) hq (fun task => ?_) task
        conv_lhs => rw [← List.dropLast_append_getLast? task₀ hlast]
        rw [List.count_append]
      · cases hstep
        have := tally_setThread h (.steal (i + 1) :: rest) task
        simpa using this
    · cases hstep
  · cases hstep
    have := tally_setThread h rest task
    simpa using this

theorem tally_submit (s : State) (thread task : Nat) :
    (s.submit thread).tally task = s.tally task + [s.submitted].count task := by
  unfold State.submit
  split
  · rename_i q hq
    have h₁ := tally_setQueue hq (s.submitted :: q) task
    have h₂ : State.tally { s with
          queues := s.queues.set thread (s.submitted :: q)
          submitted := s.submitted + 1 } task =
        State.tally { s with queues := s.queues.set thread (s.submitted :: q) } task := rfl
    rw [List.count_cons] at h₁
    rw [h₂, List.count_singleton]
    omega
  · simp only [State.tally, List.count_append]
    omega

theorem tally_finish {s : State} {thread task₀ : Nat} {rest : List Frame}
    (h : s.threads[thread]? = some (.running task₀ :: rest)) (task : Nat) :
    (State.setThread { s with finished := s.finished ++ [task₀] } thread rest).tally task =
      s.tally task := by
  have h₁ := tally_setThread (s := { s with finished := s.finished ++ [task₀] }) h rest task
  have h₂ : State.tally { s with finished := s.finished ++ [task₀] } task =
      s.tally task + [task₀].count task := by
    simp only [State.tally, List.count_append]
    omega
  rw [taken_running, List.count_cons] at h₁
  rw [List.count_singleton] at h₂
  omega

/-! ## The invariant -/

/-- Every submitted task is in one place, once, and the threads and queues are those of the start. -/
structure Inv (n m : Nat) (s : State) : Prop where
  tally_eq : ∀ task, s.tally task = if task < s.submitted then 1 else 0
  queues_length : s.queues.length = n
  threads_length : s.threads.length = n + m

theorem start_inv (n m : Nat) : Inv n m (start n m) := by
  refine ⟨?_, by simp [start], by simp [start]⟩
  intro task
  simp [start, State.tally, taken]

/-- What a step leaves as it is: the number of queues and of threads, and but for a `submit` the tasks
and where they may be. -/
theorem step_kept {s t : State} {e : Event} (h : step s e = some t) :
    t.queues.length = s.queues.length ∧ t.threads.length = s.threads.length ∧
      ((t.submitted = s.submitted ∧ ∀ task, t.tally task = s.tally task) ∨
        (t.submitted = s.submitted + 1 ∧
          ∀ task, t.tally task = s.tally task + [s.submitted].count task)) := by
  cases e with
  | submit thread =>
      simp only [step] at h
      split at h
      · split at h
        · cases h
          have htally := tally_submit s thread
          refine ⟨?_, ?_, Or.inr ⟨?_, htally⟩⟩ <;> unfold State.submit <;> split <;> simp
        · cases h
      · cases h
  | call thread =>
      simp only [step] at h
      split at h
      · rename_i frames hframes
        split at h
        · cases h
          refine ⟨rfl, by simp [State.setThread], Or.inl ⟨rfl, fun task => ?_⟩⟩
          have := tally_setThread hframes (.localQueue :: frames) task
          simpa using this
        · cases h
      · cases h
  | move thread =>
      simp only [step] at h
      split at h
      · rename_i rest hframes
        cases h
        refine ⟨?_, ?_, Or.inl ⟨?_, tally_popLocal hframes⟩⟩ <;> unfold State.popLocal <;> split <;>
          simp [State.setThread]
      · rename_i rest hframes
        cases h
        refine ⟨?_, ?_, Or.inl ⟨?_, tally_popPool hframes⟩⟩ <;> unfold State.popPool <;> split <;>
          simp [State.setThread]
      · rename_i i rest hframes
        have htally := tally_steal hframes h
        unfold State.steal at h
        split at h
        · dsimp only at h
          split at h
          · split at h <;> cases h <;> exact ⟨by simp [State.setThread], by simp [State.setThread],
              Or.inl ⟨rfl, htally⟩⟩
          · cases h
        · cases h
          exact ⟨rfl, by simp [State.setThread], Or.inl ⟨rfl, htally⟩⟩
      · rename_i task₀ rest hframes
        cases h
        exact ⟨rfl, by simp [State.setThread], Or.inl ⟨rfl, tally_finish hframes⟩⟩
      · cases h

theorem step_inv {n m : Nat} {s t : State} {e : Event} (h : Inv n m s)
    (hstep : step s e = some t) : Inv n m t := by
  obtain ⟨hqueues, hthreads, hsame | ⟨hnew, htally⟩⟩ := step_kept hstep
  · obtain ⟨hsub, htally⟩ := hsame
    refine ⟨fun task => ?_, hqueues.trans h.queues_length, hthreads.trans h.threads_length⟩
    rw [htally task, hsub]
    exact h.tally_eq task
  · refine ⟨fun task => ?_, hqueues.trans h.queues_length, hthreads.trans h.threads_length⟩
    have hbefore := h.tally_eq task
    rw [htally task, hnew, hbefore, List.count_singleton]
    -- only the task with the new number gains a place
    by_cases heq : s.submitted = task
    · subst heq
      simp
    · have hne : ¬ (s.submitted == task) = true := by simpa using heq
      rw [if_neg hne]
      split <;> split <;> omega

theorem Inv.places_perm {n m : Nat} {s : State} (h : Inv n m s) :
    s.places.Perm (List.range s.submitted) := by
  rw [List.perm_iff_count]
  intro task
  rw [State.count_places, h.tally_eq task, List.nodup_range.count]
  simp

/-! ## A call without interference -/

/-- Starting behind its own index and going once around, the steal loop comes to every queue. -/
theorem steal_visits {n my j : Nat} (hmy : my < n) (hj : j < n) :
    ∃ i < n, (my + i + 1) % n = j := by
  refine ⟨(j + (n - my - 1)) % n, Nat.mod_lt _ (by omega), ?_⟩
  -- from `my + 1` it is `j + (n - my - 1)` steps to `j`, up to whole turns
  have hsum : my + (j + (n - my - 1)) % n + 1 = (j + (n - my - 1)) % n + (my + 1) := by omega
  have hturn : j + (n - my - 1) + (my + 1) = j + n := by omega
  rw [hsum, Nat.mod_add_mod, hturn, Nat.add_mod_right, Nat.mod_eq_of_lt hj]

theorem myIndex_lt {s : State} (thread : Nat) (h : 0 < s.queues.length) :
    s.myIndex thread < s.queues.length := by
  unfold State.myIndex
  split <;> omega

/-- `k` moves of the thread, of which no other comes between, end in a task that was in a queue. -/
def RunsTask (s : State) (thread : Nat) (rest : List Frame) (k : Nat) : Prop :=
  ∃ t task, Run step s (List.replicate k (.move thread)) t ∧
    t.threads[thread]? = some (.running task :: rest) ∧ task ∈ s.poolQueue ++ s.queues.flatten

theorem getElem?_setThread {s : State} {thread : Nat} (h : thread < s.threads.length)
    (frames : List Frame) : (s.setThread thread frames).threads[thread]? = some frames := by
  simp [State.setThread, h]

theorem lt_of_frames {s : State} {thread : Nat} {frames : List Frame}
    (h : s.threads[thread]? = some frames) : thread < s.threads.length :=
  (List.getElem?_eq_some_iff.1 h).1

/-- A move that gets a task out of a queue is the last one needed. -/
theorem RunsTask.one {s : State} {thread task : Nat} {rest : List Frame} {t : State}
    (hstep : step s (.move thread) = some t)
    (hframes : t.threads[thread]? = some (.running task :: rest))
    (htask : task ∈ s.poolQueue ++ s.queues.flatten) : RunsTask s thread rest 1 :=
  ⟨t, task, Run.cons hstep (Run.nil t), hframes, htask⟩

/-- A move that finds its queue empty leaves the queues as they are. -/
theorem RunsTask.next {s t : State} {thread : Nat} {rest : List Frame} {k : Nat}
    (hstep : step s (.move thread) = some t) (hqueues : t.queues = s.queues)
    (hpool : t.poolQueue = s.poolQueue) (h : RunsTask t thread rest k) :
    RunsTask s thread rest (k + 1) := by
  obtain ⟨u, task, hrun, hframes, htask⟩ := h
  rw [hqueues, hpool] at htask
  exact ⟨u, task, Run.cons hstep hrun, hframes, htask⟩

/-- The steal loop, from any iteration on, gets a task if a queue that it still comes to has one. -/
theorem steal_runsTask {s : State} {thread i d : Nat} {rest : List Frame}
    (hframes : s.threads[thread]? = some (.steal i :: rest)) (hlt : i + d < s.queues.length)
    (hqueue : ∃ q ∈ s.queues[(s.myIndex thread + (i + d) + 1) % s.queues.length]?, q ≠ []) :
    ∃ k ≤ d + 1, RunsTask s thread rest k := by
  have hthread := lt_of_frames hframes
  have hn : 0 < s.queues.length := by omega
  have hidx : (s.myIndex thread + i + 1) % s.queues.length < s.queues.length := Nat.mod_lt _ hn
  obtain ⟨q, hq⟩ : ∃ q, s.queues[(s.myIndex thread + i + 1) % s.queues.length]? = some q :=
    ⟨_, List.getElem?_eq_getElem hidx⟩
  have hi : i < s.queues.length := by omega
  -- Induction on the distance to a queue with a task; the loop may find one before.
  cases hlast : q.getLast? with
  | some task =>
      have hstep : step s (.move thread) = some (State.setThread
          { s with queues := s.queues.set ((s.myIndex thread + i + 1) % s.queues.length) q.dropLast }
          thread (.running task :: rest)) := by
        simp only [step, hframes, State.steal, if_pos hi, hq, hlast]
      have htask : task ∈ s.queues.flatten :=
        List.mem_flatten.2 ⟨q, List.mem_of_getElem? hq, List.mem_of_getLast? hlast⟩
      exact ⟨1, by omega, RunsTask.one hstep (getElem?_setThread hthread _)
        (List.mem_append_right _ htask)⟩
  | none =>
      have hempty : q = [] := List.getLast?_eq_none_iff.1 hlast
      cases d with
      | zero =>
          obtain ⟨q', hq', hne⟩ := hqueue
          cases hq.symm.trans hq'
          exact absurd hempty hne
      | succ d =>
          have hstep : step s (.move thread) =
              some (s.setThread thread (.steal (i + 1) :: rest)) := by
            simp only [step, hframes, State.steal, if_pos hi, hq, hlast]
          have hshift : i + 1 + d = i + (d + 1) := by omega
          obtain ⟨k, hk, hruns⟩ := steal_runsTask (s := s.setThread thread (.steal (i + 1) :: rest))
            (d := d) (getElem?_setThread hthread _) (by rw [hshift]; exact hlt)
            (by rw [hshift]; exact hqueue)
          exact ⟨k + 1, by omega, hruns.next hstep rfl rfl⟩

/-- The queue of the pool, and then those of the workers. -/
theorem popPool_runsTask {s : State} {thread : Nat} {rest : List Frame}
    (hframes : s.threads[thread]? = some (.poolQueue :: rest))
    (hsome : s.poolQueue ≠ [] ∨ ∃ q ∈ s.queues, q ≠ []) :
    ∃ k ≤ s.queues.length + 1, RunsTask s thread rest k := by
  have hthread := lt_of_frames hframes
  cases hpool : s.poolQueue with
  | cons task q =>
      have hstep : step s (.move thread) =
          some (State.setThread { s with poolQueue := q } thread (.running task :: rest)) := by
        simp only [step, hframes, State.popPool, hpool]
      have htask : task ∈ s.poolQueue := by
        rw [hpool]
        exact List.mem_cons_self ..
      exact ⟨1, by omega, RunsTask.one hstep (getElem?_setThread hthread _)
        (List.mem_append_left _ htask)⟩
  | nil =>
      obtain ⟨q, hq, hne⟩ : ∃ q ∈ s.queues, q ≠ [] := by
        rcases hsome with hpool' | hqueue
        · exact absurd hpool hpool'
        · exact hqueue
      obtain ⟨j, hj, rfl⟩ := List.getElem_of_mem hq
      have hmy := myIndex_lt thread (Nat.lt_of_le_of_lt (Nat.zero_le j) hj)
      obtain ⟨i, hi, hij⟩ := steal_visits hmy hj
      have hstep : step s (.move thread) = some (s.setThread thread (.steal 0 :: rest)) := by
        simp only [step, hframes, State.popPool, hpool]
      have hsteal := steal_runsTask (s := s.setThread thread (.steal 0 :: rest)) (d := i)
        (getElem?_setThread hthread _) (by rw [Nat.zero_add]; exact hi)
        ⟨s.queues[j], by
          rw [Nat.zero_add]
          change s.queues[(s.myIndex thread + i + 1) % s.queues.length]? = _
          rw [hij, List.getElem?_eq_getElem hj], hne⟩
      obtain ⟨k, hk, hruns⟩ := hsteal
      exact ⟨k + 1, by omega, hruns.next hstep rfl rfl⟩

/-- The local queue first. -/
theorem popLocal_runsTask {s : State} {thread : Nat} {rest : List Frame}
    (hframes : s.threads[thread]? = some (.localQueue :: rest))
    (hsome : s.poolQueue ≠ [] ∨ ∃ q ∈ s.queues, q ≠ []) :
    ∃ k ≤ s.queues.length + 2, RunsTask s thread rest k := by
  have hthread := lt_of_frames hframes
  by_cases hlocal : ∃ task q, s.queues[thread]? = some (task :: q)
  · obtain ⟨task, q, hq⟩ := hlocal
    have hstep : step s (.move thread) = some (State.setThread
        { s with queues := s.queues.set thread q } thread (.running task :: rest)) := by
      simp only [step, hframes, State.popLocal, hq]
    have htask : task ∈ s.queues.flatten :=
      List.mem_flatten.2 ⟨_, List.mem_of_getElem? hq, List.mem_cons_self ..⟩
    exact ⟨1, by omega, RunsTask.one hstep (getElem?_setThread hthread _)
      (List.mem_append_right _ htask)⟩
  · have hstep : step s (.move thread) = some (s.setThread thread (.poolQueue :: rest)) := by
      simp only [step, hframes, State.popLocal]
      split
      · rename_i task q hq
        exact absurd ⟨task, q, hq⟩ hlocal
      · rfl
    obtain ⟨k, hk, hruns⟩ := popPool_runsTask (getElem?_setThread hthread (.poolQueue :: rest)) hsome
    exact ⟨k + 1, Nat.succ_le_succ hk, hruns.next hstep rfl rfl⟩

/-! ## The result -/

/-- In every state that any interleaving of `submit` and `run_pending_task` leads to, with any number of
workers and of other threads, the submitted tasks are in the queues, in the hands of the threads or
finished, each of them in one place and once; and a thread that calls `run_pending_task` while any queue
has a task comes, if no other thread moves, to run a task within `n + 2` steps. -/
theorem thread_pool_6_tasks {n m : Nat} {es : List Event} {s : State}
    (hrun : Run step (start n m) es s) :
    s.places.Perm (List.range s.submitted) ∧
      ∀ thread frames, s.threads[thread]? = some frames → atLarge frames = true →
        (s.poolQueue ≠ [] ∨ ∃ q ∈ s.queues, q ≠ []) →
          ∃ k ≤ n + 2, ∃ t task,
            Run step s (.call thread :: List.replicate k (.move thread)) t ∧
              t.threads[thread]? = some (.running task :: frames) ∧
              task ∈ s.poolQueue ++ s.queues.flatten := by
  have hinv : Inv n m s :=
    hrun.invariant (fun _ _ _ hs hstep => step_inv hs hstep) (start_inv n m)
  refine ⟨hinv.places_perm, ?_⟩
  intro thread frames hframes hlarge hsome
  have hthread := lt_of_frames hframes
  have hcall : step s (.call thread) = some (s.setThread thread (.localQueue :: frames)) := by
    simp only [step, hframes, hlarge, if_true]
  obtain ⟨k, hk, t, task, hmoves, hends, htask⟩ :=
    popLocal_runsTask (getElem?_setThread hthread (.localQueue :: frames)) hsome
  have hlen : k ≤ n + 2 := by
    have := hinv.queues_length
    change k ≤ s.queues.length + 2 at hk
    omega
  exact ⟨k, hlen, t, task, Run.cons hcall hmoves, hends, htask⟩

/-- Two workers and a thread outside the pool: a task submitted from outside runs on the first worker
and submits one to its local queue, which the second worker is to steal. -/
theorem thread_pool_6_tasks_stolen :
    ∃ s t : State, ∃ k task, Run step (start 2 1) [.submit 2, .call 0, .move 0, .move 0, .submit 0] s ∧
      s.places.Perm (List.range s.submitted) ∧
      Run step s (.call 1 :: List.replicate k (.move 1)) t ∧
      t.threads[1]? = some [.running task] ∧ task ∈ s.poolQueue ++ s.queues.flatten := by
  obtain ⟨s, hexec, hframes, hqueue⟩ : ∃ s, exec step (start 2 1)
      [.submit 2, .call 0, .move 0, .move 0, .submit 0] = some s ∧
        s.threads[1]? = some [] ∧ s.queues = [[1], []] := ⟨_, rfl, rfl, rfl⟩
  have hrun := run_of_exec hexec
  obtain ⟨hplaces, hcall⟩ := thread_pool_6_tasks hrun
  obtain ⟨k, -, t, task, hmoves, hends, htask⟩ :=
    hcall 1 [] hframes rfl (Or.inr ⟨[1], by simp [hqueue], by simp⟩)
  exact ⟨s, t, k, task, hrun, hplaces, hmoves, hends, htask⟩

end ThreadPool

end CppConcurrency
end MyCppCode
