import MyCppCode.CppConcurrency.ParallelFind

/-!
# ParallelFindAsync — `parallel_find_async` over a tree of tasks

A call of `parallel_find_async_impl` on a long range hands its second half to `std::async` and calls
itself on the first; the tree of these calls is the state, together with the flag `done` that all of
them share.  An event says which call of the tree makes the next step; where that step is a
`std::async`, the event also says which launch policy it chose.

A task that is stopped early returns the end of its own range.  Its caller cannot tell this from a
range without a match, and need not: the flag goes up only at a match, and the call that found it
returns it, through every level above it.
-/

namespace MyCppCode
namespace CppConcurrency

open Foundation

universe u

namespace ParallelFindAsync

/-! ## Tasks -/

/-- What `std::async` does with its function. -/
inductive Launch
  | async
  | deferred
  deriving DecidableEq, Repr

/-- A call of `parallel_find_async_impl`.  In `split`, `waiting` and `dropping` the last task is that of
the future: deferred, it waits for `get`. -/
inductive Task
  | entry (fst lst : Nat)
  | test (fst lst : Nat)
  | compare (fst lst : Nat)
  | found (fst : Nat)
  | split (md : Nat) (launch : Launch) (first second : Task)
  | waiting (second : Task)
  | dropping (res : Nat) (launch : Launch) (second : Task)
  | returned (res : Nat)
  deriving DecidableEq, Repr

/-- Which call of the tree moves. -/
inductive Event
  | here (launch : Launch)
  | first (e : Event)
  | second (e : Event)
  deriving DecidableEq, Repr

def minPerTh : Nat := 25

section Model

variable {α : Type u} [BEq α] (xs : List α) (value : α)

/-- One step of a call or of a call below it: the call and the flag afterwards.  `res.get()` waits for
the task, a deferred one being run by the call that waits; the destructor of the future waits for an
asynchronous one. -/
def taskStep : Task → Bool → Event → Option (Task × Bool)
  | .entry fst lst, done, .here launch =>
      if lst - fst < 2 * minPerTh then some (.test fst lst, done)
      else
        let md := fst + (lst - fst) / 2
        some (.split md launch (.entry fst md) (.entry md lst), done)
  -- the loop of the short range; stopped by the flag, it returns its own `lst`
  | .test fst lst, done, .here _ =>
      if fst ≠ lst ∧ done = false then some (.compare fst lst, done) else some (.returned lst, done)
  | .compare fst lst, done, .here _ =>
      match xs[fst]? with
      | some x => if x == value then some (.found fst, done) else some (.test (fst + 1) lst, done)
      | none => none
  | .found fst, _, .here _ => some (.returned fst, true)
  -- `(res2 == md) ? res.get() : res2`
  | .split md launch (.returned res) second, done, .here _ =>
      if res = md then some (.waiting second, done) else some (.dropping res launch second, done)
  | .split md launch first second, done, .first e =>
      match taskStep first done e with
      | some (first', done') => some (.split md launch first' second, done')
      | none => none
  -- an asynchronous half moves at any time, a deferred one only inside `get`
  | .split md .async first second, done, .second e =>
      match taskStep second done e with
      | some (second', done') => some (.split md .async first second', done')
      | none => none
  | .waiting (.returned res), done, .here _ => some (.returned res, done)
  | .waiting second, done, .second e =>
      match taskStep second done e with
      | some (second', done') => some (.waiting second', done')
      | none => none
  | .dropping res .deferred _, done, .here _ => some (.returned res, done)
  | .dropping res .async (.returned _), done, .here _ => some (.returned res, done)
  | .dropping res .async second, done, .second e =>
      match taskStep second done e with
      | some (second', done') => some (.dropping res .async second', done')
      | none => none
  | _, _, _ => none

def step (s : Task × Bool) (e : Event) : Option (Task × Bool) := taskStep xs value s.1 s.2 e

/-- The call of `parallel_find_async`. -/
def start : Task × Bool := (.entry 0 xs.length, false)

end Model

/-! ## What a step can do -/

section Inversion

variable {α : Type u} [BEq α] {xs : List α} {value : α}

/-- The moves of a call, and of the calls below it. -/
inductive Moves (xs : List α) (value : α) : Task → Bool → Task → Bool → Prop where
  | leaf {fst lst : Nat} {d : Bool} : lst - fst < 2 * minPerTh →
      Moves xs value (.entry fst lst) d (.test fst lst) d
  | fork {fst lst md : Nat} {launch : Launch} {d : Bool} : ¬ lst - fst < 2 * minPerTh →
      md = fst + (lst - fst) / 2 →
      Moves xs value (.entry fst lst) d (.split md launch (.entry fst md) (.entry md lst)) d
  | stop {fst lst : Nat} {d : Bool} : fst = lst ∨ d = true →
      Moves xs value (.test fst lst) d (.returned lst) d
  | look {fst lst : Nat} {d : Bool} : fst ≠ lst →
      Moves xs value (.test fst lst) d (.compare fst lst) d
  | mismatch {fst lst : Nat} {d : Bool} : ¬ Matches xs value fst →
      Moves xs value (.compare fst lst) d (.test (fst + 1) lst) d
  | hit {fst lst : Nat} {d : Bool} : Matches xs value fst →
      Moves xs value (.compare fst lst) d (.found fst) d
  | raise {fst : Nat} {d : Bool} : Moves xs value (.found fst) d (.returned fst) true
  | wait {md : Nat} {launch : Launch} {second : Task} {d : Bool} :
      Moves xs value (.split md launch (.returned md) second) d (.waiting second) d
  | keep {md res : Nat} {launch : Launch} {second : Task} {d : Bool} : res ≠ md →
      Moves xs value (.split md launch (.returned res) second) d (.dropping res launch second) d
  | get {res : Nat} {d : Bool} : Moves xs value (.waiting (.returned res)) d (.returned res) d
  | drop {res : Nat} {launch : Launch} {second : Task} {d : Bool} :
      Moves xs value (.dropping res launch second) d (.returned res) d
  | inFirst {md : Nat} {launch : Launch} {first first' second : Task} {d d' : Bool} :
      Moves xs value first d first' d' →
      Moves xs value (.split md launch first second) d (.split md launch first' second) d'
  | inSecond {md : Nat} {first second second' : Task} {d d' : Bool} :
      Moves xs value second d second' d' →
      Moves xs value (.split md .async first second) d (.split md .async first second') d'
  | inWaiting {second second' : Task} {d d' : Bool} :
      Moves xs value second d second' d' →
      Moves xs value (.waiting second) d (.waiting second') d'
  | inDropping {res : Nat} {second second' : Task} {d d' : Bool} :
      Moves xs value second d second' d' →
      Moves xs value (.dropping res .async second) d (.dropping res .async second') d'

theorem taskStep_moves {t t' : Task} {d d' : Bool} {e : Event}
    (h : taskStep xs value t d e = some (t', d')) : Moves xs value t d t' d' := by
  fun_induction taskStep xs value t d e generalizing t' d' with
  | case1 fst lst done launch hlt =>
      cases h
      exact .leaf hlt
  | case2 fst lst done launch hge =>
      cases h
      exact .fork hge rfl
  | case3 fst lst done launch hgo =>
      cases h
      exact .look hgo.1
  | case4 fst lst done launch hstop =>
      cases h
      refine .stop ?_
      by_contra hgo
      rw [not_or] at hgo
      exact hstop ⟨hgo.1, by simpa using hgo.2⟩
  | case5 fst lst done launch x hx heq =>
      cases h
      exact .hit ⟨x, hx, heq⟩
  | case6 fst lst done launch x hx hne =>
      cases h
      refine .mismatch ?_
      rintro ⟨y, hy, heq⟩
      cases hx.symm.trans hy
      exact hne heq
  | case8 fst done launch =>
      cases h
      exact .raise
  | case9 launch md second done =>
      cases h
      exact .wait
  | case10 md launch res second done _ hne =>
      cases h
      exact .keep hne
  | case11 md launch first second done e first' done' hstep ih =>
      cases h
      exact .inFirst (ih hstep)
  | case13 md first second done e second' done' hstep ih =>
      cases h
      exact .inSecond (ih hstep)
  | case15 res done launch =>
      cases h
      exact .get
  | case16 second done e second' done' hstep ih =>
      cases h
      exact .inWaiting (ih hstep)
  | case18 res second done launch =>
      cases h
      exact .drop
  | case19 res res' done launch =>
      cases h
      exact .drop
  | case20 res second done e second' done' hstep ih =>
      cases h
      exact .inDropping (ih hstep)
  | _ =>
      cases h

end Inversion

/-! ## The invariant -/

section Invariant

variable {α : Type u} [BEq α] {xs : List α} {value : α}

/-- No match from `lo` to `hi`. -/
def Clear (xs : List α) (value : α) (lo hi : Nat) : Prop :=
  ∀ i, lo ≤ i → i < hi → ¬ Matches xs value i

/-- What is known about a call on the range from `lo` to `hi`.  A call that has come to the end of its
range without a match may have been stopped early, but only if the flag is up. -/
def Sound (xs : List α) (value : α) (done : Bool) : Nat → Nat → Task → Prop
  | lo, hi, .entry fst lst => fst = lo ∧ lst = hi ∧ lo ≤ hi
  | lo, hi, .test fst lst => lst = hi ∧ lo ≤ fst ∧ fst ≤ hi ∧ Clear xs value lo fst
  | lo, hi, .compare fst lst => lst = hi ∧ lo ≤ fst ∧ fst < hi ∧ Clear xs value lo fst
  | lo, hi, .found fst => lo ≤ fst ∧ fst < hi ∧ Matches xs value fst
  | lo, hi, .split md _ first second =>
      lo ≤ md ∧ md ≤ hi ∧ Sound xs value done lo md first ∧ Sound xs value done md hi second
  | lo, hi, .waiting second =>
      ∃ md, lo ≤ md ∧ md ≤ hi ∧ (done = true ∨ Clear xs value lo md) ∧
        Sound xs value done md hi second
  | lo, hi, .dropping res _ second =>
      lo ≤ res ∧ res < hi ∧ Matches xs value res ∧ ∃ md, Sound xs value done md hi second
  | lo, hi, .returned res =>
      (res = hi ∧ (done = true ∨ Clear xs value lo hi)) ∨
        (lo ≤ res ∧ res < hi ∧ Matches xs value res)

/-- The call, on a range up to `hi`, is bound to return a match. -/
def Found : Nat → Task → Prop
  | _, .entry _ _ => False
  | _, .test _ _ => False
  | _, .compare _ _ => False
  | _, .found _ => True
  | hi, .split md _ first second => Found md first ∨ Found hi second
  | hi, .waiting second => Found hi second
  | _, .dropping _ _ _ => True
  | hi, .returned res => res ≠ hi

/-- The flag stays up. -/
theorem Moves.done_mono {t t' : Task} {d d' : Bool} (h : Moves xs value t d t' d') :
    d = true → d' = true := by
  induction h with
  | raise => exact fun _ => rfl
  | inFirst _ ih => exact ih
  | inSecond _ ih => exact ih
  | inWaiting _ ih => exact ih
  | inDropping _ ih => exact ih
  | _ => exact id

theorem Sound.mono {d d' : Bool} (hd : d = true → d' = true) {t : Task} {lo hi : Nat}
    (h : Sound xs value d lo hi t) : Sound xs value d' lo hi t := by
  induction t generalizing lo hi with
  | entry fst lst => exact h
  | test fst lst => exact h
  | compare fst lst => exact h
  | found fst => exact h
  | split md launch first second ih₁ ih₂ =>
      obtain ⟨h₁, h₂, hfirst, hsecond⟩ := h
      exact ⟨h₁, h₂, ih₁ hfirst, ih₂ hsecond⟩
  | waiting second ih =>
      obtain ⟨md, h₁, h₂, hclear, hsecond⟩ := h
      exact ⟨md, h₁, h₂, hclear.imp_left hd, ih hsecond⟩
  | dropping res launch second ih =>
      obtain ⟨h₁, h₂, hmatch, md, hsecond⟩ := h
      exact ⟨h₁, h₂, hmatch, md, ih hsecond⟩
  | returned res =>
      rcases h with ⟨hres, hclear⟩ | hmatch
      · exact Or.inl ⟨hres, hclear.imp_left hd⟩
      · exact Or.inr hmatch

theorem Clear.append {lo md hi : Nat} (h₁ : Clear xs value lo md) (h₂ : Clear xs value md hi) :
    Clear xs value lo hi := by
  intro i hlo hhi
  rcases Nat.lt_or_ge i md with hlt | hge
  · exact h₁ i hlo hlt
  · exact h₂ i hge hhi

/-- Every move keeps what is known about the call. -/
theorem Moves.sound {t t' : Task} {d d' : Bool} (h : Moves xs value t d t' d') {lo hi : Nat}
    (hs : Sound xs value d lo hi t) : Sound xs value d' lo hi t' := by
  induction h generalizing lo hi with
  | leaf hlt =>
      obtain ⟨rfl, rfl, hle⟩ := hs
      exact ⟨rfl, le_refl _, hle, fun i hlo hhi => absurd hhi (Nat.not_lt.2 hlo)⟩
  | fork hge hmd =>
      obtain ⟨rfl, rfl, hle⟩ := hs
      exact ⟨by omega, by omega, ⟨rfl, rfl, by omega⟩, rfl, rfl, by omega⟩
  | stop hend =>
      obtain ⟨rfl, hlo, hhi, hclear⟩ := hs
      refine Or.inl ⟨rfl, ?_⟩
      rcases hend with rfl | hdone
      · exact Or.inr hclear
      · exact Or.inl hdone
  | look hne =>
      obtain ⟨rfl, hlo, hhi, hclear⟩ := hs
      exact ⟨rfl, hlo, lt_of_le_of_ne hhi hne, hclear⟩
  | mismatch hno =>
      obtain ⟨rfl, hlo, hhi, hclear⟩ := hs
      refine ⟨rfl, Nat.le_succ_of_le hlo, hhi, ?_⟩
      intro i hi hlt
      rcases Nat.lt_succ_iff_lt_or_eq.1 hlt with hlt | rfl
      · exact hclear i hi hlt
      · exact hno
  | hit hyes =>
      obtain ⟨-, hlo, hhi, -⟩ := hs
      exact ⟨hlo, hhi, hyes⟩
  | raise =>
      exact Or.inr hs
  | wait =>
      obtain ⟨h₁, h₂, hfirst, hsecond⟩ := hs
      -- The first half came to its end: clear, or stopped because the flag was up.
      rcases hfirst with ⟨-, hclear⟩ | ⟨-, hlt, -⟩
      · exact ⟨_, h₁, h₂, hclear, hsecond⟩
      · exact absurd hlt (lt_irrefl _)
  | keep hne =>
      obtain ⟨h₁, h₂, hfirst, hsecond⟩ := hs
      rcases hfirst with ⟨heq, -⟩ | ⟨hlo, hlt, hmatch⟩
      · exact absurd heq hne
      · exact ⟨hlo, lt_of_lt_of_le hlt h₂, hmatch, _, hsecond⟩
  | get =>
      obtain ⟨md, h₁, h₂, hclear, hsecond⟩ := hs
      -- Both halves without a match make a range without one.
      rcases hsecond with ⟨heq, hclear'⟩ | ⟨hlo, hlt, hmatch⟩
      · refine Or.inl ⟨heq, ?_⟩
        rcases hclear with hdone | hclear
        · exact Or.inl hdone
        · exact hclear'.imp_right hclear.append
      · exact Or.inr ⟨le_trans h₁ hlo, hlt, hmatch⟩
  | drop =>
      obtain ⟨h₁, h₂, hmatch, -⟩ := hs
      exact Or.inr ⟨h₁, h₂, hmatch⟩
  | inFirst hmove ih =>
      obtain ⟨h₁, h₂, hfirst, hsecond⟩ := hs
      exact ⟨h₁, h₂, ih hfirst, hsecond.mono hmove.done_mono⟩
  | inSecond hmove ih =>
      obtain ⟨h₁, h₂, hfirst, hsecond⟩ := hs
      exact ⟨h₁, h₂, hfirst.mono hmove.done_mono, ih hsecond⟩
  | inWaiting hmove ih =>
      obtain ⟨md, h₁, h₂, hclear, hsecond⟩ := hs
      exact ⟨md, h₁, h₂, hclear.imp_left hmove.done_mono, ih hsecond⟩
  | inDropping hmove ih =>
      obtain ⟨h₁, h₂, hmatch, md, hsecond⟩ := hs
      exact ⟨h₁, h₂, hmatch, md, ih hsecond⟩

/-- A call that is bound to return a match stays so, and the move that raises the flag is made by a call
that is. -/
theorem Moves.found {t t' : Task} {d d' : Bool} (h : Moves xs value t d t' d') {lo hi : Nat}
    (hs : Sound xs value d lo hi t) :
    (Found hi t → Found hi t') ∧ (d = false → d' = true → Found hi t') := by
  induction h generalizing lo hi with
  | raise =>
      obtain ⟨-, hlt, -⟩ := hs
      exact ⟨fun _ => Nat.ne_of_lt hlt, fun _ _ => Nat.ne_of_lt hlt⟩
  | wait =>
      refine ⟨?_, fun hd hd' => absurd (hd.symm.trans hd') (by simp)⟩
      -- the first half returned its end, so it is the second that has the match
      rintro (hfirst | hsecond)
      · exact absurd rfl hfirst
      · exact hsecond
  | keep hne =>
      exact ⟨fun _ => trivial, fun _ _ => trivial⟩
  | get =>
      exact ⟨id, fun hd hd' => absurd (hd.symm.trans hd') (by simp)⟩
  | drop =>
      obtain ⟨-, hlt, -⟩ := hs
      exact ⟨fun _ => Nat.ne_of_lt hlt, fun _ _ => Nat.ne_of_lt hlt⟩
  | inFirst hmove ih =>
      obtain ⟨-, -, hfirst, -⟩ := hs
      obtain ⟨hkeep, hraise⟩ := ih hfirst
      exact ⟨fun hf => hf.imp_left hkeep, fun hd hd' => Or.inl (hraise hd hd')⟩
  | inSecond hmove ih =>
      obtain ⟨-, -, -, hsecond⟩ := hs
      obtain ⟨hkeep, hraise⟩ := ih hsecond
      exact ⟨fun hf => hf.imp_right hkeep, fun hd hd' => Or.inr (hraise hd hd')⟩
  | inWaiting hmove ih =>
      obtain ⟨md, -, -, -, hsecond⟩ := hs
      exact ih hsecond
  | inDropping hmove ih =>
      exact ⟨fun _ => trivial, fun _ _ => trivial⟩
  | hit hyes =>
      exact ⟨fun hf => absurd hf id, fun _ _ => trivial⟩
  | _ =>
      exact ⟨fun hf => absurd hf id, fun hd hd' => absurd (hd.symm.trans hd') (by simp)⟩

end Invariant

/-! ## Termination -/

section Termination

variable {α : Type u} [BEq α] {xs : List α} {value : α}

/-- An upper bound for the steps that are left to a call and to the calls below it.  Both halves of a
range that is split are long enough to pay for the split. -/
def Task.rank : Task → Nat
  | .entry fst lst => 3 * (lst - fst) + 5 + (lst - fst - 15)
  | .test fst lst => 3 * (lst - fst) + 4
  | .compare fst lst => 3 * (lst - fst) + 3
  | .found _ => 1
  | .split _ _ first second => first.rank + second.rank + 3
  | .waiting second => second.rank + 1
  | .dropping _ _ second => second.rank + 1
  | .returned _ => 0

theorem Moves.rank_lt {t t' : Task} {d d' : Bool} (h : Moves xs value t d t' d') {lo hi : Nat}
    (hs : Sound xs value d lo hi t) : t'.rank < t.rank := by
  induction h generalizing lo hi with
  | fork hge hmd =>
      -- each half has at least `minPerTh` elements, more than the 15 that the rank leaves out
      have hmin : minPerTh = 25 := rfl
      simp only [Task.rank]
      omega
  | mismatch _ =>
      obtain ⟨rfl, -, hlt, -⟩ := hs
      simp only [Task.rank]
      omega
  | inFirst _ ih =>
      obtain ⟨-, -, hfirst, -⟩ := hs
      have := ih hfirst
      simp only [Task.rank]
      omega
  | inSecond _ ih =>
      obtain ⟨-, -, -, hsecond⟩ := hs
      have := ih hsecond
      simp only [Task.rank]
      omega
  | inWaiting _ ih =>
      obtain ⟨md, -, -, -, hsecond⟩ := hs
      have := ih hsecond
      simp only [Task.rank]
      omega
  | inDropping _ ih =>
      obtain ⟨-, -, -, md, hsecond⟩ := hs
      have := ih hsecond
      simp only [Task.rank]
      omega
  | _ =>
      simp only [Task.rank]
      omega

/-- A call that has not returned can go on, or a call that it waits for can. -/
theorem exists_taskStep {t : Task} {d : Bool} {lo hi : Nat} (hs : Sound xs value d lo hi t)
    (hhi : hi ≤ xs.length) (hnot : ∀ res, t ≠ .returned res) :
    ∃ e r, taskStep xs value t d e = some r := by
  induction t generalizing lo hi with
  | entry fst lst =>
      refine ⟨.here .async, ?_⟩
      simp only [taskStep]
      split <;> exact ⟨_, rfl⟩
  | test fst lst =>
      refine ⟨.here .async, ?_⟩
      simp only [taskStep]
      split <;> exact ⟨_, rfl⟩
  | compare fst lst =>
      obtain ⟨-, -, hlt, -⟩ := hs
      refine ⟨.here .async, ?_⟩
      simp only [taskStep, List.getElem?_eq_getElem (lt_of_lt_of_le hlt hhi)]
      split <;> exact ⟨_, rfl⟩
  | found fst =>
      exact ⟨.here .async, _, rfl⟩
  | split md launch first second ih₁ ih₂ =>
      obtain ⟨-, hmd, hfirst, -⟩ := hs
      by_cases hret : ∃ res, first = .returned res
      · obtain ⟨res, rfl⟩ := hret
        refine ⟨.here .async, ?_⟩
        simp only [taskStep]
        split <;> exact ⟨_, rfl⟩
      · obtain ⟨e, r, hstep⟩ := ih₁ hfirst (le_trans hmd hhi) fun res heq => hret ⟨res, heq⟩
        exact ⟨.first e, _, by simp only [taskStep, hstep]; rfl⟩
  | waiting second ih =>
      obtain ⟨md, -, -, -, hsecond⟩ := hs
      by_cases hret : ∃ res, second = .returned res
      · obtain ⟨res, rfl⟩ := hret
        exact ⟨.here .async, _, rfl⟩
      · obtain ⟨e, r, hstep⟩ := ih hsecond hhi fun res heq => hret ⟨res, heq⟩
        exact ⟨.second e, _, by simp only [taskStep, hstep]; rfl⟩
  | dropping res launch second ih =>
      obtain ⟨-, -, -, md, hsecond⟩ := hs
      cases launch with
      | deferred => exact ⟨.here .async, _, rfl⟩
      | async =>
          by_cases hret : ∃ res, second = .returned res
          · obtain ⟨res', rfl⟩ := hret
            exact ⟨.here .async, _, rfl⟩
          · obtain ⟨e, r, hstep⟩ := ih hsecond hhi fun res heq => hret ⟨res, heq⟩
            exact ⟨.second e, _, by simp only [taskStep, hstep]; rfl⟩
  | returned res => exact absurd rfl (hnot res)

end Termination

/-! ## The result -/

section Result

variable {α : Type u} [BEq α] {xs : List α} {value : α}

/-- The whole call is sound for the whole range, and the flag is up only if it is bound to return a
match. -/
def Inv (xs : List α) (value : α) (s : Task × Bool) : Prop :=
  Sound xs value s.2 0 xs.length s.1 ∧ (s.2 = true → Found xs.length s.1)

theorem start_inv (xs : List α) (value : α) : Inv xs value (start xs) :=
  ⟨⟨rfl, rfl, Nat.zero_le _⟩, fun h => absurd h (by simp [start])⟩

theorem step_inv {s t : Task × Bool} {e : Event} (h : Inv xs value s)
    (hstep : step xs value s e = some t) : Inv xs value t ∧ t.1.rank < s.1.rank := by
  have hmoves : Moves xs value s.1 s.2 t.1 t.2 := taskStep_moves hstep
  obtain ⟨hsound, hfound⟩ := h
  obtain ⟨hkeep, hraise⟩ := hmoves.found hsound
  refine ⟨⟨hmoves.sound hsound, ?_⟩, hmoves.rank_lt hsound⟩
  intro hdone
  cases hd : s.2 with
  | false => exact hraise hd hdone
  | true => exact hkeep (hfound hd)

theorem Inv.correct {s : Task × Bool} (h : Inv xs value s) {res : Nat} (hres : s.1 = .returned res) :
    Correct xs value res := by
  obtain ⟨hsound, hfound⟩ := h
  rw [hres] at hsound hfound
  rcases hsound with ⟨rfl, hclear⟩ | ⟨-, -, hmatch⟩
  · -- The end of the range although the flag is up would be a match that was lost.
    rcases hclear with hdone | hclear
    · exact absurd rfl (hfound hdone)
    · exact Or.inl ⟨rfl, fun i hi => hclear i (Nat.zero_le i) hi.lt hi⟩
  · exact Or.inr hmatch

/-- `parallel_find_async` over any sequence, value, launch policies and interleaving: it makes a bounded
number of steps and can always make the next one until it returns, and it returns `lst` exactly if no
element equals the value and the position of an equal element otherwise. -/
theorem parallel_find_async_correct (xs : List α) (value : α) {es : List Event} {s : Task × Bool}
    (hrun : Run (step xs value) (start xs) es s) :
    es.length ≤ 4 * xs.length + 5 ∧
      ((∃ res, s.1 = .returned res) ∨ ∃ e t, step xs value s e = some t) ∧
      ∀ res, s.1 = .returned res →
        (res = xs.length ↔ ∀ x ∈ xs, (x == value) = false) ∧
          (res ≠ xs.length → Matches xs value res) := by
  have hinv : Inv xs value s :=
    hrun.invariant (fun _ _ _ hs hstep => (step_inv hs hstep).1) (start_inv xs value)
  refine ⟨?_, ?_, fun res hres => (hinv.correct hres).result⟩
  · have hlen : es.length + s.1.rank ≤ (start xs).1.rank :=
      hrun.length_add_le (fun _ _ _ hs hstep => step_inv hs hstep) (start_inv xs value)
    simp only [start, Task.rank] at hlen
    omega
  · by_cases hret : ∃ res, s.1 = .returned res
    · exact Or.inl hret
    · exact Or.inr (exists_taskStep hinv.1 (le_refl _) fun res hres => hret ⟨res, hres⟩)

/-- Fifty elements that all match: the asynchronous second half finds its own first, the first half is
stopped by the flag, and the match comes back through `get`. -/
theorem parallel_find_async_correct_stopped :
    ∃ s : Task × Bool, Run (step (List.replicate 50 7) 7) (start (List.replicate 50 7))
        [.here .async, .second (.here .async), .second (.here .async), .second (.here .async),
          .second (.here .async), .first (.here .async), .first (.here .async), .here .async,
          .here .async] s ∧
      s.1 = .returned 25 ∧ Matches (List.replicate 50 7) 7 25 := by
  obtain ⟨s, hexec, hres⟩ : ∃ s, exec (step (List.replicate 50 7) 7) (start (List.replicate 50 7))
      [.here .async, .second (.here .async), .second (.here .async), .second (.here .async),
        .second (.here .async), .first (.here .async), .first (.here .async), .here .async,
        .here .async] = some s ∧ s.1 = .returned 25 :=
    ⟨_, rfl, rfl⟩
  have hrun := run_of_exec hexec
  obtain ⟨-, -, hresult⟩ := parallel_find_async_correct (List.replicate 50 7) 7 hrun
  exact ⟨s, hrun, hres, (hresult 25 hres).2 (by decide)⟩

end Result

end ParallelFindAsync

end CppConcurrency
end MyCppCode
