import MyCppCode.Foundation.TransitionSystem

/-!
# NGrid — the recursive grid template of `professional_cpp/src/ch26_template/grid_v3_recursion.cc`

`NGrid<T, N>` holds a vector of `NGrid<T, N-1>`, down to the specialisation `NGrid<T, 1>` over a
vector of `T`.  The model recurses on the dimension in the same way: `NGrid T k` has `k + 1`
dimensions.

* `resize`, `construct`, `getSize`, `read`, `write` follow the template and its specialisation;
* `Cube` is what a grid is for: a side length and a total function on coordinates, which is `T()`
  outside the cube; every step of a grid is the step of its cube (`abs_step`), and so is every run
  (`run_abs`);
* `resize_of_run`: what a `resize` leaves after any sequence of operations.

A `resize` here is one that returns: `std::bad_alloc` and `std::length_error` are left out.
-/

namespace MyCppCode
namespace ProfessionalCpp

open Foundation

universe u

/-- `NGrid<T, N>` with `N = k + 1`, as its `m_elements`: of the specialisation for one dimension and
of the general template. -/
@[reducible] def NGrid (T : Type u) : Nat → Type u
  | 0 => List T
  | k + 1 => List (NGrid T k)

namespace NGrid

variable {T : Type u} {k : Nat}

/-! ## The template -/

/-- `std::vector::resize(n)`: cut, or fill up with copies of `d`. -/
def vectorResize {α : Type u} (v : List α) (n : Nat) (d : α) : List α :=
  v.take n ++ List.replicate (n - v.length) d

/-- A grid whose `m_elements` is the empty vector, as a constructor starts from. -/
def empty (T : Type u) : (k : Nat) → NGrid T k
  | 0 => []
  | _ + 1 => []

def DefaultSize : Nat := 10

/-- `resize(newsz)`.  A sub-grid that `m_elements.resize` appends is default-constructed, that is
resized to `DefaultSize` from nothing, before the loop resizes it. -/
def resize [Inhabited T] : (k : Nat) → NGrid T k → Nat → NGrid T k
  | 0, m_elements, newsz => vectorResize m_elements newsz default
  | k + 1, m_elements, newsz =>
      -- `m_elements.resize(newsz)`, then `e.resize(newsz)` for each
      (vectorResize m_elements newsz (resize k (empty T k) DefaultSize)).map
        fun e => resize k e newsz

/-- `NGrid(size)`. -/
def construct (T : Type u) [Inhabited T] (k size : Nat) : NGrid T k :=
  resize k (empty T k) size

def getSize : (k : Nat) → NGrid T k → Nat
  | 0, m_elements => m_elements.length
  | _ + 1, m_elements => m_elements.length

/-- `grid[x₁]...[x_N]`, read.  Outside a vector, and with another number of subscripts, there is no
element. -/
def read : (k : Nat) → NGrid T k → List Nat → Option T
  | 0, m_elements, [x] => m_elements[x]?
  | k + 1, m_elements, x :: xs => m_elements[x]?.bind fun e => read k e xs
  | _, _, _ => none

/-- `grid[x₁]...[x_N] = v`. -/
def write : (k : Nat) → NGrid T k → List Nat → T → Option (NGrid T k)
  | 0, m_elements, [x], v => m_elements[x]?.map fun _ => m_elements.set x v
  | k + 1, m_elements, x :: xs, v =>
      m_elements[x]?.bind fun e => (write k e xs v).map fun e' => m_elements.set x e'
  | _, _, _, _ => none

/-- What a program does to a grid; a `write` outside it is not a step. -/
inductive Op (T : Type u)
  | resize (newsz : Nat)
  | write (coordinates : List Nat) (value : T)

def step [Inhabited T] (g : NGrid T k) : Op T → Option (NGrid T k)
  | .resize newsz => some (resize k g newsz)
  | .write coordinates value => write k g coordinates value

/-! ## Shape -/

/-- Every nested `getSize()`, at every level, is `n`. -/
def IsCube (n : Nat) : (k : Nat) → NGrid T k → Prop
  | 0, m_elements => m_elements.length = n
  | k + 1, m_elements => m_elements.length = n ∧ ∀ e ∈ m_elements, IsCube n k e

/-- The coordinates of an element of the cube of side `n`. -/
structure Inside (k n : Nat) (xs : List Nat) : Prop where
  dimension : xs.length = k + 1
  below : ∀ x ∈ xs, x < n

instance decidableInside (k n : Nat) (xs : List Nat) : Decidable (Inside k n xs) :=
  decidable_of_iff (xs.length = k + 1 ∧ ∀ x ∈ xs, x < n)
    ⟨fun h => ⟨h.1, h.2⟩, fun h => ⟨h.dimension, h.below⟩⟩

theorem inside_singleton {n x : Nat} : Inside 0 n [x] ↔ x < n := by
  constructor
  · intro h
    exact h.below x (List.mem_singleton_self x)
  · intro hx
    exact ⟨rfl, by simpa using hx⟩

theorem inside_cons {n x : Nat} {xs : List Nat} :
    Inside (k + 1) n (x :: xs) ↔ x < n ∧ Inside k n xs := by
  constructor
  · intro h
    have hlength : xs.length = k + 1 := by simpa using h.dimension
    have hbelow := List.forall_mem_cons.mp h.below
    exact ⟨hbelow.1, hlength, hbelow.2⟩
  · rintro ⟨hx, hxs⟩
    refine ⟨?_, List.forall_mem_cons.mpr ⟨hx, hxs.below⟩⟩
    rw [List.length_cons, hxs.dimension]

theorem length_vectorResize {α : Type u} (v : List α) (n : Nat) (d : α) :
    (vectorResize v n d).length = n := by
  simp only [vectorResize, List.length_append, List.length_take, List.length_replicate]
  omega

/-- Below the new size, an element of the old vector stays and a missing one is `d`. -/
theorem getElem?_vectorResize {α : Type u} (v : List α) {n : Nat} (d : α) {x : Nat} (hx : x < n) :
    (vectorResize v n d)[x]? = some (v[x]?.getD d) := by
  rw [vectorResize]
  by_cases hv : x < v.length
  · have hlt : x < (v.take n).length := by
      rw [List.length_take]
      omega
    rw [List.getElem?_append_left hlt, List.getElem?_take_of_lt hx, List.getElem?_eq_getElem hv]
    rfl
  · have hge : (v.take n).length ≤ x := by
      rw [List.length_take]
      omega
    have hlt : x - (v.take n).length < n - v.length := by
      rw [List.length_take]
      omega
    rw [List.getElem?_append_right hge, List.getElem?_replicate, if_pos hlt,
      List.getElem?_eq_none (Nat.le_of_not_lt hv)]
    rfl

theorem isCube_resize [Inhabited T] (g : NGrid T k) (n : Nat) : IsCube n k (resize k g n) := by
  induction k with
  | zero =>
      exact length_vectorResize g n default
  | succ k ih =>
      constructor
      · rw [resize, List.length_map, length_vectorResize]
      · intro e he
        obtain ⟨old, _, rfl⟩ := List.mem_map.mp he
        exact ih old

theorem IsCube.getSize_eq {g : NGrid T k} {n : Nat} (h : IsCube n k g) : getSize k g = n := by
  cases k with
  | zero => exact h
  | succ k => exact h.1

/-! ## Reading -/

/-- With another number of subscripts there is no element. -/
theorem read_of_length_ne {g : NGrid T k} {xs : List Nat} (h : xs.length ≠ k + 1) :
    read k g xs = none := by
  induction k generalizing xs with
  | zero =>
      match xs with
      | [] => rfl
      | [x] => exact absurd rfl h
      | _ :: _ :: _ => rfl
  | succ k ih =>
      cases xs with
      | nil => rfl
      | cons x xs =>
          have hlength : xs.length ≠ k + 1 := fun hxs => h (by rw [List.length_cons, hxs])
          rw [read, Option.bind_eq_none_iff]
          intro e _
          exact ih hlength

/-- A cube has its elements exactly at the coordinates below its side. -/
theorem IsCube.isSome_read {g : NGrid T k} {n : Nat} (h : IsCube n k g) (xs : List Nat) :
    (read k g xs).isSome ↔ Inside k n xs := by
  by_cases hdim : xs.length = k + 1
  · induction k generalizing xs with
    | zero =>
        obtain ⟨x, rfl⟩ := List.length_eq_one_iff.mp hdim
        have hlength : g.length = n := h
        simp [read, inside_singleton, hlength]
    | succ k ih =>
        cases xs with
        | nil => cases hdim
        | cons x xs =>
            have hlength : g.length = n := h.1
            rw [inside_cons, read]
            by_cases hx : x < g.length
            · rw [List.getElem?_eq_getElem hx, Option.bind_some,
                ih (h.2 _ (List.getElem_mem hx)) xs (by simpa using hdim), ← hlength]
              simp [hx]
            · rw [← hlength]
              simp [hx]
  · rw [read_of_length_ne hdim]
    constructor
    · intro hs
      cases hs
    · intro hi
      exact absurd hi.dimension hdim

theorem read_empty (xs : List Nat) : read k (empty T k) xs = none := by
  cases k with
  | zero =>
      match xs with
      | [] => rfl
      | [_] => rfl
      | _ :: _ :: _ => rfl
  | succ k =>
      cases xs with
      | nil => rfl
      | cons x xs => rfl

/-- What a `resize` leaves, whatever the grid was: at every coordinate inside the new cube the old
element, or `T()` where there was none.  The sub-grids of `DefaultSize` that are appended on the way
have only `T()` in them, by the same statement one dimension below. -/
theorem read_resize [Inhabited T] (g : NGrid T k) {n : Nat} {xs : List Nat} (h : Inside k n xs) :
    read k (resize k g n) xs = some ((read k g xs).getD default) := by
  induction k generalizing n xs with
  | zero =>
      obtain ⟨x, rfl⟩ := List.length_eq_one_iff.mp h.dimension
      exact getElem?_vectorResize g default (inside_singleton.mp h)
  | succ k ih =>
      cases xs with
      | nil => cases h.dimension
      | cons x xs =>
          obtain ⟨hx, hxs⟩ := inside_cons.mp h
          -- where the vector has grown, the loop has resized a sub-grid that `resize` appended
          have hnew : (read k (resize k (empty T k) DefaultSize) xs).getD default = default := by
            by_cases hin : Inside k DefaultSize xs
            · rw [ih _ hin, read_empty]
              rfl
            · have hnone := mt ((isCube_resize (empty T k) DefaultSize).isSome_read xs).mp hin
              rw [Option.not_isSome_iff_eq_none.mp hnone]
              rfl
          rw [resize, read, List.getElem?_map, getElem?_vectorResize _ _ hx, Option.map_some,
            Option.bind_some, ih _ hxs, read]
          cases g[x]? with
          | none => simpa using hnew
          | some e => rfl

/-! ## Writing -/

/-- A write changes the element at its coordinates and no other, and exists there before. -/
theorem read_write {g g' : NGrid T k} {xs : List Nat} {v : T} (h : write k g xs v = some g')
    (ys : List Nat) : read k g' ys = if ys = xs then some v else read k g ys := by
  induction k generalizing xs ys with
  | zero =>
      match xs with
      | [] => cases h
      | _ :: _ :: _ => cases h
      | [x] =>
          obtain ⟨old, hold, rfl⟩ := Option.map_eq_some_iff.mp h
          have hx : x < g.length := (List.getElem?_eq_some_iff.mp hold).1
          match ys with
          | [] => simp [read]
          | _ :: _ :: _ => simp [read]
          | [y] =>
              by_cases hyx : y = x
              · subst hyx
                simp [read, hx]
              · have hne : x ≠ y := fun hxy => hyx hxy.symm
                simp [read, hyx, List.getElem?_set_ne hne]
  | succ k ih =>
      cases xs with
      | nil => cases h
      | cons x xs =>
          obtain ⟨e, he, hsome⟩ := Option.bind_eq_some_iff.mp h
          obtain ⟨e', he', rfl⟩ := Option.map_eq_some_iff.mp hsome
          have hx : x < g.length := (List.getElem?_eq_some_iff.mp he).1
          cases ys with
          | nil => simp [read]
          | cons y ys =>
              by_cases hyx : y = x
              · subst hyx
                simp only [read, List.getElem?_set_self hx, he, Option.bind_some, List.cons.injEq,
                  true_and]
                exact ih he' ys
              · have hne : x ≠ y := fun hxy => hyx hxy.symm
                simp [read, hyx, List.getElem?_set_ne hne]

theorem IsCube.write {g g' : NGrid T k} {n : Nat} {xs : List Nat} {v : T} (hg : IsCube n k g)
    (h : write k g xs v = some g') : IsCube n k g' := by
  induction k generalizing xs with
  | zero =>
      match xs with
      | [] => cases h
      | _ :: _ :: _ => cases h
      | [x] =>
          obtain ⟨old, _, rfl⟩ := Option.map_eq_some_iff.mp h
          exact List.length_set.trans hg
  | succ k ih =>
      cases xs with
      | nil => cases h
      | cons x xs =>
          obtain ⟨e, he, hsome⟩ := Option.bind_eq_some_iff.mp h
          obtain ⟨e', he', rfl⟩ := Option.map_eq_some_iff.mp hsome
          refine ⟨List.length_set.trans hg.1, ?_⟩
          intro d hd
          -- only the sub-grid at `x` has changed
          rcases List.mem_or_eq_of_mem_set hd with hold | rfl
          · exact hg.2 d hold
          · exact ih (hg.2 e (List.mem_of_getElem? he)) he'

/-! ## The cube a grid stands for -/

/-- A cube of elements: its side, and what stands at each coordinate tuple. -/
@[ext]
structure Cube (T : Type u) where
  side : Nat
  element : List Nat → T

/-- The abstract operations: a `resize` keeps what lies inside the new side and forgets the rest; a
write updates one element. -/
def Cube.step [Inhabited T] (k : Nat) (c : Cube T) : Op T → Cube T
  | .resize newsz => ⟨newsz, fun xs => if Inside k newsz xs then c.element xs else default⟩
  | .write coordinates value => ⟨c.side, Function.update c.element coordinates value⟩

def abs [Inhabited T] (g : NGrid T k) : Cube T :=
  ⟨getSize k g, fun xs => (read k g xs).getD default⟩

/-- A step of the grid is the step of the cube it stands for. -/
theorem abs_step [Inhabited T] {g g' : NGrid T k} {n : Nat} {op : Op T} (hg : IsCube n k g)
    (h : step g op = some g') : abs g' = Cube.step k (abs g) op := by
  cases op with
  | resize newsz =>
      cases h
      have hcube := isCube_resize g newsz
      ext xs
      · exact hcube.getSize_eq
      · by_cases hin : Inside k newsz xs
        · simp [abs, Cube.step, hin, read_resize g hin]
        · have hnone := mt (hcube.isSome_read xs).mp hin
          simp [abs, Cube.step, hin, Option.not_isSome_iff_eq_none.mp hnone]
  | write xs v =>
      ext ys
      · exact (hg.write h).getSize_eq.trans hg.getSize_eq.symm
      · by_cases hyx : ys = xs
        · simp [abs, Cube.step, read_write h, hyx]
        · simp [abs, Cube.step, read_write h, hyx]

/-! ## Runs -/

theorem IsCube.step [Inhabited T] {g g' : NGrid T k} {n : Nat} {op : Op T} (hg : IsCube n k g)
    (h : step g op = some g') : ∃ m, IsCube m k g' := by
  cases op with
  | resize newsz =>
      cases h
      exact ⟨newsz, isCube_resize g newsz⟩
  | write xs v =>
      exact ⟨n, hg.write h⟩

/-- Every reachable grid is a cube of side `getSize()`. -/
theorem run_isCube [Inhabited T] {size : Nat} {ops : List (Op T)} {g : NGrid T k}
    (hrun : Run step (construct T k size) ops g) : IsCube (getSize k g) k g := by
  have hcube : ∃ n, IsCube n k g := by
    -- the side changes along the run, so the invariant leaves it open
    refine hrun.invariant (I := fun g => ∃ n, IsCube n k g) ?_ ⟨size, isCube_resize (empty T k) size⟩
    rintro s op t ⟨n, hs⟩ hstep
    exact hs.step hstep
  obtain ⟨n, hn⟩ := hcube
  rwa [hn.getSize_eq]

/-- A run of the grid is the run of the cube it stands for. -/
theorem run_abs [Inhabited T] {n : Nat} {ops : List (Op T)} {g g' : NGrid T k}
    (hrun : Run step g ops g') (hg : IsCube n k g) :
    abs g' = ops.foldl (Cube.step k) (abs g) := by
  induction hrun generalizing n with
  | nil g => rfl
  | cons hstep _ ih =>
      obtain ⟨m, hm⟩ := hg.step hstep
      rw [ih hm, abs_step hg hstep, List.foldl_cons]

/-- After any sequence of operations, `resize(n)` leaves a cube of side `n` that keeps the elements
inside both the old and the new cube and has `T()` everywhere else. -/
theorem resize_of_run [Inhabited T] {size : Nat} {ops : List (Op T)} {g g' : NGrid T k} {n : Nat}
    (hrun : Run step (construct T k size) ops g) (hresize : step g (.resize n) = some g') :
    IsCube n k g' ∧
      ∀ xs, Inside k n xs →
        (Inside k (getSize k g) xs → read k g' xs = read k g xs ∧ (read k g' xs).isSome) ∧
        (¬ Inside k (getSize k g) xs → read k g' xs = some default) := by
  have hcube := run_isCube hrun
  obtain rfl : resize k g n = g' := by simpa [step] using hresize
  refine ⟨isCube_resize g n, ?_⟩
  intro xs hxs
  have hread := read_resize g hxs
  constructor
  · intro hold
    obtain ⟨v, hv⟩ := Option.isSome_iff_exists.mp ((hcube.isSome_read xs).mpr hold)
    rw [hread, hv]
    exact ⟨rfl, rfl⟩
  · intro hnew
    have hnone := mt (hcube.isSome_read xs).mp hnew
    rw [hread, Option.not_isSome_iff_eq_none.mp hnone]
    rfl

/-- A value lost by shrinking does not come back by growing. -/
theorem resize_of_run_shrink_grow :
    ∃ g g' : NGrid Nat 1,
      Run step (construct Nat 1 2) [.write [0, 0] 5, .write [1, 1] 7, .resize 1] g ∧
        step g (.resize 3) = some g' ∧ IsCube 3 1 g' ∧
        read 1 g' [0, 0] = some 5 ∧ read 1 g' [1, 1] = some 0 := by
  have hrun : Run step (construct Nat 1 2) [.write [0, 0] 5, .write [1, 1] 7, .resize 1] [[5]] :=
    run_of_exec (by decide +kernel)
  obtain ⟨hcube, helement⟩ := resize_of_run (n := 3) hrun rfl
  refine ⟨_, _, hrun, rfl, hcube, ?_, ?_⟩
  · have hold : Inside 1 (getSize (T := Nat) 1 [[5]]) [0, 0] := by decide
    exact ((helement [0, 0] (by decide)).1 hold).1
  · have hnew : ¬ Inside 1 (getSize (T := Nat) 1 [[5]]) [1, 1] := by decide
    exact (helement [1, 1] (by decide)).2 hnew

end NGrid

end ProfessionalCpp
end MyCppCode
