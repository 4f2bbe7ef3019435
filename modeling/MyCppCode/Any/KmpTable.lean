import MyCppCode.Any.Kmp

/-!
# KmpTable — the table that `KMP::initNext` fills

After a mismatch `initNext` goes on with `nxt[i]`, the longest border of the prefix that includes the
mismatched character, where `checkPrefixSuffix` takes the one of the prefix before it.

* `Detour p j i k`: going on like this from `i`, while the character at `j` does not match, ends at `k`;
* `fallBack_of_detour`, `detour_of_fallBack`: as long as the table is right, this is what the inner loop
  does;
* `fillsSameTable_iff`: the patterns for which `initNext` ends with the table of `checkPrefixSuffix`;
* `initNext_returns_iff`: the patterns for which it ends at all.
-/

namespace MyCppCode
namespace Any
namespace Kmp

open Foundation

/-! ## Detours -/

/-- From the length `i`, while `p[i]` is not `p[j]` and `i` is not 0, to the longest border of the prefix
up to and including `p[i]`. -/
inductive Detour (p : List UInt8) (j : Nat) : Nat → Nat → Prop where
  | stop {i : Nat} : p[i]? = p[j]? ∨ i = 0 → Detour p j i i
  | back {i k : Nat} : p[i]? ≠ p[j]? → 0 < i → Detour p j (border p (i + 1)) k → Detour p j i k

/-- A border that leads back to itself is never left. -/
theorem not_detour_of_loop {p : List UInt8} {j i k : Nat} (hne : p[i]? ≠ p[j]?) (hpos : 0 < i)
    (hloop : border p (i + 1) = i) : ¬ Detour p j i k := by
  intro h
  induction h with
  | stop hstop =>
      rcases hstop with heq | rfl
      · exact hne heq
      · exact Nat.lt_irrefl 0 hpos
  | back _ _ _ ih =>
      rw [hloop] at ih
      exact ih hne hpos hloop

/-- Where the loop of `initNext` goes, as long as the table before `j` is right. -/
theorem fallBack_of_detour {p : List UInt8} {nxt : List Nat} {j i k fuel : Nat} (hj : j < p.length)
    (hnxt : Filled (fun k => border p (k + 1)) p.length j nxt) (h : Detour p j i k) (hi : i < j)
    (hfuel : i < fuel) :
    fallBack (fun i => i) p nxt j fuel i = .ok k ∧ k < j ∧ (p[k]? = p[j]? ∨ k = 0) := by
  induction h generalizing fuel with
  | @stop i hstop =>
      obtain ⟨fuel, rfl⟩ : ∃ f, fuel = f + 1 := ⟨fuel - 1, by omega⟩
      exact ⟨fallBack_stop _ nxt fuel hj (by omega) hstop, hi, hstop⟩
  | @back i k hne hpos hdetour ih =>
      obtain ⟨fuel, rfl⟩ : ∃ f, fuel = f + 1 := ⟨fuel - 1, by omega⟩
      have hlt : border p (i + 1) < i + 1 := border_lt p (Nat.succ_pos i)
      -- a border of the whole prefix would be itself again, and the detour would not end
      have hsmaller : border p (i + 1) < i := by
        refine Nat.lt_of_le_of_ne (by omega) fun hloop => ?_
        rw [hloop] at hdetour
        exact not_detour_of_loop hne hpos hloop hdetour
      have hentry : nxt[i]? = some (border p (i + 1)) := by
        rw [hnxt.entry i (by omega), if_pos hi]
      rw [fallBack_next _ fuel hj (by omega) hne hpos hentry]
      exact ih (by omega) (by omega)

theorem detour_of_fallBack {p : List UInt8} {nxt : List Nat} {j i k fuel : Nat} (hj : j < p.length)
    (hnxt : Filled (fun k => border p (k + 1)) p.length j nxt) (hi : i < j)
    (h : fallBack (fun i => i) p nxt j fuel i = .ok k) : Detour p j i k := by
  induction fuel generalizing i with
  | zero => cases h
  | succ fuel ih =>
      by_cases hstop : p[i]? = p[j]? ∨ i = 0
      · rw [fallBack_stop _ nxt fuel hj (by omega) hstop] at h
        cases h
        exact .stop hstop
      · obtain ⟨hne, hzero⟩ := not_or.mp hstop
        have hpos : 0 < i := Nat.pos_of_ne_zero hzero
        have hlt : border p (i + 1) < i + 1 := border_lt p (Nat.succ_pos i)
        have hentry : nxt[i]? = some (border p (i + 1)) := by
          rw [hnxt.entry i (by omega), if_pos hi]
        rw [fallBack_next _ fuel hj (by omega) hne hpos hentry] at h
        exact .back hne hpos (ih (by omega) h)

/-- The detour from the longest border of the prefix before `j` leads to the longest border of the one
with `p[j]`. -/
def DetourRight (p : List UInt8) (j : Nat) : Prop :=
  ∃ k, Detour p j (border p j) k ∧ border p (j + 1) = if p[k]? = p[j]? then k + 1 else 0

theorem Detour.le {p : List UInt8} {j i k : Nat} (h : Detour p j i k) : k ≤ i := by
  induction h with
  | stop _ => exact le_rfl
  | @back i k _ _ _ ih =>
      have hlt : border p (i + 1) < i + 1 := border_lt p (Nat.succ_pos i)
      omega

theorem Detour.stops {p : List UInt8} {j i k : Nat} (h : Detour p j i k) : p[k]? = p[j]? ∨ k = 0 := by
  induction h with
  | stop hstop => exact hstop
  | back _ _ _ ih => exact ih

theorem Detour.eq_of_eq {p : List UInt8} {j i k : Nat} (h : Detour p j i k) (heq : p[i]? = p[j]?) :
    k = i := by
  cases h with
  | stop _ => rfl
  | back hne _ _ => exact absurd heq hne

/-! ## Iterations -/

/-- On a pattern whose length is an `int` the loop of `initNext` goes over the whole pattern. -/
theorem initNext_eq (fuel : Nat) {p : List UInt8} (h : p.length < 2 ^ 31) :
    initNext fuel p = (do
      let s ← rounds (fun i => i) keep fuel p (p.length - 1) 1 (0, List.replicate p.length 0)
      .ok s.2) := by
  have hcount : (SizeT.toInt p.length - 1).toNat = p.length - 1 := by
    rw [SizeT.toInt_of_lt h]
    omega
  rw [initNext, hcount]

/-- An iteration whose inner loop stops at the right border keeps the table right. -/
theorem round_of_fallBack {p : List UInt8} {fuel j k : Nat} {s : Nat × List Nat} (hj : j < p.length)
    (hs : BorderInv p j s) (hback : fallBack (fun i => i) p s.2 j fuel s.1 = .ok k) (hkj : k < j)
    (hstop : p[k]? = p[j]? ∨ k = 0)
    (hborder : border p (j + 1) = if p[k]? = p[j]? then k + 1 else 0) :
    ∃ s', round (fun i => i) keep fuel p s j = .ok s' ∧ BorderInv p (j + 1) s' := by
  rw [round_eq hback (by omega) hj]
  by_cases heq : p[k]? = p[j]?
  · rw [if_pos heq] at hborder ⊢
    obtain ⟨nxt', hset, hfilled⟩ := hs.filled.setAt hj
    rw [hborder] at hset
    exact ⟨(k + 1, nxt'), by rw [hset]; rfl, hborder.symm, hfilled⟩
  · rw [if_neg heq] at hborder ⊢
    obtain rfl : k = 0 := hstop.resolve_left heq
    exact ⟨(0, s.2), rfl, hborder.symm, hs.filled.skip hborder⟩

/-- An iteration that makes the right detour keeps the table right. -/
theorem round_of_detourRight {p : List UInt8} {fuel j : Nat} {s : Nat × List Nat} (hj : j < p.length)
    (hpos : 0 < j) (hfuel : p.length ≤ fuel) (hs : BorderInv p j s) (h : DetourRight p j) :
    ∃ s', round (fun i => i) keep fuel p s j = .ok s' ∧ BorderInv p (j + 1) s' := by
  obtain ⟨k, hdetour, hborder⟩ := h
  have hlt := border_lt p hpos
  rw [← hs.i] at hdetour hlt
  have hsteps : s.1 < fuel := by omega
  obtain ⟨hback, hkj, hstop⟩ := fallBack_of_detour hj hs.filled hdetour hlt hsteps
  exact round_of_fallBack hj hs hback hkj hstop hborder

/-- An iteration that gives the right entry has made the right detour. -/
theorem detourRight_of_round {p : List UInt8} {fuel j : Nat} {s s' : Nat × List Nat} (hj : j < p.length)
    (hpos : 0 < j) (hs : BorderInv p j s) (h : round (fun i => i) keep fuel p s j = .ok s')
    (hentry : s'.2[j]? = some (border p (j + 1))) : DetourRight p j ∧ BorderInv p (j + 1) s' := by
  have hlt := border_lt p hpos
  rw [← hs.i] at hlt
  obtain ⟨k, hback, -⟩ := bind_eq_ok h
  have hdetour := detour_of_fallBack hj hs.filled hlt hback
  have hkj : k < j := Nat.lt_of_le_of_lt hdetour.le hlt
  rw [round_eq hback (by omega) hj] at h
  rw [hs.i] at hdetour
  by_cases heq : p[k]? = p[j]?
  · rw [if_pos heq, setAt, if_pos (by rw [hs.filled.length]; exact hj)] at h
    cases h
    have hborder : border p (j + 1) = k + 1 := by
      rw [List.getElem?_set_self (by rw [hs.filled.length]; exact hj)] at hentry
      exact (Option.some.inj hentry).symm
    obtain ⟨nxt', hset, hfilled⟩ := hs.filled.setAt hj
    rw [hborder] at hset
    obtain ⟨-, rfl⟩ := of_setAt hset
    exact ⟨⟨k, hdetour, by rw [if_pos heq, hborder]⟩, hborder.symm, hfilled⟩
  · rw [if_neg heq] at h
    cases h
    obtain rfl : k = 0 := hdetour.stops.resolve_left heq
    have hborder : border p (j + 1) = 0 := by
      dsimp only at hentry
      rw [hs.filled.entry j hj, if_neg (Nat.lt_irrefl j)] at hentry
      exact (Option.some.inj hentry).symm
    exact ⟨⟨0, hdetour, by rw [if_neg heq, hborder]⟩, hborder.symm, hs.filled.skip hborder⟩

/-- Iterations leave the entries of other indices as they are. -/
theorem entry_of_round {entry : Nat → Nat} {fuel : Nat} {p : List UInt8} {s s' : Nat × List Nat}
    {j k : Nat} (h : round entry keep fuel p s j = .ok s') (hk : k ≠ j) : s'.2[k]? = s.2[k]? := by
  obtain ⟨i, nxt, -, ⟨-, hset, rfl⟩ | ⟨hkeep, rfl⟩⟩ := of_round h
  · obtain ⟨-, rfl⟩ := of_setAt hset
    exact List.getElem?_set_ne (fun hjk => hk hjk.symm)
  · cases hkeep
    rfl

theorem entry_of_rounds {entry : Nat → Nat} {fuel : Nat} {p : List UInt8} {count j k : Nat}
    {s s' : Nat × List Nat} (h : rounds entry keep fuel p count j s = .ok s') (hk : k < j) :
    s'.2[k]? = s.2[k]? :=
  rounds_keep (I := fun _ t => t.2[k]? = s.2[k]?)
    (fun n t u hn ht hu => (entry_of_round hu (by omega)).trans ht) rfl h

/-- A run to the right table makes right detours only. -/
theorem detourRight_of_rounds {p : List UInt8} {fuel count j : Nat} {s s' : Nat × List Nat}
    (hpos : 0 < j) (hcount : j + count ≤ p.length) (hs : BorderInv p j s)
    (h : rounds (fun i => i) keep fuel p count j s = .ok s') (htable : s'.2 = borderTable p) :
    ∀ k, j ≤ k → k < j + count → DetourRight p k := by
  induction count generalizing j s with
  | zero =>
      intro k hjk hk
      omega
  | succ count ih =>
      obtain ⟨t, ht, h⟩ := bind_eq_ok h
      -- later iterations leave the entry `j` as it is
      have hentry : t.2[j]? = some (border p (j + 1)) := by
        rw [← entry_of_rounds h (Nat.lt_succ_self j), htable]
        simp [borderTable, show j < p.length by omega]
      obtain ⟨hright, hinv⟩ := detourRight_of_round (by omega) hpos hs ht hentry
      intro k hjk hk
      by_cases hkj : k = j
      · subst hkj
        exact hright
      · exact ih (Nat.succ_pos j) (by omega) hinv h k (by omega) (by omega)

/-! ## The table -/

/-- With enough fuel the function returns `v`. -/
def Returns {α : Type} (f : Nat → Except Halt α) (v : α) : Prop :=
  ∃ n, ∀ fuel, n ≤ fuel → f fuel = .ok v

/-- `initNext` terminates, with the table that `checkPrefixSuffix` returns. -/
def FillsSameTable (p : List UInt8) : Prop :=
  ∃ table, Returns (initNext · p) table ∧ Returns (checkPrefixSuffix · p) table

theorem initNext_of_detourRight {p : List UInt8} (hlength : p.length < 2 ^ 31)
    (h : ∀ j, 0 < j → j < p.length → DetourRight p j) {fuel : Nat} (hfuel : p.length ≤ fuel) :
    initNext fuel p = .ok (borderTable p) := by
  obtain ⟨s, hrounds, hs⟩ : ∃ s, rounds (fun i => i) keep fuel p (p.length - 1) 1
      (0, List.replicate p.length 0) = .ok s ∧ BorderInv p (1 + (p.length - 1)) s :=
    rounds_ok (fun k s hk hlt hs => round_of_detourRight (by omega) (by omega) hfuel hs
      (h k (by omega) (by omega))) (borderInv_start p)
  rw [initNext_eq fuel hlength, hrounds, ok_bind, hs.table (by omega)]

theorem detourRight_of_initNext {p : List UInt8} (hlength : p.length < 2 ^ 31) {fuel : Nat}
    (h : initNext fuel p = .ok (borderTable p)) (j : Nat) (hpos : 0 < j) (hj : j < p.length) :
    DetourRight p j := by
  rw [initNext_eq fuel hlength] at h
  obtain ⟨s, hrounds, hs⟩ := bind_eq_ok h
  have htable : s.2 = borderTable p := Except.ok.inj hs
  exact detourRight_of_rounds Nat.one_pos (by omega) (borderInv_start p) hrounds htable j hpos (by omega)

/-- A right table takes right detours, and a length that is an `int`. -/
theorem FillsSameTable.detourRight {p : List UInt8} (h : FillsSameTable p) :
    p.length < 2 ^ 31 ∧ ∀ j, 0 < j → j < p.length → DetourRight p j := by
  obtain ⟨table, ⟨n, hinit⟩, m, hcheck⟩ := h
  have hlength := length_of_checkPrefixSuffix (hcheck m le_rfl)
  -- the two functions need not have the same fuel
  have htable : table = borderTable p := by
    have hfuel : checkPrefixSuffix (max m p.length) p = .ok table := hcheck _ (Nat.le_max_left _ _)
    rw [checkPrefixSuffix_eq hlength (Nat.le_max_right _ _)] at hfuel
    exact (Except.ok.inj hfuel).symm
  rw [htable] at hinit
  exact ⟨hlength, detourRight_of_initNext hlength (hinit n le_rfl)⟩

/-- `initNext` ends with the table of `checkPrefixSuffix` exactly where, at every index, following the
longest borders of `p[0..i]` leads to the longest border of `p[0..j]`. -/
theorem fillsSameTable_iff (p : List UInt8) :
    FillsSameTable p ↔
      p.length < 2 ^ 31 ∧ ∀ j, 0 < j → j < p.length → DetourRight p j := by
  constructor
  · exact FillsSameTable.detourRight
  · rintro ⟨hlength, hright⟩
    exact ⟨borderTable p, ⟨p.length, fun fuel => initNext_of_detourRight hlength hright⟩,
      p.length, fun fuel => checkPrefixSuffix_eq hlength⟩

/-- On `aab` the inner loop goes from 1 to `nxt[1]`, which is 1. -/
theorem not_fillsSameTable_aab : ¬ FillsSameTable [97, 97, 98] := by
  intro h
  obtain ⟨k, hdetour, -⟩ := h.detourRight.2 2 (by decide) (by decide)
  have hborder : border ([97, 97, 98] : List UInt8) 2 = 1 := by decide
  rw [hborder] at hdetour
  exact not_detour_of_loop (by decide) Nat.one_pos hborder hdetour

/-! ## Termination -/

/-- Every entry is smaller than its index, as long as the pattern does not begin with a repetition. -/
structure Smaller (p : List UInt8) (j : Nat) (s : Nat × List Nat) : Prop where
  i : s.1 + 1 < j ∨ s.1 = 0 ∧ j = 1
  length : s.2.length = p.length
  entry : ∀ k v, s.2[k]? = some v → v ≤ k - 1

theorem smaller_start (p : List UInt8) : Smaller p 1 (0, List.replicate p.length 0) where
  i := Or.inr ⟨rfl, rfl⟩
  length := List.length_replicate
  entry := by
    intro k v hv
    have hzero : v = 0 := List.eq_of_mem_replicate (List.mem_of_getElem? hv)
    omega

/-- Such entries lead the inner loop down. -/
theorem fallBack_of_smaller {p : List UInt8} {nxt : List Nat} {j i fuel : Nat} (hj : j < p.length)
    (hlength : nxt.length = p.length) (hentry : ∀ k v, nxt[k]? = some v → v ≤ k - 1)
    (hi : i < p.length) (hfuel : i < fuel) :
    ∃ k, fallBack (fun i => i) p nxt j fuel i = .ok k ∧ k ≤ i ∧ (p[k]? = p[j]? ∨ k = 0) := by
  induction fuel generalizing i with
  | zero => omega
  | succ fuel ih =>
      by_cases hstop : p[i]? = p[j]? ∨ i = 0
      · exact ⟨i, fallBack_stop _ nxt fuel hj hi hstop, le_rfl, hstop⟩
      · obtain ⟨hne, hzero⟩ := not_or.mp hstop
        have hv : nxt[i]? = some nxt[i] := List.getElem?_eq_getElem (by omega)
        have hle := hentry i nxt[i] hv
        obtain ⟨k, hback, hk, hend⟩ := ih (i := nxt[i]) (by omega) (by omega)
        refine ⟨k, ?_, by omega, hend⟩
        rw [fallBack_next _ fuel hj hi hne (Nat.pos_of_ne_zero hzero) hv, hback]

theorem round_of_smaller {p : List UInt8} {fuel j : Nat} {s : Nat × List Nat} (hj : j < p.length)
    (hpos : 0 < j) (hfuel : p.length ≤ fuel) (hp : p[0]? ≠ p[1]?) (hs : Smaller p j s) :
    ∃ s', round (fun i => i) keep fuel p s j = .ok s' ∧ Smaller p (j + 1) s' := by
  have hi := hs.i
  have hlt : s.1 < p.length := by omega
  have hsteps : s.1 < fuel := by omega
  obtain ⟨k, hback, hk, hstop⟩ := fallBack_of_smaller hj hs.length hs.entry hlt hsteps
  rw [round_eq hback (by omega) hj]
  by_cases heq : p[k]? = p[j]?
  · -- only the first iteration could give an entry as large as its index
    have hkj : k + 1 < j := by
      rcases hi with hlt | ⟨hzero, rfl⟩
      · omega
      · obtain rfl : k = 0 := by omega
        exact absurd heq hp
    rw [if_pos heq, Kmp.setAt, if_pos (by rw [hs.length]; exact hj)]
    refine ⟨_, rfl, Or.inl (by dsimp only; omega), by rw [List.length_set, hs.length], ?_⟩
    intro n v hv
    by_cases hn : n = j
    · subst hn
      rw [List.getElem?_set_self (by rw [hs.length]; exact hj)] at hv
      cases hv
      omega
    · rw [List.getElem?_set_ne (fun hjn => hn hjn.symm)] at hv
      exact hs.entry n v hv
  · obtain rfl : k = 0 := hstop.resolve_left heq
    rw [if_neg heq]
    exact ⟨_, rfl, Or.inl (by dsimp only; omega), hs.length, hs.entry⟩

/-- Where the next character is the one at the longest border, no detour is made. -/
theorem detourRight_of_eq {p : List UInt8} {j : Nat} (hj : j < p.length) (hpos : 0 < j)
    (h : p[border p j]? = p[j]?) : DetourRight p j := by
  refine ⟨border p j, .stop (Or.inl h), ?_⟩
  rw [if_pos h]
  exact (BordersBelow.start p hpos).found hj h

theorem borderInv_of_round {p : List UInt8} {fuel j : Nat} {s s' : Nat × List Nat} (hj : j < p.length)
    (hpos : 0 < j) (hs : BorderInv p j s) (heq : p[border p j]? = p[j]?)
    (h : round (fun i => i) keep fuel p s j = .ok s') : BorderInv p (j + 1) s' := by
  have hlt := border_lt p hpos
  rw [← hs.i] at hlt heq
  have hborder : border p (j + 1) = s.1 + 1 := by
    rw [hs.i] at heq ⊢
    exact (BordersBelow.start p hpos).found hj heq
  obtain ⟨k, hback, -⟩ := bind_eq_ok h
  obtain rfl : k = s.1 := (detour_of_fallBack hj hs.filled hlt hback).eq_of_eq heq
  obtain ⟨t, ht, hinv⟩ := round_of_fallBack hj hs hback hlt (Or.inl heq) (by rw [if_pos heq, hborder])
  rw [h] at ht
  cases ht
  exact hinv

/-- A prefix of equal characters has the longest border there can be. -/
theorem border_of_forall_eq {p : List UInt8} {m : Nat} (h : ∀ k < m, p[k]? = p[0]?)
    (hm : m ≤ p.length) {j : Nat} (hj : j < m) : border p (j + 1) = j := by
  induction j with
  | zero => exact border_one p
  | succ j ih =>
      have hborder := ih (by omega)
      have heq : p[border p (j + 1)]? = p[j + 1]? := by
        rw [hborder, h j (by omega), h (j + 1) hj]
      rw [(BordersBelow.start p (Nat.succ_pos j)).found (by omega) heq, hborder]

/-- What the iterations keep that return holds when a later one begins, and that one returns. -/
theorem exists_round_of_rounds {entry : Nat → Nat}
    {otherwise : List Nat → Nat → Except Halt (List Nat)} {fuel : Nat} {str : List UInt8}
    {I : Nat → Nat × List Nat → Prop} {count j m : Nat} {s s' : Nat × List Nat}
    (hround : ∀ k s t, j ≤ k → k < m → I k s → round entry otherwise fuel str s k = .ok t → I (k + 1) t)
    (hs : I j s) (h : rounds entry otherwise fuel str count j s = .ok s') (hjm : j ≤ m)
    (hm : m < j + count) : ∃ s t, I m s ∧ round entry otherwise fuel str s m = .ok t := by
  induction count generalizing j s with
  | zero => omega
  | succ count ih =>
      obtain ⟨t, ht, h⟩ := bind_eq_ok h
      by_cases hjm' : j = m
      · subst hjm'
        exact ⟨s, t, hs, ht⟩
      · exact ih (fun k s t hk => hround k s t (by omega)) (hround j s t le_rfl (by omega) hs ht) h
          (by omega) (by omega)

/-- After a repetition at the beginning, the first other character is never passed. -/
theorem initNext_ne_ok {p : List UInt8} (hlength : p.length < 2 ^ 31) {m : Nat} (hm : m < p.length)
    (htwo : 2 ≤ m) (h : ∀ k < m, p[k]? = p[0]?) (hne : p[m]? ≠ p[0]?) (fuel : Nat) (nxt : List Nat) :
    initNext fuel p ≠ .ok nxt := by
  intro hok
  rw [initNext_eq fuel hlength] at hok
  obtain ⟨s', hrounds, -⟩ := bind_eq_ok hok
  -- up to `m` every character matches, and the table is right
  have hkeep : ∀ k s t, 1 ≤ k → k < m → BorderInv p k s →
      round (fun i => i) keep fuel p s k = .ok t → BorderInv p (k + 1) t := by
    intro k s t hk hkm hs ht
    have hlt : border p k < k := border_lt p (by omega)
    have heq : p[border p k]? = p[k]? := by rw [h k hkm, h _ (by omega)]
    exact borderInv_of_round (by omega) (by omega) hs heq ht
  obtain ⟨s, t, hs, ht⟩ := exists_round_of_rounds hkeep (borderInv_start p) hrounds (by omega) (by omega)
  obtain ⟨k, hback, -⟩ := bind_eq_ok ht
  -- at `m` the inner loop stands at `m - 1`, which leads back to itself
  have hborder : border p m = m - 1 := by
    have := border_of_forall_eq h hm.le (j := m - 1) (by omega)
    rwa [Nat.sub_add_cancel (by omega)] at this
  have hi : s.1 = m - 1 := by rw [hs.i, hborder]
  have hdetour := detour_of_fallBack hm hs.filled (by omega) hback
  rw [hi] at hdetour
  refine not_detour_of_loop ?_ (by omega) ?_ hdetour
  · rw [h (m - 1) (by omega)]
    exact fun heq => hne heq.symm
  · rw [Nat.sub_add_cancel (by omega), hborder]

/-- `initNext` ends on patterns of one character, and on those that do not begin with the same character
twice. -/
theorem initNext_returns_iff {p : List UInt8} (hlength : p.length < 2 ^ 31) :
    (∃ fuel nxt, initNext fuel p = .ok nxt) ↔ (∀ k < p.length, p[k]? = p[0]?) ∨ p[0]? ≠ p[1]? := by
  constructor
  · rintro ⟨fuel, nxt, hok⟩
    by_contra hnot
    obtain ⟨hdiffer, htwice⟩ := not_or.mp hnot
    have hexists : ∃ k, k < p.length ∧ p[k]? ≠ p[0]? := by
      simpa only [not_forall, exists_prop] using hdiffer
    -- the first character that differs from the one at the beginning
    have hfirst := Nat.find_spec hexists
    have hbefore : ∀ k < Nat.find hexists, p[k]? = p[0]? := by
      intro k hk
      have hmin := Nat.find_min hexists hk
      have hlt := hfirst.1
      exact not_not.mp fun hne => hmin ⟨by omega, hne⟩
    have htwo : 2 ≤ Nat.find hexists := by
      refine (Nat.le_find_iff hexists 2).mpr fun k hk hne => ?_
      obtain rfl | rfl : k = 0 ∨ k = 1 := by omega
      · exact hne.2 rfl
      · exact htwice fun heq => hne.2 heq.symm
    exact initNext_ne_ok hlength hfirst.1 htwo hbefore hfirst.2 fuel nxt hok
  · rintro (hconst | htwice)
    · refine ⟨p.length, borderTable p, initNext_of_detourRight hlength (fun j hpos hj => ?_) le_rfl⟩
      have hlt := border_lt p hpos
      refine detourRight_of_eq hj hpos ?_
      rw [hconst j hj, hconst _ (by omega)]
    · obtain ⟨s, hrounds, -⟩ : ∃ s, rounds (fun i => i) keep p.length p (p.length - 1) 1
          (0, List.replicate p.length 0) = .ok s ∧ Smaller p (1 + (p.length - 1)) s :=
        rounds_ok (fun k s hk hlt hs => round_of_smaller (by omega) (by omega) le_rfl htwice hs)
          (smaller_start p)
      refine ⟨p.length, s.2, ?_⟩
      rw [initNext_eq p.length hlength, hrounds, ok_bind]

end Kmp
end Any
end MyCppCode
