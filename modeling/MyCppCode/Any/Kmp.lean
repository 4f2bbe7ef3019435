import MyCppCode.Foundation.Borders
import MyCppCode.Foundation.Machine

/-!
# Kmp — `checkPrefixSuffix` and the class `KMP` of `any/kmp.cpp`

Both fill a table with the lengths of prefixes that are also suffixes, by the same two nested loops.  They
differ in the entry that the inner loop follows after a mismatch: `checkPrefixSuffix` goes from the length
`i` to `nxt[i - 1]`, `KMP::initNext` to `nxt[i]`.

* `fallBack` is the inner loop, `round` one iteration of the outer one, `rounds` all of them, with every
  index checked and at most `fuel` iterations of the inner loop;
* `checkPrefixSuffix` and `initNext` are these loops with the entry each follows;
* `find` searches the text;
* `checkPrefixSuffix_eq`: on a string whose length is an `int` the table has the longest borders.
-/

namespace MyCppCode
namespace Any
namespace Kmp

open Foundation

/-! ## The source -/

/-- `nxt[i]`, read and written. -/
def nxtAt (nxt : List Nat) (i : Nat) : Except Halt Nat :=
  match nxt[i]? with
  | some v => .ok v
  | none => .error .undefinedBehaviour

def setAt (nxt : List Nat) (i v : Nat) : Except Halt (List Nat) :=
  if i < nxt.length then .ok (nxt.set i v) else .error .undefinedBehaviour

/-- `while (str[i] != str[j] && i > 0) i = nxt[entry(i)];` -/
def fallBack (entry : Nat → Nat) (str : List UInt8) (nxt : List Nat) (j : Nat) :
    Nat → Nat → Except Halt Nat
  | 0, _ => .error .diverges
  | fuel + 1, i => do
      let a ← charAt str i
      let b ← charAt str j
      if a ≠ b ∧ 0 < i then
        let i ← nxtAt nxt (entry i)
        fallBack entry str nxt j fuel i
      else
        .ok i

/-- One iteration of the outer loop, on `i` and the table; `otherwise` is the `else` branch. -/
def round (entry : Nat → Nat) (otherwise : List Nat → Nat → Except Halt (List Nat)) (fuel : Nat)
    (str : List UInt8) (s : Nat × List Nat) (j : Nat) : Except Halt (Nat × List Nat) := do
  let i ← fallBack entry str s.2 j fuel s.1
  let a ← charAt str i
  let b ← charAt str j
  if a = b then
    let nxt ← setAt s.2 j (i + 1)
    .ok (i + 1, nxt)
  else
    let nxt ← otherwise s.2 j
    .ok (i, nxt)

/-- `count` iterations, from `j` on. -/
def rounds (entry : Nat → Nat) (otherwise : List Nat → Nat → Except Halt (List Nat)) (fuel : Nat)
    (str : List UInt8) : Nat → Nat → Nat × List Nat → Except Halt (Nat × List Nat)
  | 0, _, s => .ok s
  | count + 1, j, s => do
      let s ← round entry otherwise fuel str s j
      rounds entry otherwise fuel str count (j + 1) s

/-- `vector<int> nxt(size)`: a negative `int` is a `size_t` past `max_size()`. -/
def zeros (size : Int) : Except Halt (List Nat) :=
  if size < 0 then .error .lengthError else .ok (List.replicate size.toNat 0)

/-- `checkPrefixSuffix(str)`: the loop runs while `j < str.size()`, and writes 0 where nothing matches. -/
def checkPrefixSuffix (fuel : Nat) (str : List UInt8) : Except Halt (List Nat) := do
  let nxt ← zeros (SizeT.toInt str.length)
  let s ← rounds (fun i => i - 1) (fun nxt j => setAt nxt j 0) fuel str (str.length - 1) 1 (0, nxt)
  .ok s.2

/-- The `else` branch of `initNext`, which leaves the table as it is. -/
def keep (nxt : List Nat) (_ : Nat) : Except Halt (List Nat) := .ok nxt

/-- `KMP::initNext()`, on the table of `p.size()` zeros that the constructor has made: the loop runs while
`j < sz1`, the size as an `int`. -/
def initNext (fuel : Nat) (p : List UInt8) : Except Halt (List Nat) := do
  let s ← rounds (fun i => i) keep fuel p (SizeT.toInt p.length - 1).toNat 1
    (0, List.replicate p.length 0)
  .ok s.2

/-- The loop of `KMP::find`, with `rest` the text from `i` on. -/
def findLoop (p : List UInt8) (nxt : List Nat) : List UInt8 → Nat → Nat → Except Halt Int
  | [], _, _ => .ok (-1)
  | c :: rest, i, j => do
      let d ← charAt p j
      if c = d then
        let j ← increment j
        if j = p.length then
          -- `return i - p.size() + 1`
          .ok (SizeT.toInt (SizeT.add (SizeT.sub i p.length) 1))
        else
          let i ← increment i
          findLoop p nxt rest i j
      else
        let j ← nxtAt nxt j
        let i ← increment i
        findLoop p nxt rest i j

/-- `KMP::find(ist)`. -/
def find (s p : List UInt8) (nxt : List Nat) (ist : Nat) : Except Halt Int :=
  findLoop p nxt (s.drop ist) ist 0

/-! ## The inner loop -/

theorem getD_eq_iff {str : List UInt8} {i j : Nat} (hi : i < str.length) (hj : j < str.length) :
    str.getD i 0 = str.getD j 0 ↔ str[i]? = str[j]? := by
  simp [List.getD_eq_getElem?_getD, List.getElem?_eq_getElem hi, List.getElem?_eq_getElem hj]

/-- The inner loop stops where the characters agree, or at 0. -/
theorem fallBack_stop (entry : Nat → Nat) {str : List UInt8} (nxt : List Nat) {j i : Nat} (fuel : Nat)
    (hj : j < str.length) (hi : i < str.length) (h : str[i]? = str[j]? ∨ i = 0) :
    fallBack entry str nxt j (fuel + 1) i = .ok i := by
  have hcond : ¬ (str.getD i 0 ≠ str.getD j 0 ∧ 0 < i) := by
    rw [Ne, getD_eq_iff hi hj]
    rintro ⟨hne, hpos⟩
    rcases h with heq | rfl
    · exact hne heq
    · exact Nat.lt_irrefl 0 hpos
  rw [fallBack, charAt_of_le hi.le, ok_bind, charAt_of_le hj.le, ok_bind, if_neg hcond]

/-- Else it goes on with the entry it follows. -/
theorem fallBack_next (entry : Nat → Nat) {str : List UInt8} {nxt : List Nat} {j i v : Nat} (fuel : Nat)
    (hj : j < str.length) (hi : i < str.length) (hne : str[i]? ≠ str[j]?) (hpos : 0 < i)
    (hv : nxt[entry i]? = some v) :
    fallBack entry str nxt j (fuel + 1) i = fallBack entry str nxt j fuel v := by
  have hcond : str.getD i 0 ≠ str.getD j 0 ∧ 0 < i := by
    rw [Ne, getD_eq_iff hi hj]
    exact ⟨hne, hpos⟩
  have hnxt : nxtAt nxt (entry i) = .ok v := by
    rw [nxtAt, hv]
  rw [fallBack, charAt_of_le hi.le, ok_bind, charAt_of_le hj.le, ok_bind, if_pos hcond, hnxt, ok_bind]

/-! ## The outer loop -/

/-- One iteration, by where the inner loop stops. -/
theorem round_eq {entry : Nat → Nat} {otherwise : List Nat → Nat → Except Halt (List Nat)} {fuel : Nat}
    {str : List UInt8} {i k j : Nat} {nxt : List Nat}
    (hback : fallBack entry str nxt j fuel i = .ok k) (hk : k < str.length) (hj : j < str.length) :
    round entry otherwise fuel str (i, nxt) j
      = if str[k]? = str[j]? then (setAt nxt j (k + 1)).map fun nxt => (k + 1, nxt)
        else (otherwise nxt j).map fun nxt => (k, nxt) := by
  rw [round, hback, ok_bind, charAt_of_le hk.le, ok_bind, charAt_of_le hj.le, ok_bind]
  by_cases heq : str[k]? = str[j]?
  · rw [if_pos ((getD_eq_iff hk hj).mpr heq), if_pos heq]
    rfl
  · rw [if_neg (mt (getD_eq_iff hk hj).mp heq), if_neg heq]
    rfl

/-- What an iteration that returns has done. -/
theorem of_round {entry : Nat → Nat} {otherwise : List Nat → Nat → Except Halt (List Nat)} {fuel : Nat}
    {str : List UInt8} {s s' : Nat × List Nat} {j : Nat}
    (h : round entry otherwise fuel str s j = .ok s') :
    ∃ k nxt, fallBack entry str s.2 j fuel s.1 = .ok k ∧
      ((charAt str k = charAt str j ∧ setAt s.2 j (k + 1) = .ok nxt ∧ s' = (k + 1, nxt)) ∨
        (otherwise s.2 j = .ok nxt ∧ s' = (k, nxt))) := by
  obtain ⟨k, hback, h⟩ := bind_eq_ok h
  obtain ⟨a, ha, h⟩ := bind_eq_ok h
  obtain ⟨b, hb, h⟩ := bind_eq_ok h
  split at h
  case isTrue hab =>
    obtain ⟨nxt, hset, h⟩ := bind_eq_ok h
    cases h
    exact ⟨k, nxt, hback, Or.inl ⟨by rw [ha, hb, hab], hset, rfl⟩⟩
  case isFalse =>
    obtain ⟨nxt, hother, h⟩ := bind_eq_ok h
    cases h
    exact ⟨k, nxt, hback, Or.inr ⟨hother, rfl⟩⟩

/-- What every iteration keeps, the loop keeps; and it returns if they do. -/
theorem rounds_ok {entry : Nat → Nat} {otherwise : List Nat → Nat → Except Halt (List Nat)}
    {fuel : Nat} {str : List UInt8} {I : Nat → Nat × List Nat → Prop} {count j : Nat}
    (hround : ∀ k s, j ≤ k → k < j + count → I k s →
      ∃ s', round entry otherwise fuel str s k = .ok s' ∧ I (k + 1) s')
    {s : Nat × List Nat} (hs : I j s) :
    ∃ s', rounds entry otherwise fuel str count j s = .ok s' ∧ I (j + count) s' := by
  induction count generalizing j s with
  | zero => exact ⟨s, rfl, hs⟩
  | succ count ih =>
      obtain ⟨s₁, h₁, hs₁⟩ := hround j s le_rfl (by omega) hs
      obtain ⟨s₂, h₂, hs₂⟩ := ih (fun k s hjk hk => hround k s (by omega) (by omega)) hs₁
      refine ⟨s₂, ?_, ?_⟩
      · rw [rounds, h₁, ok_bind, h₂]
      · rwa [show j + (count + 1) = j + 1 + count by omega]

/-- What the iterations that return keep, a loop that returns keeps. -/
theorem rounds_keep {entry : Nat → Nat} {otherwise : List Nat → Nat → Except Halt (List Nat)}
    {fuel : Nat} {str : List UInt8} {I : Nat → Nat × List Nat → Prop} {count j : Nat}
    (hround : ∀ k s t, j ≤ k → I k s → round entry otherwise fuel str s k = .ok t → I (k + 1) t)
    {s s' : Nat × List Nat} (hs : I j s) (h : rounds entry otherwise fuel str count j s = .ok s') :
    I (j + count) s' := by
  induction count generalizing j s with
  | zero =>
      cases h
      exact hs
  | succ count ih =>
      obtain ⟨t, ht, h⟩ := bind_eq_ok h
      rw [show j + (count + 1) = j + 1 + count by omega]
      exact ih (fun k s t hk => hround k s t (by omega)) (hround j s t le_rfl hs ht) h

/-- The table has `len` entries; the first `j` are filled in by `value`, the others are still 0. -/
structure Filled (value : Nat → Nat) (len j : Nat) (nxt : List Nat) : Prop where
  length : nxt.length = len
  entry : ∀ k < len, nxt[k]? = some (if k < j then value k else 0)

theorem filled_zeros (value : Nat → Nat) (h : value 0 = 0) (len : Nat) :
    Filled value len 1 (List.replicate len 0) where
  length := List.length_replicate
  entry := by
    intro k hk
    rw [List.getElem?_replicate, if_pos hk]
    by_cases hone : k < 1
    · obtain rfl : k = 0 := by omega
      rw [if_pos hone, h]
    · rw [if_neg hone]

/-- Writing the next entry. -/
theorem Filled.setAt {value : Nat → Nat} {len j : Nat} {nxt : List Nat} (h : Filled value len j nxt)
    (hj : j < len) : ∃ nxt', setAt nxt j (value j) = .ok nxt' ∧ Filled value len (j + 1) nxt' := by
  refine ⟨nxt.set j (value j), if_pos (by rw [h.length]; exact hj), ?_, ?_⟩
  · rw [List.length_set, h.length]
  · intro k hk
    by_cases hkj : k = j
    · subst hkj
      rw [List.getElem?_set_self (by rw [h.length]; exact hk), if_pos (Nat.lt_succ_self k)]
    · rw [List.getElem?_set_ne (fun hjk => hkj hjk.symm), h.entry k hk]
      have hiff : k < j ↔ k < j + 1 := by omega
      simp only [hiff]

/-- Where the next entry is 0, nothing has to be written. -/
theorem Filled.skip {value : Nat → Nat} {len j : Nat} {nxt : List Nat} (h : Filled value len j nxt)
    (hj : value j = 0) : Filled value len (j + 1) nxt where
  length := h.length
  entry := by
    intro k hk
    rw [h.entry k hk]
    by_cases hkj : k = j
    · subst hkj
      rw [if_neg (Nat.lt_irrefl k), if_pos (Nat.lt_succ_self k), hj]
    · have hiff : k < j ↔ k < j + 1 := by omega
      simp only [hiff]

theorem Filled.eq_map {value : Nat → Nat} {len j : Nat} {nxt : List Nat} (h : Filled value len j nxt)
    (hj : len ≤ j) : nxt = (List.range len).map value := by
  apply List.ext_getElem?
  intro k
  by_cases hk : k < len
  · rw [h.entry k hk, if_pos (by omega)]
    simp [hk]
  · rw [List.getElem?_eq_none (by rw [h.length]; omega), List.getElem?_eq_none (by simpa using hk)]

/-! ## `checkPrefixSuffix` -/

/-- The lengths of the longest borders of all prefixes. -/
def borderTable (str : List UInt8) : List Nat :=
  (List.range str.length).map fun k => border str (k + 1)

theorem border_one (str : List UInt8) : border str 1 = 0 := by
  have := border_lt str Nat.one_pos
  omega

/-- The inner loop goes down the borders to the longest one that can be extended. -/
theorem fallBack_borders {str : List UInt8} {nxt : List Nat} {j i fuel : Nat} (hj : j < str.length)
    (hnxt : Filled (fun k => border str (k + 1)) str.length j nxt) (hi : BordersBelow str j i)
    (hfuel : i < fuel) :
    ∃ k, fallBack (fun i => i - 1) str nxt j fuel i = .ok k ∧ BordersBelow str j k ∧
      (str[k]? = str[j]? ∨ k = 0) := by
  induction fuel generalizing i with
  | zero => omega
  | succ fuel ih =>
      have hij : i < j := hi.isBorder.1
      by_cases hstop : str[i]? = str[j]? ∨ i = 0
      · exact ⟨i, fallBack_stop _ nxt fuel hj (by omega) hstop, hi, hstop⟩
      · obtain ⟨hne, hzero⟩ := not_or.mp hstop
        have hpos : 0 < i := Nat.pos_of_ne_zero hzero
        -- `nxt[i - 1]` is the longest border of the prefix of length `i`
        have hentry : nxt[i - 1]? = some (border str i) := by
          rw [hnxt.entry (i - 1) (by omega), if_pos (by omega), Nat.sub_add_cancel hpos]
        have hlt := border_lt str hpos
        rw [fallBack_next _ fuel hj (by omega) hne hpos hentry]
        exact ih (hi.next hpos hne) (by omega)

/-- Before the iteration for `j`: `i` is the longest border, and the table has those before `j`. -/
structure BorderInv (str : List UInt8) (j : Nat) (s : Nat × List Nat) : Prop where
  i : s.1 = border str j
  filled : Filled (fun k => border str (k + 1)) str.length j s.2

theorem borderInv_start (str : List UInt8) : BorderInv str 1 (0, List.replicate str.length 0) :=
  ⟨(border_one str).symm, filled_zeros (fun k => border str (k + 1)) (border_one str) str.length⟩

theorem BorderInv.table {str : List UInt8} {j : Nat} {s : Nat × List Nat} (h : BorderInv str j s)
    (hj : str.length ≤ j) : s.2 = borderTable str :=
  h.filled.eq_map hj

theorem BorderInv.bordersBelow {str : List UInt8} {j : Nat} {s : Nat × List Nat} (h : BorderInv str j s)
    (hpos : 0 < j) : BordersBelow str j s.1 := by
  rw [h.i]
  exact BordersBelow.start str hpos

/-- The inner loop from there: no more than `i` iterations. -/
theorem BorderInv.fallBack_ok {str : List UInt8} {fuel j : Nat} {s : Nat × List Nat}
    (h : BorderInv str j s) (hj : j < str.length) (hpos : 0 < j) (hfuel : str.length ≤ fuel) :
    ∃ k, fallBack (fun i => i - 1) str s.2 j fuel s.1 = .ok k ∧ BordersBelow str j k ∧
      (str[k]? = str[j]? ∨ k = 0) := by
  have hstart := h.bordersBelow hpos
  have hlt := hstart.isBorder.1
  have hsteps : s.1 < fuel := by omega
  exact fallBack_borders hj h.filled hstart hsteps

theorem round_borders {str : List UInt8} {fuel j : Nat} {s : Nat × List Nat} (hj : j < str.length)
    (hpos : 0 < j) (hfuel : str.length ≤ fuel) (hs : BorderInv str j s) :
    ∃ s', round (fun i => i - 1) (fun nxt j => setAt nxt j 0) fuel str s j = .ok s' ∧
      BorderInv str (j + 1) s' := by
  obtain ⟨k, hback, hk, hstop⟩ := hs.fallBack_ok hj hpos hfuel
  have hkj := hk.isBorder.1
  rw [round_eq hback (by omega) hj]
  obtain ⟨nxt', hset, hfilled⟩ := hs.filled.setAt hj
  by_cases heq : str[k]? = str[j]?
  · have hborder := hk.found hj heq
    refine ⟨(k + 1, nxt'), ?_, hborder.symm, hfilled⟩
    rw [hborder] at hset
    rw [if_pos heq, hset]
    rfl
  · obtain rfl : k = 0 := hstop.resolve_left heq
    have hborder := hk.none hj heq
    refine ⟨(0, nxt'), ?_, hborder.symm, hfilled⟩
    rw [hborder] at hset
    rw [if_neg heq, hset]
    rfl

theorem zeros_of_lt {n : Nat} (h : n < 2 ^ 31) : zeros (SizeT.toInt n) = .ok (List.replicate n 0) := by
  rw [SizeT.toInt_of_lt h, zeros, if_neg (by omega), Int.toNat_natCast]

/-- On a string whose length is an `int`, `checkPrefixSuffix` returns the longest borders of all
prefixes. -/
theorem checkPrefixSuffix_eq {str : List UInt8} {fuel : Nat} (hlength : str.length < 2 ^ 31)
    (hfuel : str.length ≤ fuel) : checkPrefixSuffix fuel str = .ok (borderTable str) := by
  obtain ⟨s, hrounds, hs⟩ : ∃ s, rounds (fun i => i - 1) (fun nxt j => setAt nxt j 0) fuel str
      (str.length - 1) 1 (0, List.replicate str.length 0) = .ok s ∧
      BorderInv str (1 + (str.length - 1)) s :=
    rounds_ok (fun k s hk hlt hs => round_borders (by omega) (by omega) hfuel hs) (borderInv_start str)
  rw [checkPrefixSuffix, zeros_of_lt hlength, ok_bind, hrounds, ok_bind, hs.table (by omega)]

/-! ## Strings too long for an `int` -/

theorem of_setAt {nxt nxt' : List Nat} {j v : Nat} (h : setAt nxt j v = .ok nxt') :
    j < nxt.length ∧ nxt' = nxt.set j v := by
  unfold setAt at h
  split at h
  · cases h
    exact ⟨‹_›, rfl⟩
  · cases h

/-- An iteration of `checkPrefixSuffix` writes the entry `j`. -/
theorem length_of_round {fuel : Nat} {str : List UInt8} {s s' : Nat × List Nat} {j : Nat}
    (h : round (fun i => i - 1) (fun nxt j => setAt nxt j 0) fuel str s j = .ok s') :
    j < s.2.length ∧ s'.2.length = s.2.length := by
  obtain ⟨k, nxt, -, ⟨-, hset, rfl⟩ | ⟨hset, rfl⟩⟩ := of_round h
  · obtain ⟨hlt, rfl⟩ := of_setAt hset
    exact ⟨hlt, List.length_set⟩
  · obtain ⟨hlt, rfl⟩ := of_setAt hset
    exact ⟨hlt, List.length_set⟩

theorem length_of_rounds {fuel : Nat} {str : List UInt8} {count j : Nat} {s s' : Nat × List Nat}
    (h : rounds (fun i => i - 1) (fun nxt j => setAt nxt j 0) fuel str count j s = .ok s')
    (hcount : 0 < count) : j + count ≤ s.2.length := by
  induction count generalizing j s with
  | zero => omega
  | succ count ih =>
      obtain ⟨t, ht, h⟩ := bind_eq_ok h
      obtain ⟨hlt, hlength⟩ := length_of_round ht
      by_cases hzero : count = 0
      · omega
      · have := ih h (Nat.pos_of_ne_zero hzero)
        omega

theorem toInt_lt (n : Nat) : SizeT.toInt n < 2 ^ 31 := by
  have hlt : (n : Int).bmod (2 ^ 32) < ((2 ^ 32 : Nat) + 1) / 2 := Int.bmod_lt (by decide)
  unfold SizeT.toInt
  omega

theorem length_of_zeros {size : Int} {nxt : List Nat} (h : zeros size = .ok nxt) :
    nxt.length = size.toNat := by
  unfold zeros at h
  split at h
  · cases h
  · cases h
    exact List.length_replicate

/-- On a longer string `checkPrefixSuffix` does not return: the vector cannot be made, or is too short. -/
theorem length_of_checkPrefixSuffix {fuel : Nat} {str : List UInt8} {nxt : List Nat}
    (h : checkPrefixSuffix fuel str = .ok nxt) : str.length < 2 ^ 31 := by
  by_contra hlong
  obtain ⟨zs, hzs, h⟩ := bind_eq_ok h
  obtain ⟨s, hrounds, -⟩ := bind_eq_ok h
  -- the vector has as many entries as the `int`, and the loop writes one for every character
  have hrange : SizeT.toInt str.length < 2 ^ 31 := toInt_lt str.length
  have hlength : zs.length = (SizeT.toInt str.length).toNat := length_of_zeros hzs
  have hle := length_of_rounds hrounds (by omega)
  dsimp only at hle
  omega

end Kmp
end Any
end MyCppCode
