import Mathlib.Order.Bounds.Basic
import MyCppCode.Any.KmpTable

/-!
# KmpFind — what `KMP::find` finds

After a mismatch `find` takes `nxt[j]` and goes on to the next character of the text, without a look at
this one again.  A partial match that `nxt[j]` stands for does not end with the character just read, and a
match that begins with this character, or before it, is lost.

* `Sound`: what holds of the table whenever the constructor returns;
* `Clean`: the text is a sequence of beginnings of the pattern, each followed by a character with which no
  beginning of the pattern ends, and then the pattern or the end of the text;
* `finds_of_clean`: in such a text `find` finds the first occurrence; any other has a beginning after which
  no text is clean, and after which `find` is wrong for some text;
* `forall_finds_iff`: the patterns that `find` finds in every text are those of one character.
-/

namespace MyCppCode
namespace Any
namespace Kmp

open Foundation

/-! ## The table -/

/-- An entry is at most its index, and stands for a prefix that ends with the character at the index. -/
structure Sound (p : List UInt8) (nxt : List Nat) : Prop where
  length : nxt.length = p.length
  entry : ∀ j b, nxt[j]? = some b → b ≤ j ∧ (0 < b → p[b - 1]? = p[j]?)

theorem nxtAt_eq_ok {nxt : List Nat} {i v : Nat} : nxtAt nxt i = .ok v ↔ nxt[i]? = some v := by
  unfold nxtAt
  split <;> simp_all

theorem Sound.le_of_fallBack {p : List UInt8} {nxt : List Nat} (hnxt : Sound p nxt) {fuel j i k : Nat}
    (h : fallBack (fun i => i) p nxt j fuel i = .ok k) : k ≤ i := by
  induction fuel generalizing i with
  | zero => cases h
  | succ fuel ih =>
      obtain ⟨a, -, h⟩ := bind_eq_ok h
      obtain ⟨b, -, h⟩ := bind_eq_ok h
      split at h
      · obtain ⟨v, hv, h⟩ := bind_eq_ok h
        exact (ih h).trans (hnxt.entry i v (nxtAt_eq_ok.mp hv)).1
      · cases h
        exact le_rfl

theorem Sound.set {p : List UInt8} {nxt : List Nat} (hnxt : Sound p nxt) {j k : Nat} (hkj : k < j)
    (hj : j < p.length) (heq : p[k]? = p[j]?) : Sound p (nxt.set j (k + 1)) where
  length := by rw [List.length_set, hnxt.length]
  entry := by
    intro n b hb
    by_cases hn : n = j
    · subst hn
      rw [List.getElem?_set_self (by rw [hnxt.length]; exact hj)] at hb
      cases hb
      exact ⟨hkj, fun _ => heq⟩
    · rw [List.getElem?_set_ne (fun hjn => hn hjn.symm)] at hb
      exact hnxt.entry n b hb

theorem Sound.of_round {p : List UInt8} {fuel j : Nat} {s s' : Nat × List Nat} (hs : Sound p s.2)
    (hi : s.1 < j) (h : round (fun i => i) keep fuel p s j = .ok s') : Sound p s'.2 ∧ s'.1 < j + 1 := by
  obtain ⟨k, nxt, hback, ⟨heq, hset, rfl⟩ | ⟨hkeep, rfl⟩⟩ := Kmp.of_round h
  · have hk := hs.le_of_fallBack hback
    obtain ⟨hlt, rfl⟩ := of_setAt hset
    rw [hs.length] at hlt
    rw [charAt_of_le (by omega), charAt_of_le hlt.le] at heq
    have hchars : p[k]? = p[j]? := (getD_eq_iff (by omega) hlt).mp (Except.ok.inj heq)
    exact ⟨hs.set (by omega) hlt hchars, by dsimp only; omega⟩
  · have hk := hs.le_of_fallBack hback
    cases hkeep
    exact ⟨hs, by dsimp only; omega⟩

theorem sound_of_initNext {p : List UInt8} {fuel : Nat} {nxt : List Nat} (h : initNext fuel p = .ok nxt) :
    Sound p nxt := by
  obtain ⟨s, hrounds, h⟩ := bind_eq_ok h
  have hzeros : Sound p (List.replicate p.length 0) := by
    refine ⟨List.length_replicate, fun j b hb => ?_⟩
    obtain rfl : b = 0 := List.eq_of_mem_replicate (List.mem_of_getElem? hb)
    exact ⟨Nat.zero_le j, fun hpos => absurd hpos (Nat.lt_irrefl 0)⟩
  have hsound := rounds_keep (I := fun j s => Sound p s.2 ∧ s.1 < j)
    (fun j s t _ hs ht => hs.1.of_round hs.2 ht) ⟨hzeros, Nat.one_pos⟩ hrounds
  rw [← Except.ok.inj h]
  exact hsound.1

theorem Sound.exists_entry {p : List UInt8} {nxt : List Nat} (h : Sound p nxt) {j : Nat}
    (hj : j < p.length) : ∃ v, nxt[j]? = some v ∧ v ≤ j := by
  have hlt : j < nxt.length := by
    rw [h.length]
    exact hj
  have hv : nxt[j]? = some nxt[j] := List.getElem?_eq_getElem hlt
  exact ⟨nxt[j], hv, (h.entry j _ hv).1⟩

/-! ## The loop -/

theorem getD_eq_of_getElem? {p : List UInt8} {j : Nat} {c : UInt8} (hj : j < p.length) :
    c = p.getD j 0 ↔ p[j]? = some c := by
  simp [List.getD_eq_getElem?_getD, List.getElem?_eq_getElem hj, eq_comm]

variable {p : List UInt8} {nxt : List Nat} {i j : Nat} {c : UInt8} {rest : List UInt8} {r : Int}

/-- A character that continues the match. -/
theorem findLoop_match (hj : j + 1 < p.length) (h : p[j]? = some c) (hji : j ≤ i) :
    findLoop p nxt (c :: rest) i j = .ok r ↔
      i < intMax ∧ findLoop p nxt rest (i + 1) (j + 1) = .ok r := by
  have hlt : j < p.length := by omega
  rw [findLoop, charAt_of_le hlt.le, ok_bind, if_pos ((getD_eq_of_getElem? hlt).mpr h)]
  constructor
  · intro hok
    obtain ⟨j', hj', hok⟩ := bind_eq_ok hok
    obtain ⟨-, rfl⟩ := increment_eq_ok.mp hj'
    rw [if_neg (by omega)] at hok
    obtain ⟨i', hi', hok⟩ := bind_eq_ok hok
    obtain ⟨hi, rfl⟩ := increment_eq_ok.mp hi'
    exact ⟨hi, hok⟩
  · rintro ⟨hi, hok⟩
    rw [increment_eq_ok.mpr ⟨by omega, rfl⟩, ok_bind, if_neg (by omega),
      increment_eq_ok.mpr ⟨hi, rfl⟩, ok_bind, hok]

/-- The last character of the pattern. -/
theorem findLoop_last (hj : j + 1 = p.length) (h : p[j]? = some c) :
    findLoop p nxt (c :: rest) i j = .ok r ↔
      j < intMax ∧ r = SizeT.toInt (SizeT.add (SizeT.sub i p.length) 1) := by
  have hlt : j < p.length := by omega
  rw [findLoop, charAt_of_le hlt.le, ok_bind, if_pos ((getD_eq_of_getElem? hlt).mpr h)]
  constructor
  · intro hok
    obtain ⟨j', hj', hok⟩ := bind_eq_ok hok
    obtain ⟨hjmax, rfl⟩ := increment_eq_ok.mp hj'
    rw [if_pos hj] at hok
    injection hok with hr
    exact ⟨hjmax, hr.symm⟩
  · rintro ⟨hjmax, hr⟩
    rw [increment_eq_ok.mpr ⟨hjmax, rfl⟩, ok_bind, if_pos hj, hr]

/-- A character that does not continue the match. -/
theorem findLoop_mismatch {v : Nat} (hj : j < p.length) (h : p[j]? ≠ some c) (hv : nxt[j]? = some v) :
    findLoop p nxt (c :: rest) i j = .ok r ↔
      i < intMax ∧ findLoop p nxt rest (i + 1) v = .ok r := by
  rw [findLoop, charAt_of_le hj.le, ok_bind, if_neg (mt (getD_eq_of_getElem? hj).mp h),
    nxtAt_eq_ok.mpr hv, ok_bind]
  constructor
  · intro hok
    obtain ⟨i', hi', hok⟩ := bind_eq_ok hok
    obtain ⟨hi, rfl⟩ := increment_eq_ok.mp hi'
    exact ⟨hi, hok⟩
  · rintro ⟨hi, hok⟩
    rw [increment_eq_ok.mpr ⟨hi, rfl⟩, ok_bind, hok]

/-- `n` characters that continue the match. -/
theorem findLoop_take {n : Nat} (hn : j + n < p.length) (hji : j ≤ i) (hi : i ≤ intMax) :
    findLoop p nxt ((p.drop j).take n ++ rest) i j = .ok r ↔
      i + n ≤ intMax ∧ findLoop p nxt rest (i + n) (j + n) = .ok r := by
  induction n generalizing i j with
  | zero =>
      simp only [List.take_zero, List.nil_append, Nat.add_zero]
      exact ⟨fun h => ⟨hi, h⟩, fun h => h.2⟩
  | succ n ih =>
      have hlt : j < p.length := by omega
      have htext : (p.drop j).take (n + 1) ++ rest = p[j] :: ((p.drop (j + 1)).take n ++ rest) := by
        rw [List.drop_eq_getElem_cons hlt, List.take_succ_cons, List.cons_append]
      rw [htext, findLoop_match (by omega) (List.getElem?_eq_getElem hlt) hji,
        show i + (n + 1) = i + 1 + n by omega, show j + (n + 1) = j + 1 + n by omega]
      constructor
      · rintro ⟨hi', hok⟩
        exact (ih (by omega) (by omega) hi').mp hok
      · rintro ⟨hi', hok⟩
        exact ⟨by omega, (ih (by omega) (by omega) (by omega)).mpr ⟨hi', hok⟩⟩

/-- A beginning of the pattern and a character that does not continue it. -/
theorem findLoop_block {m v : Nat} (hm : m < p.length) (h : p[m]? ≠ some c) (hv : nxt[m]? = some v)
    (hi : i ≤ intMax) :
    findLoop p nxt (p.take m ++ c :: rest) i 0 = .ok r ↔
      i + m < intMax ∧ findLoop p nxt rest (i + m + 1) v = .ok r := by
  have htake : findLoop p nxt ((p.drop 0).take m ++ c :: rest) i 0 = .ok r ↔ _ :=
    findLoop_take (by omega) (Nat.zero_le i) hi
  rw [List.drop_zero, Nat.zero_add] at htake
  rw [htake, findLoop_mismatch hm h hv]
  constructor
  · exact fun ⟨_, hlt, hok⟩ => ⟨hlt, hok⟩
  · exact fun ⟨hlt, hok⟩ => ⟨by omega, hlt, hok⟩

/-- `i - p.size() + 1`. -/
theorem start_index {x k len : Nat} (h : x + 1 = k + len) (hlen : 0 < len) (hx : x ≤ intMax) :
    SizeT.toInt (SizeT.add (SizeT.sub x len) 1) = k := by
  have hmax : intMax = 2 ^ 31 - 1 := rfl
  have hk : SizeT.add (SizeT.sub x len) 1 = k := by
    unfold SizeT.add SizeT.sub
    omega
  have hlt : k < 2 ^ 31 := by omega
  rw [hk]
  exact SizeT.toInt_of_lt hlt

/-- The rest of the pattern, after `b` of its characters: the match is taken to begin at `i - b`. -/
theorem findLoop_drop {b : Nat} (hb : b < p.length) (hbi : b ≤ i) (hi : i ≤ intMax) :
    findLoop p nxt (p.drop b ++ rest) i b = .ok r ↔
      (i + p.length ≤ intMax + 1 + b ∧ p.length ≤ intMax) ∧ r = (i - b : Nat) := by
  -- all but the last character, and the last
  have hlast : p.length - 1 < p.length := by omega
  have htext : p.drop b ++ rest
      = (p.drop b).take (p.length - 1 - b) ++ p[p.length - 1] :: rest := by
    have hdrop : (p.drop b).drop (p.length - 1 - b) = [p[p.length - 1]] := by
      rw [List.drop_drop, show b + (p.length - 1 - b) = p.length - 1 by omega,
        List.drop_eq_getElem_cons hlast, List.drop_eq_nil_of_le (by omega)]
    calc p.drop b ++ rest
        = ((p.drop b).take (p.length - 1 - b) ++ (p.drop b).drop (p.length - 1 - b)) ++ rest := by
          rw [List.take_append_drop]
      _ = (p.drop b).take (p.length - 1 - b) ++ p[p.length - 1] :: rest := by
          rw [hdrop, List.append_assoc, List.singleton_append]
  have hindex : b + (p.length - 1 - b) = p.length - 1 := by omega
  rw [htext, findLoop_take (by omega) hbi hi, hindex,
    findLoop_last (by omega) (List.getElem?_eq_getElem hlast)]
  have hstart (hle : i + (p.length - 1 - b) ≤ intMax) :
      SizeT.toInt (SizeT.add (SizeT.sub (i + (p.length - 1 - b)) p.length) 1) = (i - b : Nat) :=
    start_index (by omega) (by omega) hle
  constructor
  · rintro ⟨hle, hlt, hr⟩
    rw [hstart hle] at hr
    exact ⟨⟨by omega, by omega⟩, hr⟩
  · rintro ⟨⟨hle, hlt⟩, hr⟩
    rw [hstart (by omega)]
    exact ⟨by omega, by omega, hr⟩

/-- Where less of the text is left than of the pattern, nothing is found any more. -/
theorem findLoop_short (hnxt : Sound p nxt) (hlen : j + rest.length < p.length)
    (h : findLoop p nxt rest i j = .ok r) : r = -1 := by
  induction rest generalizing i j with
  | nil => exact (Except.ok.inj h).symm
  | cons c rest ih =>
      rw [List.length_cons] at hlen
      obtain ⟨d, hd, h⟩ := bind_eq_ok h
      split at h
      · obtain ⟨j', hj', h⟩ := bind_eq_ok h
        obtain ⟨-, rfl⟩ := increment_eq_ok.mp hj'
        rw [if_neg (by omega)] at h
        obtain ⟨i', -, h⟩ := bind_eq_ok h
        exact ih (by omega) h
      · obtain ⟨v, hv, h⟩ := bind_eq_ok h
        have hle := (hnxt.entry j v (nxtAt_eq_ok.mp hv)).1
        obtain ⟨i', -, h⟩ := bind_eq_ok h
        exact ih (by omega) h

/-! ## First occurrences -/

/-- `r` is the index of the first occurrence in the text `t`, counted from `i`, or -1. -/
def First (p t : List UInt8) (i : Nat) (r : Int) : Prop :=
  (∃ k : Nat, r = (i + k : Nat) ∧ p <+: t.drop k ∧ ∀ n < k, ¬ p <+: t.drop n) ∨
    r = -1 ∧ ∀ k, ¬ p <+: t.drop k

/-- No beginning of the pattern ends with the character `c`, read after `m` characters that match. -/
def NoRestart (p : List UInt8) (m : Nat) (c : UInt8) : Prop :=
  ∀ b, 0 < b → ¬ p.take b <:+ p.take m ++ [c]

theorem NoRestart.ne {m : Nat} (h : NoRestart p m c) : p[m]? ≠ some c := by
  intro heq
  refine h (m + 1) (Nat.succ_pos m) ?_
  rw [List.take_add_one, heq]
  exact List.suffix_rfl

/-- Then no occurrence begins before the next character. -/
theorem NoRestart.not_prefix {m k : Nat} (h : NoRestart p m c) (hm : m < p.length) (hk : k ≤ m) :
    ¬ p <+: (p.take m ++ c :: rest).drop k := by
  intro hprefix
  refine h (m + 1 - k) (by omega) ?_
  have hlength : ((p.take m ++ [c]).drop k).length = m + 1 - k := by
    rw [List.length_drop, List.length_append, List.length_take, Nat.min_eq_left hm.le,
      List.length_singleton]
  have htext : (p.take m ++ c :: rest).drop k = (p.take m ++ [c]).drop k ++ rest := by
    rw [List.append_cons, List.drop_append_of_le_length]
    rw [List.length_append, List.length_take, Nat.min_eq_left hm.le, List.length_singleton]
    omega
  -- the occurrence begins with what is left of the characters up to `c`
  have htake : p.take (m + 1 - k) = (p.take m ++ [c]).drop k := by
    rw [htext] at hprefix
    have heq := List.prefix_iff_eq_take.mp
      ((List.take_prefix (m + 1 - k) p).trans hprefix)
    rw [List.length_take, Nat.min_eq_left (by omega), ← hlength, List.take_left, hlength] at heq
    exact heq
  rw [htake]
  exact List.drop_suffix k _

theorem drop_block {m k : Nat} (hm : m < p.length) :
    (p.take m ++ c :: rest).drop (m + 1 + k) = rest.drop k := by
  rw [List.append_cons, List.drop_append, List.length_append, List.length_take,
    Nat.min_eq_left hm.le, List.length_singleton, Nat.add_sub_cancel_left, List.drop_eq_nil_of_le]
  · exact List.nil_append _
  · rw [List.length_append, List.length_take, Nat.min_eq_left hm.le, List.length_singleton]
    omega

theorem NoRestart.first_iff {m : Nat} (h : NoRestart p m c) (hm : m < p.length) :
    First p (p.take m ++ c :: rest) i r ↔ First p rest (i + m + 1) r := by
  constructor
  · rintro (⟨k, hr, hprefix, hmin⟩ | ⟨hr, hnone⟩)
    · have hkm : m < k := by
        by_contra hle
        exact h.not_prefix hm (by omega) hprefix
      obtain ⟨k, rfl⟩ : ∃ n, k = m + 1 + n := ⟨k - (m + 1), by omega⟩
      rw [drop_block hm] at hprefix
      refine Or.inl ⟨k, ?_, hprefix, fun n hn => ?_⟩
      · rw [hr, show i + (m + 1 + k) = i + m + 1 + k by omega]
      · have := hmin (m + 1 + n) (by omega)
        rwa [drop_block hm] at this
    · refine Or.inr ⟨hr, fun k => ?_⟩
      have := hnone (m + 1 + k)
      rwa [drop_block hm] at this
  · rintro (⟨k, hr, hprefix, hmin⟩ | ⟨hr, hnone⟩)
    · refine Or.inl ⟨m + 1 + k, ?_, ?_, fun n hn => ?_⟩
      · rw [hr, show i + (m + 1 + k) = i + m + 1 + k by omega]
      · rwa [drop_block hm]
      · by_cases hnm : n ≤ m
        · exact h.not_prefix hm hnm
        · obtain ⟨n, rfl⟩ : ∃ n', n = m + 1 + n' := ⟨n - (m + 1), by omega⟩
          rw [drop_block hm]
          exact hmin n (by omega)
    · refine Or.inr ⟨hr, fun k => ?_⟩
      by_cases hkm : k ≤ m
      · exact h.not_prefix hm hkm
      · obtain ⟨k, rfl⟩ : ∃ n, k = m + 1 + n := ⟨k - (m + 1), by omega⟩
        rw [drop_block hm]
        exact hnone k

/-! ## Clean texts -/

/-- From the index `i` on, the text is a sequence of beginnings of the pattern, each followed by a character
after which `nxt` gives 0, rightly, and then the pattern or the end of the text; and no index that is
reached is too large for an `int`. -/
inductive Clean (p : List UInt8) (nxt : List Nat) : Nat → List UInt8 → Prop where
  | found {i : Nat} (rest : List UInt8) : i + p.length ≤ intMax + 1 → p.length ≤ intMax →
      Clean p nxt i (p ++ rest)
  | ended {i m : Nat} : m < p.length → i + m ≤ intMax → Clean p nxt i (p.take m)
  | mismatch {i m : Nat} {c : UInt8} {rest : List UInt8} : m < p.length → nxt[m]? = some 0 →
      NoRestart p m c → i + m < intMax → Clean p nxt (i + m + 1) rest →
      Clean p nxt i (p.take m ++ c :: rest)

/-- The loop returns the first occurrence in the rest `t` of the text. -/
def LoopFinds (p : List UInt8) (nxt : List Nat) (i : Nat) (t : List UInt8) : Prop :=
  ∃ r, findLoop p nxt t i 0 = .ok r ∧ First p t i r

/-- After a harmless mismatch the loop is right if it is right for the rest. -/
theorem loopFinds_mismatch {m : Nat} (hm : m < p.length) (hnxt : nxt[m]? = some 0)
    (h : NoRestart p m c) (hi : i + m < intMax) :
    LoopFinds p nxt i (p.take m ++ c :: rest) ↔ LoopFinds p nxt (i + m + 1) rest := by
  unfold LoopFinds
  refine exists_congr fun r => and_congr ?_ (h.first_iff hm)
  rw [findLoop_block hm h.ne hnxt (by omega)]
  exact and_iff_right hi

theorem not_prefix_of_length_lt {t : List UInt8} (h : t.length < p.length) (k : Nat) :
    ¬ p <+: t.drop k := by
  intro hprefix
  have hle := hprefix.length_le
  rw [List.length_drop] at hle
  omega

theorem Clean.loopFinds {t : List UInt8} (hp : p ≠ []) (h : Clean p nxt i t) : LoopFinds p nxt i t := by
  induction h with
  | @found i rest hindex hlength =>
      refine ⟨(i : Nat), ?_, Or.inl ⟨0, rfl, List.prefix_append p rest, fun n hn => absurd hn (by omega)⟩⟩
      have hpos : 0 < p.length := List.length_pos_of_ne_nil hp
      have hfound : findLoop p nxt (p.drop 0 ++ rest) i 0 = .ok ((i : Nat) : Int) ↔ _ :=
        findLoop_drop hpos (Nat.zero_le i) (by omega)
      exact hfound.mpr ⟨⟨hindex, hlength⟩, rfl⟩
  | @ended i m hm hindex =>
      have hlength : (p.take m).length < p.length := by
        rw [List.length_take]
        omega
      refine ⟨-1, ?_, Or.inr ⟨rfl, not_prefix_of_length_lt hlength⟩⟩
      have hend : findLoop p nxt ((p.drop 0).take m ++ []) i 0 = .ok (-1) ↔ _ :=
        findLoop_take (by omega) (Nat.zero_le i) (by omega)
      rw [List.drop_zero, List.append_nil] at hend
      exact hend.mpr ⟨hindex, rfl⟩
  | mismatch hm hnxt hno hindex _ ih => exact (loopFinds_mismatch hm hnxt hno hindex).mpr ih

/-! ## Texts that are not clean -/

/-- How a text begins, compared with the pattern. -/
theorem beginning_cases (p t : List UInt8) :
    (∃ u, t = p ++ u) ∨ (∃ m, m < p.length ∧ t = p.take m) ∨
      ∃ m c u, m < p.length ∧ p[m]? ≠ some c ∧ t = p.take m ++ c :: u := by
  induction p generalizing t with
  | nil => exact Or.inl ⟨t, rfl⟩
  | cons a p ih =>
      cases t with
      | nil => exact Or.inr (Or.inl ⟨0, Nat.succ_pos _, rfl⟩)
      | cons b t =>
          by_cases hab : a = b
          · subst hab
            rcases ih t with ⟨u, rfl⟩ | ⟨m, hm, rfl⟩ | ⟨m, c, u, hm, hne, rfl⟩
            · exact Or.inl ⟨u, rfl⟩
            · exact Or.inr (Or.inl ⟨m + 1, Nat.succ_lt_succ hm, rfl⟩)
            · exact Or.inr (Or.inr ⟨m + 1, c, u, Nat.succ_lt_succ hm, hne, rfl⟩)
          · refine Or.inr (Or.inr ⟨0, b, t, Nat.succ_pos _, ?_, rfl⟩)
            exact fun heq => hab (Option.some.inj heq)

theorem getElem?_take_append {m n : Nat} (h : n < m) (hm : m ≤ p.length) :
    (p.take m ++ rest)[n]? = p[n]? := by
  have hlt : n < (p.take m).length := by
    rw [List.length_take]
    omega
  rw [List.getElem?_append_left hlt, List.getElem?_take_of_lt h]

theorem getElem?_block {m : Nat} (hm : m < p.length) : (p.take m ++ c :: rest)[m]? = some c := by
  have hlength : (p.take m).length = m := by
    rw [List.length_take, Nat.min_eq_left hm.le]
  rw [List.getElem?_append_right hlength.le, hlength, Nat.sub_self, List.getElem?_cons_zero]

/-- How far into a beginning of the pattern the indices have to fit. -/
theorem Clean.index_le {t u : List UInt8} {m : Nat} (h : Clean p nxt i t) (hm : m < p.length)
    (ht : t = p.take m ++ u) : i + m ≤ intMax := by
  cases h with
  | found rest hindex _ => omega
  | @ended _ n hn hindex =>
      have hlength := congrArg List.length ht
      rw [List.length_append, List.length_take, List.length_take] at hlength
      omega
  | @mismatch _ n c rest hn _ hno hindex _ =>
      by_cases hnm : n < m
      · have heq : (p.take m ++ u)[n]? = some c := by rw [← ht, getElem?_block hn]
        rw [getElem?_take_append hnm hm.le] at heq
        exact absurd heq hno.ne
      · omega

theorem Clean.of_found {t u : List UInt8} (h : Clean p nxt i t) (ht : t = p ++ u) :
    i + p.length ≤ intMax + 1 ∧ p.length ≤ intMax := by
  cases h with
  | found rest hindex hlength => exact ⟨hindex, hlength⟩
  | @ended _ n hn hindex =>
      have hlength := congrArg List.length ht
      rw [List.length_append, List.length_take] at hlength
      omega
  | @mismatch _ n c rest hn _ hno _ _ =>
      have heq : (p ++ u)[n]? = some c := by rw [← ht, getElem?_block hn]
      rw [List.getElem?_append_left hn] at heq
      exact absurd heq hno.ne

theorem Clean.of_mismatch {t u : List UInt8} {m : Nat} (h : Clean p nxt i t) (hm : m < p.length)
    (hne : p[m]? ≠ some c) (ht : t = p.take m ++ c :: u) :
    (nxt[m]? = some 0 ∧ NoRestart p m c ∧ i + m < intMax) ∧ Clean p nxt (i + m + 1) u := by
  have hc : t[m]? = some c := by rw [ht, getElem?_block hm]
  cases h with
  | found rest _ _ =>
      rw [List.getElem?_append_left hm] at hc
      exact absurd hc hne
  | @ended _ n hn hindex =>
      have hmn : m < n := by
        have hlength := congrArg List.length ht
        rw [List.length_append, List.length_take, List.length_take, List.length_cons] at hlength
        omega
      rw [List.getElem?_take_of_lt hmn] at hc
      exact absurd hc hne
  | @mismatch _ n d rest hn hnxt hno hindex hrest =>
      have hd : (p.take m ++ c :: u)[n]? = some d := by rw [← ht, getElem?_block hn]
      obtain hlt | rfl | hlt := Nat.lt_trichotomy m n
      · rw [getElem?_take_append hlt hn.le] at hc
        exact absurd hc hne
      · obtain ⟨rfl, rfl⟩ := List.cons_eq_cons.mp (List.append_cancel_left ht)
        exact ⟨⟨hnxt, hno, hindex⟩, hrest⟩
      · rw [getElem?_take_append hlt hm.le] at hd
        exact absurd hd hno.ne

/-- An entry that is not 0 stands for a match that is not there, and the rest of the pattern completes
it. -/
theorem not_loopFinds_wrong_entry {m b : Nat} (hnxt : Sound p nxt) (hm : m < p.length)
    (hne : p[m]? ≠ some c) (hv : nxt[m]? = some b) (hb : 0 < b) (hi : i ≤ intMax) :
    ¬ LoopFinds p nxt i (p.take m ++ c :: p.drop b) := by
  rintro ⟨r, hr, hfirst⟩
  obtain ⟨hbm, heq⟩ := hnxt.entry m b hv
  obtain ⟨hlt, hr⟩ := (findLoop_block hm hne hv hi).mp hr
  rw [← List.append_nil (p.drop b)] at hr
  obtain ⟨-, hr⟩ := (findLoop_drop (by omega) (by omega) (by omega)).mp hr
  -- the loop reports an occurrence in which `c` stands where the pattern has `p[m]`
  rcases hfirst with ⟨k, hk, ⟨w, hw⟩, -⟩ | ⟨hnone, -⟩
  · have hindex : k + (b - 1) = m := by omega
    have hchar : ((p.take m ++ c :: p.drop b).drop k)[b - 1]? = some c := by
      rw [List.getElem?_drop, hindex, getElem?_block hm]
    rw [← hw, List.getElem?_append_left (by omega), heq hb] at hchar
    exact hne hchar
  · omega

/-- The entry 0 loses a match that ends with the character just read. -/
theorem not_loopFinds_lost {m b : Nat} (hnxt : Sound p nxt) (hm : m < p.length) (hne : p[m]? ≠ some c)
    (hv : nxt[m]? = some 0) (hb : 0 < b) (hbp : b ≤ p.length)
    (hsuffix : p.take b <:+ p.take m ++ [c]) (hi : i ≤ intMax) :
    ¬ LoopFinds p nxt i (p.take m ++ c :: p.drop b) := by
  rintro ⟨r, hr, hfirst⟩
  obtain ⟨-, hr⟩ := (findLoop_block hm hne hv hi).mp hr
  -- from the state 0 the loop cannot get through the pattern any more
  have hminus : r = -1 := by
    refine findLoop_short hnxt ?_ hr
    rw [List.length_drop]
    omega
  obtain ⟨w, hw⟩ := hsuffix
  have htext : p.take m ++ c :: p.drop b = w ++ p := by
    rw [List.append_cons, ← hw, List.append_assoc, List.take_append_drop]
  rcases hfirst with ⟨k, hk, -⟩ | ⟨-, hnone⟩
  · omega
  · exact hnone w.length ⟨[], by rw [htext, List.drop_left, List.append_nil]⟩

/-- A mismatch that is not harmless makes the loop wrong for some rest of the text. -/
theorem exists_not_loopFinds {m : Nat} (hnxt : Sound p nxt) (hm : m < p.length) (hne : p[m]? ≠ some c)
    (hi : i ≤ intMax) (h : ¬ (nxt[m]? = some 0 ∧ NoRestart p m c ∧ i + m < intMax)) :
    ∃ u, ¬ LoopFinds p nxt i (p.take m ++ c :: u) := by
  obtain ⟨v, hv, -⟩ := hnxt.exists_entry hm
  -- the index overflows, the entry is wrong, or 0 is
  by_cases hindex : i + m < intMax
  · by_cases hzero : v = 0
    · subst hzero
      have hrestart : ∃ b, 0 < b ∧ p.take b <:+ p.take m ++ [c] := by
        by_contra hno
        exact h ⟨hv, fun b hb hsuffix => hno ⟨b, hb, hsuffix⟩, hindex⟩
      obtain ⟨b, hb, hsuffix⟩ := hrestart
      by_cases hbp : b ≤ p.length
      · exact ⟨p.drop b, not_loopFinds_lost hnxt hm hne hv hb hbp hsuffix hi⟩
      · have hall : p.take p.length <:+ p.take m ++ [c] := by
          rw [List.take_of_length_le (by omega)] at hsuffix
          rwa [List.take_length]
        exact ⟨p.drop p.length, not_loopFinds_lost hnxt hm hne hv (by omega) le_rfl hall hi⟩
    · exact ⟨p.drop v, not_loopFinds_wrong_entry hnxt hm hne hv (Nat.pos_of_ne_zero hzero) hi⟩
  · refine ⟨[], ?_⟩
    rintro ⟨r, hr, -⟩
    exact hindex ((findLoop_block hm hne hv hi).mp hr).1

theorem take_block {m n : Nat} (hm : m < p.length) :
    (p.take m ++ c :: rest).take (m + 1 + n) = p.take m ++ c :: rest.take n := by
  have hlength : (p.take m ++ [c]).length = m + 1 := by
    rw [List.length_append, List.length_take, Nat.min_eq_left hm.le, List.length_singleton]
  rw [List.append_cons, ← hlength, List.take_length_add_append, ← List.append_cons]

/-- A text that is not clean has a beginning after which none is, and after which the loop is wrong for
some. -/
theorem exists_beginning (hp : p ≠ []) (hnxt : Sound p nxt) {t : List UInt8} (hi : i ≤ intMax)
    (h : ¬ Clean p nxt i t) :
    ∃ n ≤ t.length, (∀ u, ¬ Clean p nxt i (t.take n ++ u)) ∧ ∃ u, ¬ LoopFinds p nxt i (t.take n ++ u) := by
  -- one block of the text after another, up to the first that is not clean
  induction hlen : t.length using Nat.strong_induction_on generalizing i t with
  | _ len ih =>
    subst hlen
    rcases beginning_cases p t with ⟨u, rfl⟩ | ⟨m, hm, rfl⟩ | ⟨m, c, u, hm, hne, rfl⟩
    · have hbad : ¬ (i + p.length ≤ intMax + 1 ∧ p.length ≤ intMax) :=
        fun hb => h (Clean.found u hb.1 hb.2)
      refine ⟨p.length, by rw [List.length_append]; omega, ?_⟩
      rw [List.take_left]
      refine ⟨fun u' hclean => hbad (hclean.of_found rfl), [], ?_⟩
      rintro ⟨r, hr, -⟩
      have hpos : 0 < p.length := List.length_pos_of_ne_nil hp
      exact hbad ((findLoop_drop (b := 0) hpos (Nat.zero_le i) hi).mp hr).1
    · have hbad : ¬ i + m ≤ intMax := fun hle => h (Clean.ended hm hle)
      refine ⟨m, by rw [List.length_take]; omega, ?_⟩
      rw [List.take_take, Nat.min_self]
      refine ⟨fun u' hclean => hbad (hclean.index_le hm rfl), [], ?_⟩
      rintro ⟨r, hr, -⟩
      exact hbad ((findLoop_take (j := 0) (by omega) (Nat.zero_le i) hi).mp hr).1
    · have hlength : (p.take m ++ c :: u).length = m + 1 + u.length := by
        rw [List.length_append, List.length_take, Nat.min_eq_left hm.le, List.length_cons]
        omega
      by_cases hgood : nxt[m]? = some 0 ∧ NoRestart p m c ∧ i + m < intMax
      · -- the block is clean, and what comes after it is not
        obtain ⟨hv, hno, hindex⟩ := hgood
        have hrest : ¬ Clean p nxt (i + m + 1) u :=
          fun hclean => h (Clean.mismatch hm hv hno hindex hclean)
        obtain ⟨n, hn, hnone, u', hwrong⟩ := ih u.length (by omega) (by omega) hrest rfl
        refine ⟨m + 1 + n, by omega, ?_⟩
        rw [take_block hm]
        refine ⟨fun u'' hclean => ?_, u', ?_⟩
        · rw [List.append_assoc, List.cons_append] at hclean
          exact hnone u'' (hclean.of_mismatch hm hne rfl).2
        · rw [List.append_assoc, List.cons_append, loopFinds_mismatch hm hv hno hindex]
          exact hwrong
      · refine ⟨m + 1 + 0, by omega, ?_⟩
        rw [take_block hm, List.take_zero]
        obtain ⟨u', hwrong⟩ := exists_not_loopFinds hnxt hm hne hi hgood
        refine ⟨fun u'' hclean => ?_, u', ?_⟩
        · rw [List.append_assoc, List.cons_append] at hclean
          exact hgood (hclean.of_mismatch hm hne rfl).1
        · rwa [List.append_assoc, List.cons_append, List.nil_append]

/-! ## `KMP::find` -/

/-- `find` returns the least index, not before `ist`, at which the pattern occurs, or -1 if there is
none. -/
def Finds (s p : List UInt8) (nxt : List Nat) (ist : Nat) : Prop :=
  ∃ r, find s p nxt ist = .ok r ∧
    ((∃ i : Nat, r = i ∧ IsLeast {i | ist ≤ i ∧ p <+: s.drop i} i) ∨
      r = -1 ∧ ∀ i, ist ≤ i → ¬ p <+: s.drop i)

theorem finds_iff {s : List UInt8} {ist : Nat} : Finds s p nxt ist ↔ LoopFinds p nxt ist (s.drop ist) := by
  refine exists_congr fun r => and_congr Iff.rfl (or_congr ?_ (and_congr Iff.rfl ?_))
  · constructor
    · rintro ⟨i, hr, ⟨hi, hprefix⟩, hleast⟩
      obtain ⟨k, rfl⟩ := Nat.exists_eq_add_of_le hi
      refine ⟨k, hr, by rwa [List.drop_drop], fun n hn hn' => ?_⟩
      rw [List.drop_drop] at hn'
      have hle : ist + k ≤ ist + n := hleast ⟨Nat.le_add_right ist n, hn'⟩
      omega
    · rintro ⟨k, hr, hprefix, hmin⟩
      rw [List.drop_drop] at hprefix
      refine ⟨ist + k, hr, ⟨Nat.le_add_right ist k, hprefix⟩, ?_⟩
      rintro i ⟨hi, hi'⟩
      obtain ⟨n, rfl⟩ := Nat.exists_eq_add_of_le hi
      by_contra hlt
      exact hmin n (by omega) (by rwa [List.drop_drop])
  · constructor
    · intro hnone k
      rw [List.drop_drop]
      exact hnone (ist + k) (Nat.le_add_right ist k)
    · intro hnone i hi
      obtain ⟨k, rfl⟩ := Nat.exists_eq_add_of_le hi
      rw [← List.drop_drop]
      exact hnone k

/-- In a clean text `find` finds the first occurrence.  Any other text has a beginning after which no text is
clean, and after which `find` is wrong for some. -/
theorem finds_of_clean {fuel : Nat} {p : List UInt8} {nxt : List Nat} (hnxt : initNext fuel p = .ok nxt)
    (hp : p ≠ []) {ist : Nat} (hist : ist ≤ intMax) (s : List UInt8) :
    (Clean p nxt ist (s.drop ist) → Finds s p nxt ist) ∧
      (¬ Clean p nxt ist (s.drop ist) → ∃ n ≤ s.length,
        (∀ u, ¬ Clean p nxt ist ((s.take n ++ u).drop ist)) ∧ ∃ u, ¬ Finds (s.take n ++ u) p nxt ist) := by
  constructor
  · intro hclean
    exact finds_iff.mpr (hclean.loopFinds hp)
  · intro hnot
    obtain ⟨n, hn, hnone, u, hwrong⟩ := exists_beginning hp (sound_of_initNext hnxt) hist hnot
    have hlt : ist ≤ s.length := by
      by_contra hlt
      have hempty : s.drop ist = p.take 0 := List.drop_eq_nil_of_le (by omega)
      rw [hempty] at hnot
      exact hnot (Clean.ended (List.length_pos_of_ne_nil hp) hist)
    have htext : ∀ u, (s.take (ist + n) ++ u).drop ist = (s.drop ist).take n ++ u := by
      intro u
      have hlength : (s.take ist).length = ist := by rw [List.length_take, Nat.min_eq_left hlt]
      rw [List.take_add, List.append_assoc]
      nth_rewrite 1 [← hlength]
      rw [List.drop_left]
    refine ⟨ist + n, ?_, fun u => ?_, u, ?_⟩
    · rw [List.length_drop] at hn
      omega
    · rw [htext]
      exact hnone u
    · rw [finds_iff, htext]
      exact hwrong

/-- `ab` in `xab`. -/
theorem finds_of_clean_xab :
    initNext 1 [97, 98] = .ok [0, 0] ∧ Clean [97, 98] [0, 0] 0 [120, 97, 98] ∧
      Finds [120, 97, 98] [97, 98] [0, 0] 0 := by
  have hnxt : initNext 1 [97, 98] = .ok [0, 0] := by decide
  have hclean : Clean [97, 98] [0, 0] 0 [120, 97, 98] := by
    refine Clean.mismatch (m := 0) (by decide) rfl ?_ (by decide)
      (Clean.found (p := [97, 98]) [] (by decide) (by decide))
    intro b hb hsuffix
    obtain ⟨b, rfl⟩ := Nat.exists_eq_succ_of_ne_zero hb.ne'
    simp [List.suffix_cons_iff] at hsuffix
  exact ⟨hnxt, hclean, (finds_of_clean hnxt (by decide) (Nat.zero_le _) _).1 hclean⟩

/-- `ab` is not found in `aab`: the second `a` is compared with `b` only. -/
theorem not_finds_aab :
    initNext 1 [97, 98] = .ok [0, 0] ∧ ¬ Finds [97, 97, 98] [97, 98] [0, 0] 0 := by
  refine ⟨by decide, ?_⟩
  rintro ⟨r, hr, h⟩
  have hminus : find [97, 97, 98] [97, 98] [0, 0] 0 = .ok (-1) := by decide
  rw [hminus] at hr
  cases hr
  rcases h with ⟨i, hi, -⟩ | ⟨-, hnone⟩
  · omega
  · exact hnone 1 (Nat.zero_le 1) (by decide)

/-! ## Patterns -/

/-- In a text whose indices are `int`s a pattern of one character meets no other mismatch than at its
beginning. -/
theorem clean_singleton {a : UInt8} {t : List UInt8} (hzero : nxt[0]? = some 0)
    (hindex : i + t.length ≤ intMax) : Clean [a] nxt i t := by
  have hone : ([a] : List UInt8).length = 1 := rfl
  induction t generalizing i with
  | nil => exact Clean.ended (p := [a]) (m := 0) Nat.one_pos hindex
  | cons c t ih =>
      rw [List.length_cons] at hindex
      by_cases hca : c = a
      · subst hca
        exact Clean.found (p := [c]) t (by omega) (by omega)
      · refine Clean.mismatch (p := [a]) (m := 0) Nat.one_pos hzero ?_ (by omega) (ih (by omega))
        intro b hb hsuffix
        obtain ⟨b, rfl⟩ := Nat.exists_eq_succ_of_ne_zero hb.ne'
        rw [List.take_succ_cons, List.take_nil, List.take_zero, List.nil_append] at hsuffix
        exact hca (List.singleton_inj.mp (hsuffix.eq_of_length rfl)).symm

/-- A pattern that begins with the same character twice has the entry 1 for the second. -/
theorem entry_one {fuel : Nat} (hnxt : initNext fuel p = .ok nxt) (hlength : p.length < 2 ^ 31)
    (htwo : 2 ≤ p.length) (heq : p[0]? = p[1]?) : nxt[1]? = some 1 := by
  rw [initNext_eq fuel hlength] at hnxt
  obtain ⟨s, hrounds, hs⟩ := bind_eq_ok hnxt
  obtain ⟨n, hn⟩ : ∃ n, p.length - 1 = n + 1 := ⟨p.length - 2, by omega⟩
  rw [hn] at hrounds
  obtain ⟨t, hround, hrounds⟩ := bind_eq_ok hrounds
  have hinv : BorderInv p 2 t :=
    borderInv_of_round (by omega) Nat.one_pos (borderInv_start p) (by rw [border_one, heq]) hround
  have hborder : border p 2 = 1 := by
    have hfound := (BordersBelow.start p Nat.one_pos).found (by omega) (by rw [border_one, heq])
    rwa [border_one] at hfound
  rw [← Except.ok.inj hs, entry_of_rounds hrounds Nat.one_lt_two, hinv.filled.entry 1 (by omega),
    if_pos Nat.one_lt_two, hborder]

/-- A longer pattern is missed, or found where it is not, in a text that is one character longer. -/
theorem exists_not_finds {fuel : Nat} (hnxt : initNext fuel p = .ok nxt) (hlength : p.length < 2 ^ 31)
    (htwo : 2 ≤ p.length) : ∃ s, s.length = p.length + 1 ∧ ¬ Finds s p nxt 0 := by
  have hsound := sound_of_initNext hnxt
  have hlt : 1 < p.length := htwo
  obtain ⟨v, hv, hle⟩ := hsound.exists_entry hlt
  have htext : ∀ c, (p.take 1 ++ c :: p.drop 1).length = p.length + 1 := by
    intro c
    rw [List.length_append, List.length_take, List.length_cons, List.length_drop]
    omega
  have hwrong : ∀ c, p[1]? ≠ some c → v = 1 →
      ¬ Finds (p.take 1 ++ c :: p.drop 1) p nxt 0 := by
    rintro c hne rfl
    rw [finds_iff, List.drop_zero]
    exact not_loopFinds_wrong_entry hsound hlt hne hv Nat.one_pos (Nat.zero_le _)
  by_cases heq : p[0]? = p[1]?
  · -- any other character after the first, where the entry 1 counts it as matched
    have hone : v = 1 := Option.some.inj (hv.symm.trans (entry_one hnxt hlength htwo heq))
    refine ⟨_, htext (p[1] + 1), hwrong (p[1] + 1) ?_ hone⟩
    rw [List.getElem?_eq_getElem hlt, Ne, Option.some.injEq]
    intro hsame
    have hnat := congrArg UInt8.toNat hsame
    have hbyte := p[1].toNat_lt
    rw [UInt8.toNat_add, UInt8.toNat_one] at hnat
    omega
  · -- the first character twice, of which the second begins the occurrence
    have hfirst : p[0]? = some p[0] := List.getElem?_eq_getElem (by omega)
    have hne : p[1]? ≠ some p[0] := by
      rw [← hfirst]
      exact fun h => heq h.symm
    refine ⟨_, htext p[0], ?_⟩
    by_cases hzero : v = 0
    · subst hzero
      rw [finds_iff, List.drop_zero]
      refine not_loopFinds_lost hsound hlt hne hv Nat.one_pos (by omega) ?_ (Nat.zero_le _)
      rw [List.take_add_one, List.take_zero, hfirst]
      exact List.suffix_append _ _
    · exact hwrong p[0] hne (by omega)

/-- `find` finds a pattern in every text whose indices are `int`s exactly if it has one character. -/
theorem forall_finds_iff {fuel : Nat} (hnxt : initNext fuel p = .ok nxt) (hp : p ≠ [])
    (hlength : p.length < intMax) :
    (∀ s ist, s.length ≤ intMax → ist ≤ intMax → Finds s p nxt ist) ↔ p.length = 1 := by
  have hpos := List.length_pos_of_ne_nil hp
  have hmax : intMax = 2 ^ 31 - 1 := rfl
  constructor
  · intro hall
    by_contra hne
    obtain ⟨s, hs, hwrong⟩ := exists_not_finds hnxt (by omega) (by omega)
    exact hwrong (hall s 0 (by omega) (Nat.zero_le _))
  · intro hone s ist hs hist
    obtain ⟨a, rfl⟩ := List.length_eq_one_iff.mp hone
    obtain ⟨v, hv, hle⟩ := (sound_of_initNext hnxt).exists_entry Nat.one_pos
    obtain rfl : v = 0 := Nat.le_zero.mp hle
    refine finds_iff.mpr (Clean.loopFinds hp (clean_singleton hv ?_))
    rw [List.length_drop]
    omega

end Kmp
end Any
end MyCppCode
