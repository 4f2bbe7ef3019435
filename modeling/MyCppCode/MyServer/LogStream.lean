import Mathlib.Tactic.IntervalCases
import MyCppCode.Foundation.Machine

/-!
# LogStream — the buffer of a log record and the operators that write into it

`FixedBuffer<SIZE>` is a block of `SIZE` characters and a cursor into it.  The cursor is an offset
here; a write or a move of the cursor beyond the block is undefined behaviour.  `append` copies a
text only when it leaves at least one character free.

`formatInteger` produces the digits of a number from the remainders of C++, which are negative for a
negative number, through a table that is addressed from its middle; it writes them in reverse order
and turns them round in place.  `insertInteger_decimal` says what that comes to for every value of
every integer type.  The other operators are at the end; what they have in common is that they
leave alone what stands before the cursor (`insert_extends`).
-/

namespace MyCppCode
namespace MyServer

open Foundation

def kSmallBuffer : Nat := 4000

/-! ## `FixedBuffer` -/

/-- The characters of `v` from offset `pos` on replaced by `text`. -/
def overwrite (v : List Char) (pos : Nat) (text : List Char) : List Char :=
  v.take pos ++ text ++ v.drop (pos + text.length)

theorem length_overwrite {v text : List Char} {pos : Nat} (h : pos + text.length ≤ v.length) :
    (overwrite v pos text).length = v.length := by
  simp only [overwrite, List.length_append, List.length_take, List.length_drop]
  omega

/-- A second text right behind the first. -/
theorem overwrite_overwrite {v : List Char} {pos : Nat} (s t : List Char) (h : pos ≤ v.length) :
    overwrite (overwrite v pos s) (pos + s.length) t = overwrite v pos (s ++ t) := by
  have hlen : (v.take pos ++ s).length = pos + s.length := by
    simp [h]
  have htake : (overwrite v pos s).take (pos + s.length) = v.take pos ++ s :=
    List.take_left' hlen
  have hdrop : (overwrite v pos s).drop (pos + s.length + t.length) =
      v.drop (pos + s.length + t.length) := by
    unfold overwrite
    rw [← List.drop_drop, List.drop_left' hlen, List.drop_drop]
  rw [overwrite, htake, hdrop]
  simp [overwrite, Nat.add_assoc]

/-- A text over the beginning of another one that is no shorter. -/
theorem overwrite_same {v : List Char} {pos : Nat} {s s' : List Char} (t : List Char)
    (h : pos ≤ v.length) (hs : s'.length = s.length) :
    overwrite (overwrite v pos (s ++ t)) pos s' = overwrite v pos (s' ++ t) := by
  have htake : (overwrite v pos (s ++ t)).take pos = v.take pos := by
    rw [overwrite, List.append_assoc]
    exact List.take_left' (by simp [h])
  have hdrop : (overwrite v pos (s ++ t)).drop (pos + s'.length) =
      t ++ v.drop (pos + (s ++ t).length) := by
    have hlen : (v.take pos ++ s).length = pos + s'.length := by
      simp [h, hs]
    rw [overwrite, ← List.append_assoc, List.append_assoc _ t]
    exact List.drop_left' hlen
  rw [overwrite, htake, hdrop]
  simp [overwrite, hs]

theorem take_overwrite {v : List Char} {pos n : Nat} (text : List Char) (hn : n ≤ pos)
    (hpos : pos ≤ v.length) : (overwrite v pos text).take n = v.take n := by
  rw [overwrite, List.append_assoc, List.take_append_of_le_length (by simp; omega), List.take_take,
    Nat.min_eq_left hn]

theorem readRange_overwrite {v : List Char} {pos : Nat} (s t : List Char)
    (h : pos + (s ++ t).length ≤ v.length) :
    readRange (overwrite v pos (s ++ t)) pos (pos + s.length) = .ok s := by
  rw [readRange_eq_ok (by omega) (by rw [length_overwrite h]; simp at h; omega)]
  have hdrop : (overwrite v pos (s ++ t)).drop pos = s ++ (t ++ v.drop (pos + (s ++ t).length)) := by
    rw [overwrite, List.append_assoc, List.append_assoc]
    exact List.drop_left' (by simp; omega)
  rw [hdrop, Nat.add_sub_cancel_left, List.take_left]

/-- `m_cur` is the offset of the cursor from `m_data`. -/
structure FixedBuffer (SIZE : Nat) where
  m_data : List Char
  m_cur : Nat
  length_data : m_data.length = SIZE
  cur_le : m_cur ≤ SIZE

namespace FixedBuffer

variable {SIZE : Nat}

/-- The constructor sets the cursor and leaves the characters as they are in memory. -/
def init (memory : List Char) (h : memory.length = SIZE) : FixedBuffer SIZE :=
  ⟨memory, 0, h, Nat.zero_le SIZE⟩

def avail (b : FixedBuffer SIZE) : Nat := SIZE - b.m_cur

/-- `end() - m_data`: the size of the block, wherever the cursor is. -/
def length (_ : FixedBuffer SIZE) : Nat := SIZE

/-- Assignments to the characters from offset `pos` on. -/
def store (b : FixedBuffer SIZE) (pos : Nat) (text : List Char) : Except Halt (FixedBuffer SIZE) :=
  if h : pos + text.length ≤ SIZE then
    .ok
      { b with
        m_data := overwrite b.m_data pos text
        length_data := by
          rw [length_overwrite (by rw [b.length_data]; exact h), b.length_data] }
  else
    .error .undefinedBehaviour

def add (b : FixedBuffer SIZE) (len : Nat) : Except Halt (FixedBuffer SIZE) :=
  if h : b.m_cur + len ≤ SIZE then
    .ok { b with m_cur := b.m_cur + len, cur_le := h }
  else
    .error .undefinedBehaviour

/-- `buf` is the memory that the argument points to; `memcpy` reads `len` characters of it. -/
def append (b : FixedBuffer SIZE) (buf : List Char) (len : Nat) : Except Halt (FixedBuffer SIZE) :=
  if b.avail > len then do
    let text ← readRange buf 0 len
    let b ← b.store b.m_cur text
    b.add len
  else
    .ok b

/-- `std::reverse` on the characters from offset `first` up to `last`. -/
def reverse (b : FixedBuffer SIZE) (first last : Nat) : Except Halt (FixedBuffer SIZE) := do
  let text ← readRange b.m_data first last
  b.store first text.reverse

def toString (b : FixedBuffer SIZE) : List Char := b.m_data.take b.length

variable {b b' : FixedBuffer SIZE} {pos len : Nat} {text : List Char}

theorem store_eq_ok_iff :
    b.store pos text = .ok b' ↔
      pos + text.length ≤ SIZE ∧ b'.m_data = overwrite b.m_data pos text ∧ b'.m_cur = b.m_cur := by
  unfold store
  cases b' with
  | mk data cur hlen hcur =>
      split
      · simp [*, eq_comm]
      · simp [*]

theorem add_eq_ok_iff :
    b.add len = .ok b' ↔ b.m_cur + len ≤ SIZE ∧ b'.m_data = b.m_data ∧ b'.m_cur = b.m_cur + len := by
  unfold add
  cases b' with
  | mk data cur hlen hcur =>
      split
      · simp [*, eq_comm]
      · simp [*]

theorem exists_store (h : pos + text.length ≤ SIZE) : ∃ b', b.store pos text = .ok b' :=
  ⟨_, dif_pos h⟩

theorem exists_add (h : b.m_cur + len ≤ SIZE) : ∃ b', b.add len = .ok b' :=
  ⟨_, dif_pos h⟩

/-- Text written at the cursor, and the cursor moved inside the block. -/
theorem store_add_spec (htext : b.m_cur + text.length ≤ SIZE) (hlen : b.m_cur + len ≤ SIZE) :
    ∃ b', (b.store b.m_cur text >>= fun b₁ => b₁.add len) = .ok b' ∧
      b'.m_data = overwrite b.m_data b.m_cur text ∧ b'.m_cur = b.m_cur + len := by
  obtain ⟨b₁, hstore⟩ := exists_store (b := b) htext
  obtain ⟨-, hdata₁, hcur₁⟩ := store_eq_ok_iff.1 hstore
  have hroom : b₁.m_cur + len ≤ SIZE := by omega
  obtain ⟨b₂, hadd⟩ := exists_add hroom
  obtain ⟨-, hdata₂, hcur₂⟩ := add_eq_ok_iff.1 hadd
  refine ⟨b₂, ?_, by rw [hdata₂, hdata₁], by rw [hcur₂, hcur₁]⟩
  rw [hstore]
  exact hadd

/-- A text that leaves a character free is copied to the cursor. -/
theorem append_spec {buf : List Char} (havail : len < b.avail) (hlen : len ≤ buf.length) :
    ∃ b', b.append buf len = .ok b' ∧
      b'.m_data = overwrite b.m_data b.m_cur (buf.take len) ∧ b'.m_cur = b.m_cur + len := by
  have hfit : b.m_cur + len < SIZE := by
    unfold avail at havail
    omega
  have htext : b.m_cur + (buf.take len).length ≤ SIZE := by
    rw [List.length_take]
    omega
  obtain ⟨b', hok, hspec⟩ := store_add_spec htext hfit.le
  refine ⟨b', ?_, hspec⟩
  rw [append, if_pos havail, readRange_eq_ok (Nat.zero_le _) hlen]
  exact hok

/-- Two assignments, the second right behind the first, are one. -/
theorem store_bind_store (b : FixedBuffer SIZE) (pos : Nat) (s t : List Char) :
    (b.store pos s >>= fun b' => b'.store (pos + s.length) t) = b.store pos (s ++ t) := by
  by_cases hs : pos + s.length ≤ SIZE
  · obtain ⟨b', hb⟩ := exists_store (b := b) hs
    rw [hb]
    obtain ⟨-, hdata, hcur⟩ := store_eq_ok_iff.1 hb
    have hpos : pos ≤ b.m_data.length := by
      rw [b.length_data]
      omega
    simp only [bind, Except.bind, store, hdata, hcur, overwrite_overwrite s t hpos,
      List.length_append, Nat.add_assoc]
  · have ht : ¬ pos + (s ++ t).length ≤ SIZE := by
      rw [List.length_append]
      omega
    rw [store, dif_neg hs, store, dif_neg ht]
    rfl

end FixedBuffer

namespace LogStream

/-- `LogStream::Buffer`. -/
abbrev Buffer := FixedBuffer kSmallBuffer

def kMaxNumberSize : Nat := 48

/-! ## `formatInteger` -/

def digits : List Char :=
  ['9', '8', '7', '6', '5', '4', '3', '2', '1', '0', '1', '2', '3', '4', '5', '6', '7', '8', '9']

/-- `zero[remainder]`, where `zero` points to the entry 9 of `digits`. -/
def zero (remainder : Int) : Except Halt Char :=
  if 0 ≤ 9 + remainder then
    match digits[(9 + remainder).toNat]? with
    | some c => .ok c
    | none => .error .undefinedBehaviour
  else
    .error .undefinedBehaviour

theorem natAbs_tdiv_ten (num : Int) : (num.tdiv 10).natAbs = num.natAbs / 10 :=
  Int.natAbs_tdiv num 10

/-- The `do` loop of `formatInteger`, from a state in which `cur` and `num` have these values; it
returns the final value of `cur`. -/
def writeDigits (b : Buffer) (cur : Nat) (num : Int) : Except Halt (Buffer × Nat) := do
  let c ← zero (num.tmod 10)
  let b ← b.store cur [c]
  if num.tdiv 10 = 0 then
    .ok (b, cur + 1)
  else
    writeDigits b (cur + 1) (num.tdiv 10)
termination_by num.natAbs
decreasing_by
  have h := natAbs_tdiv_ten num
  omega

/-- The sign of a negative number follows its digits. -/
def writeSign (b : Buffer) (cur : Nat) (negative : Bool) : Except Halt (Buffer × Nat) :=
  if negative then do
    let b ← b.store cur ['-']
    .ok (b, cur + 1)
  else
    .ok (b, cur)

def formatInteger (b : Buffer) (num : Int) : Except Halt Buffer :=
  if b.avail ≥ kMaxNumberSize then do
    let start := b.m_cur
    let (b, cur) ← writeDigits b start num
    let (b, cur) ← writeSign b cur (num < 0)
    let b ← b.store cur ['\x00']
    let b ← b.reverse start cur
    b.add (cur - start)
  else
    .ok b

/-- A value of one of the integer types that have an `operator<<`. -/
inductive Integer
  | short (v : Int16)
  | unsignedShort (v : UInt16)
  | int (v : Int32)
  | unsignedInt (v : UInt32)
  | long (v : Int64)
  | unsignedLong (v : UInt64)
  | longLong (v : Int64)
  | unsignedLongLong (v : UInt64)

/-- The number that a value stands for. -/
def Integer.value : Integer → Int
  | .short v => v.toInt
  | .unsignedShort v => v.toNat
  | .int v => v.toInt
  | .unsignedInt v => v.toNat
  | .long v => v.toInt
  | .unsignedLong v => v.toNat
  | .longLong v => v.toInt
  | .unsignedLongLong v => v.toNat

/-- `operator<<` of the integer types; the two short types are converted to `int` and
`unsigned int` first. -/
def insertInteger (b : Buffer) : Integer → Except Halt Buffer
  | .short v => formatInteger b v.toInt32.toInt
  | .unsignedShort v => formatInteger b v.toUInt32.toNat
  | .int v => formatInteger b v.toInt
  | .unsignedInt v => formatInteger b v.toNat
  | .long v => formatInteger b v.toInt
  | .unsignedLong v => formatInteger b v.toNat
  | .longLong v => formatInteger b v.toInt
  | .unsignedLongLong v => formatInteger b v.toNat

/-! ## The text of a number -/

/-- `text` is the decimal representation of `num`: a sign for a negative number only, then digits
that denote its absolute value, the first of them `'0'` only if it is the only one. -/
structure IsDecimal (num : Int) (text : List Char) : Prop where
  exists_digits : ∃ ds : List Char,
    text = (if num < 0 then '-' :: ds else ds) ∧
    ds ≠ [] ∧
    (∀ c ∈ ds, c.isDigit) ∧
    (ds.head? = some '0' → ds = ['0']) ∧
    Nat.ofDigitChars 10 ds 0 = num.natAbs

theorem decimal_of_lt {n : Nat} (h : n < 10) : decimal n = [n.digitChar] :=
  Nat.toDigits_of_lt_base h

theorem decimal_of_le {n : Nat} (h : 10 ≤ n) :
    decimal n = decimal (n / 10) ++ [(n % 10).digitChar] :=
  Nat.toDigits_of_base_le (by decide) h

theorem decimal_eq_of_head_zero (n : Nat) : (decimal n).head? = some '0' → decimal n = ['0'] := by
  induction n using Nat.strong_induction_on with
  | h n ih =>
      intro hhead
      by_cases hn : n < 10
      · rw [decimal_of_lt hn] at hhead ⊢
        simpa using hhead
      · -- the first digit is that of `n / 10`, which is not zero
        have hle : 10 ≤ n := by omega
        have hne : decimal (n / 10) ≠ [] := Nat.toDigits_ne_nil
        rw [decimal_of_le hle, List.head?_append_of_ne_nil _ hne] at hhead
        have hzero : decimal (n / 10) = ['0'] := ih (n / 10) (by omega) hhead
        have hvalue : n / 10 = 0 := by
          have h := Nat.ofDigitChars_ten_toDigits (n := n / 10)
          rw [show Nat.toDigits 10 (n / 10) = ['0'] from hzero] at h
          exact h.symm
        omega

theorem isDecimal_formatInt (num : Int) : IsDecimal num (formatInt num) :=
  ⟨decimal num.natAbs, rfl, Nat.toDigits_ne_nil,
    fun _ hc => Nat.isDigit_of_mem_toDigits (by decide) (by decide) hc,
    decimal_eq_of_head_zero num.natAbs, Nat.ofDigitChars_ten_toDigits⟩

theorem length_formatInt_le {num : Int} (h : num.natAbs < 10 ^ 20) : (formatInt num).length ≤ 21 := by
  have hdec : (decimal num.natAbs).length ≤ 20 :=
    (Nat.length_toDigits_le_iff (by decide) (by decide)).2 h
  unfold formatInt
  split
  · rw [List.length_cons]
    omega
  · omega

/-! ## What `formatInteger` writes -/

/-- The table has the digit of `r` at distance `r` on both sides of its middle. -/
theorem zero_eq {r : Int} (h : r.natAbs < 10) : zero r = .ok r.natAbs.digitChar := by
  have hlo : -9 ≤ r := by omega
  have hhi : r ≤ 9 := by omega
  interval_cases r <;> rfl

theorem zero_tmod (num : Int) : zero (num.tmod 10) = .ok (num.natAbs % 10).digitChar := by
  have h : (num.tmod 10).natAbs = num.natAbs % 10 := Int.natAbs_tmod num 10
  rw [← h]
  exact zero_eq (by omega)

theorem tdiv_ten_eq_zero_iff (num : Int) : num.tdiv 10 = 0 ↔ num.natAbs < 10 := by
  have h := natAbs_tdiv_ten num
  omega

/-- The loop writes the digits of the absolute value, the last one first. -/
theorem writeDigits_eq (b : Buffer) (cur : Nat) (num : Int) :
    writeDigits b cur num =
      (b.store cur (decimal num.natAbs).reverse >>= fun b' =>
        .ok (b', cur + (decimal num.natAbs).length)) := by
  induction b, cur, num using writeDigits.induct with
  | case1 b cur num ih =>
      rw [writeDigits, zero_tmod]
      simp only [tdiv_ten_eq_zero_iff] at ih ⊢
      by_cases hn : num.natAbs < 10
      · simp only [if_pos hn, decimal_of_lt hn, Nat.mod_eq_of_lt hn]
        rfl
      · have hdec := decimal_of_le (Nat.le_of_not_lt hn)
        simp only [if_neg hn, ih _ hn, natAbs_tdiv_ten]
        rw [hdec, List.reverse_append, List.reverse_singleton, ← FixedBuffer.store_bind_store,
          bind_assoc, List.length_append, List.length_singleton, ← Nat.add_assoc,
          Nat.add_right_comm cur]
        rfl

/-- The sign, if there is one, follows at once. -/
theorem writeDigits_bind_writeSign (b : Buffer) (num : Int) (start : Nat) :
    (writeDigits b start num >>= fun (b, cur) => writeSign b cur (num < 0)) =
      (b.store start (formatInt num).reverse >>= fun b' =>
        .ok (b', start + (formatInt num).length)) := by
  rw [writeDigits_eq, bind_assoc]
  by_cases hneg : num < 0
  · simp only [formatInt, writeSign, hneg, decide_true, if_true, List.reverse_cons]
    rw [← FixedBuffer.store_bind_store, bind_assoc, List.length_reverse, List.length_cons,
      ← Nat.add_assoc]
    rfl
  · simp only [formatInt, writeSign, hneg, decide_false, Bool.false_eq_true, if_false]
    rfl

/-- A text and what follows it, of which the text is then turned round. -/
theorem store_bind_reverse {b : Buffer} {pos : Nat} {s t : List Char}
    (h : pos + (s ++ t).length ≤ kSmallBuffer) :
    (b.store pos (s ++ t) >>= fun b' => b'.reverse pos (pos + s.length)) =
      b.store pos (s.reverse ++ t) := by
  obtain ⟨b', hb⟩ := FixedBuffer.exists_store (b := b) h
  obtain ⟨-, hdata, hcur⟩ := FixedBuffer.store_eq_ok_iff.1 hb
  have hlen : pos + (s ++ t).length ≤ b.m_data.length := by
    rw [b.length_data]
    exact h
  have hpos : pos ≤ b.m_data.length := by omega
  have hstore : b'.store pos s.reverse = b.store pos (s.reverse ++ t) := by
    have hfit : pos + s.reverse.length ≤ kSmallBuffer := by
      simp at h ⊢
      omega
    have hfit' : pos + (s.reverse ++ t).length ≤ kSmallBuffer := by
      simpa using h
    rw [FixedBuffer.store, dif_pos hfit, FixedBuffer.store, dif_pos hfit']
    simp only [hdata, hcur, overwrite_same t hpos (List.length_reverse)]
  rw [hb]
  calc
    b'.reverse pos (pos + s.length)
        = (readRange b'.m_data pos (pos + s.length) >>= fun text => b'.store pos text.reverse) := rfl
    _ = b'.store pos s.reverse := by
          rw [hdata, readRange_overwrite s t hlen]
          rfl
    _ = b.store pos (s.reverse ++ t) := hstore

/-- All of `formatInteger` is one assignment and one move of the cursor. -/
theorem formatInteger_eq {b : Buffer} {num : Int} (havail : kMaxNumberSize ≤ b.avail)
    (hfit : b.m_cur + (formatInt num).length < kSmallBuffer) :
    formatInteger b num =
      (b.store b.m_cur (formatInt num ++ ['\x00']) >>= fun b' => b'.add (formatInt num).length) := by
  let text := formatInt num
  let stop := b.m_cur + text.length
  have hrev : b.m_cur + text.reverse.length = stop := by
    rw [List.length_reverse]
  have hroom : b.m_cur + (text.reverse ++ ['\x00']).length ≤ kSmallBuffer := by
    rw [List.length_append, List.length_reverse]
    exact hfit
  calc
    formatInteger b num
        = ((writeDigits b b.m_cur num >>= fun (b, cur) => writeSign b cur (num < 0)) >>=
            fun (b', cur) => b'.store cur ['\x00'] >>= fun b' => b'.reverse b.m_cur cur >>=
              fun b' => b'.add (cur - b.m_cur)) := by
          rw [formatInteger, if_pos havail, bind_assoc]
    _ = ((b.store b.m_cur text.reverse >>= fun b' =>
            b'.store (b.m_cur + text.reverse.length) ['\x00']) >>= fun b' =>
              b'.reverse b.m_cur stop >>= fun b' => b'.add (stop - b.m_cur)) := by
          rw [writeDigits_bind_writeSign, bind_assoc, bind_assoc, hrev]
          rfl
    _ = ((b.store b.m_cur (text.reverse ++ ['\x00']) >>= fun b' =>
            b'.reverse b.m_cur (b.m_cur + text.reverse.length)) >>= fun b' => b'.add text.length) := by
          rw [FixedBuffer.store_bind_store, bind_assoc, hrev, Nat.add_sub_cancel_left]
    _ = (b.store b.m_cur (text ++ ['\x00']) >>= fun b' => b'.add text.length) := by
          rw [store_bind_reverse hroom, List.reverse_reverse]

/-- The characters of a number and a final `'\0'` go to the cursor, and the cursor behind the number. -/
theorem formatInteger_spec {b : Buffer} {num : Int} (hnum : num.natAbs < 10 ^ 20)
    (havail : kMaxNumberSize ≤ b.avail) :
    ∃ b', formatInteger b num = .ok b' ∧
      b'.m_data = overwrite b.m_data b.m_cur (formatInt num ++ ['\x00']) ∧
      b'.m_cur = b.m_cur + (formatInt num).length ∧
      (formatInt num).length < b.avail := by
  have hlen : (formatInt num).length ≤ 21 := length_formatInt_le hnum
  have hroom : (formatInt num).length < b.avail := by
    unfold kMaxNumberSize at havail
    omega
  have hfit : b.m_cur + (formatInt num).length < kSmallBuffer := by
    unfold FixedBuffer.avail at hroom
    omega
  have htext : b.m_cur + (formatInt num ++ ['\x00']).length ≤ kSmallBuffer := by
    rw [List.length_append]
    exact hfit
  obtain ⟨b', hok, hdata, hcur⟩ := FixedBuffer.store_add_spec htext hfit.le
  refine ⟨b', ?_, hdata, hcur, hroom⟩
  rw [formatInteger_eq havail hfit]
  exact hok

/-- Every overload passes the number itself on. -/
theorem insertInteger_eq (b : Buffer) (v : Integer) : insertInteger b v = formatInteger b v.value := by
  cases v with
  | short v => simp [insertInteger, Integer.value]
  | unsignedShort v => simp [insertInteger, Integer.value]
  | _ => rfl

/-- No type has a value of more than twenty digits. -/
theorem natAbs_value_lt (v : Integer) : v.value.natAbs < 10 ^ 20 := by
  cases v with
  | short v | int v | long v | longLong v =>
      have hlo := v.le_toInt
      have hhi := v.toInt_lt
      simp only [Integer.value]
      omega
  | unsignedShort v | unsignedInt v | unsignedLong v | unsignedLongLong v =>
      have hhi := v.toNat_lt
      simp only [Integer.value]
      omega

/-- With `kMaxNumberSize` characters available, every value of every integer type is written as its
decimal representation and a `'\0'`, inside the available space; nothing else changes, and the cursor
moves by the length of the representation. -/
theorem insertInteger_decimal (b : Buffer) (v : Integer) (havail : kMaxNumberSize ≤ b.avail) :
    IsDecimal v.value (formatInt v.value) ∧
      ∃ b', insertInteger b v = .ok b' ∧
        (formatInt v.value ++ ['\x00']).length ≤ b.avail ∧
        b'.m_data = overwrite b.m_data b.m_cur (formatInt v.value ++ ['\x00']) ∧
        b'.m_cur = b.m_cur + (formatInt v.value).length := by
  obtain ⟨b', hok, hdata, hcur, hfit⟩ := formatInteger_spec (natAbs_value_lt v) havail
  refine ⟨isDecimal_formatInt v.value, b', ?_, ?_, hdata, hcur⟩
  · rw [insertInteger_eq]
    exact hok
  · rw [List.length_append]
    exact hfit

/-- The most negative `long long`, which has no absolute value of its own type, in a fresh buffer. -/
theorem insertInteger_decimal_min :
    ∃ b : Buffer, kMaxNumberSize ≤ b.avail ∧
      formatInt (Integer.longLong Int64.minValue).value = "-9223372036854775808".toList ∧
      ∃ b', insertInteger b (.longLong Int64.minValue) = .ok b' ∧ b'.m_cur = 20 := by
  let b : Buffer := FixedBuffer.init (List.replicate kSmallBuffer ' ') List.length_replicate
  have havail : kMaxNumberSize ≤ b.avail := by decide
  have htext : formatInt (Integer.longLong Int64.minValue).value = "-9223372036854775808".toList := by
    decide
  obtain ⟨-, b', hok, -, -, hcur⟩ := insertInteger_decimal b (.longLong Int64.minValue) havail
  refine ⟨b, havail, htext, b', hok, ?_⟩
  rw [hcur, htext]
  rfl

/-! ## The other operators -/

/-- What may stand to the right of `<<`.  The overloads for `const void*` and `const unsigned char*`
pass their argument on to the one for `const char*`. -/
inductive Operand
  | integer (v : Integer)
  | float (v : Float32)
  | double (v : Float)
  | char (c : Char)
  | cstr (str : Option (List Char))
  | string (str : List Char)
  | buffer (buf : Buffer)
  | general (m_data : List Char) (m_len : Int)

def strlen (str : List Char) : Nat := (str.takeWhile (· ≠ '\x00')).length

variable (format12g : Float → List Char)

/-- `snprintf` writes at most `kMaxNumberSize` characters, `'\0'` included, and returns the length of
the whole text. -/
def insertDouble (b : Buffer) (v : Float) : Except Halt Buffer :=
  if b.avail ≥ kMaxNumberSize then do
    let b ← b.store b.m_cur (snprintf kMaxNumberSize (format12g v) ++ ['\x00'])
    b.add (format12g v).length
  else
    .ok b

/-- `operator<<`; `format12g` is `%.12g` of `printf`. -/
def insert (b : Buffer) : Operand → Except Halt Buffer
  | .integer v => insertInteger b v
  | .float v => insertDouble format12g b v.toFloat
  | .double v => insertDouble format12g b v
  | .char c => b.append [c] 1
  | .cstr (some str) => b.append (str ++ ['\x00']) (strlen str)
  | .cstr none => b.append "(null)".toList 6
  | .string str => b.append (str ++ ['\x00']) str.length
  | .buffer buf => b.append (buf.toString ++ ['\x00']) buf.toString.length
  | .general m_data m_len => b.append m_data (SizeT.ofInt m_len)

/-- `b'` is `b` with more behind the cursor. -/
structure Extends (b b' : Buffer) : Prop where
  cur_le : b.m_cur ≤ b'.m_cur
  take_eq : b'.m_data.take b.m_cur = b.m_data.take b.m_cur

namespace Extends

variable {b b' b'' : Buffer}

theorem refl (b : Buffer) : Extends b b := ⟨le_rfl, rfl⟩

theorem trans (h : Extends b b') (h' : Extends b' b'') : Extends b b'' := by
  refine ⟨h.cur_le.trans h'.cur_le, ?_⟩
  have htake := congrArg (List.take b.m_cur) h'.take_eq
  rw [List.take_take, List.take_take, Nat.min_eq_left h.cur_le] at htake
  rw [htake, h.take_eq]

/-- A character before the cursor stays. -/
theorem getElem? (h : Extends b b') {i : Nat} (hi : i < b.m_cur) : b'.m_data[i]? = b.m_data[i]? := by
  rw [← List.getElem?_take_of_lt hi, h.take_eq, List.getElem?_take_of_lt hi]

/-- Text at the cursor, and the cursor moved. -/
theorem of_overwrite {text : List Char} (hdata : b'.m_data = overwrite b.m_data b.m_cur text)
    (hcur : b.m_cur ≤ b'.m_cur) : Extends b b' := by
  refine ⟨hcur, ?_⟩
  rw [hdata]
  refine take_overwrite text le_rfl ?_
  rw [b.length_data]
  exact b.cur_le

end Extends

variable {format12g} {b b' : Buffer}

theorem extends_of_store_add {text : List Char} {len : Nat}
    (h : (b.store b.m_cur text >>= fun b₁ => b₁.add len) = .ok b') : Extends b b' := by
  obtain ⟨b₁, hstore, hadd⟩ := bind_eq_ok h
  obtain ⟨-, hdata₁, hcur₁⟩ := FixedBuffer.store_eq_ok_iff.1 hstore
  obtain ⟨-, hdata, hcur⟩ := FixedBuffer.add_eq_ok_iff.1 hadd
  exact Extends.of_overwrite (hdata.trans hdata₁) (by omega)

theorem append_extends {buf : List Char} {len : Nat} (h : b.append buf len = .ok b') :
    Extends b b' := by
  unfold FixedBuffer.append at h
  split at h
  · obtain ⟨text, -, hrest⟩ := bind_eq_ok h
    exact extends_of_store_add hrest
  · cases h
    exact Extends.refl b

theorem insertInteger_extends {v : Integer} (h : insertInteger b v = .ok b') : Extends b b' := by
  by_cases havail : kMaxNumberSize ≤ b.avail
  · rw [insertInteger_eq] at h
    obtain ⟨b₁, hok, hdata, hcur, -⟩ := formatInteger_spec (natAbs_value_lt v) havail
    cases hok.symm.trans h
    exact Extends.of_overwrite hdata (by omega)
  · rw [insertInteger_eq, formatInteger, if_neg havail] at h
    cases h
    exact Extends.refl b

theorem insertDouble_extends {v : Float} (h : insertDouble format12g b v = .ok b') :
    Extends b b' := by
  unfold insertDouble at h
  split at h
  · exact extends_of_store_add h
  · cases h
    exact Extends.refl b

theorem insert_extends {operand : Operand} (h : insert format12g b operand = .ok b') :
    Extends b b' := by
  cases operand with
  | integer v => exact insertInteger_extends h
  | float v => exact insertDouble_extends h
  | double v => exact insertDouble_extends h
  | char c => exact append_extends h
  | cstr str =>
      cases str with
      | none => exact append_extends h
      | some str => exact append_extends h
  | string str => exact append_extends h
  | buffer buf => exact append_extends h
  | general m_data m_len => exact append_extends h

/-- Any number of operands. -/
theorem foldlM_insert_extends {operands : List Operand}
    (h : operands.foldlM (insert format12g) b = .ok b') : Extends b b' := by
  induction operands generalizing b with
  | nil =>
      cases h
      exact Extends.refl _
  | cons operand operands ih =>
      rw [List.foldlM_cons] at h
      obtain ⟨b₁, hhead, htail⟩ := bind_eq_ok h
      exact (insert_extends hhead).trans (ih htail)

/-- The operand points to as many characters as it says, and a floating-point number has a text that
fits into `kMaxNumberSize` characters. -/
def Operand.Readable (format12g : Float → List Char) : Operand → Prop
  | .float v => (format12g v.toFloat).length < kMaxNumberSize
  | .double v => (format12g v).length < kMaxNumberSize
  | .general m_data m_len => SizeT.ofInt m_len ≤ m_data.length
  | _ => True

theorem exists_append (b : Buffer) {buf : List Char} {len : Nat} (hlen : len ≤ buf.length) :
    ∃ b', b.append buf len = .ok b' := by
  by_cases havail : len < b.avail
  · obtain ⟨b', hok, -⟩ := FixedBuffer.append_spec havail hlen
    exact ⟨b', hok⟩
  · exact ⟨b, if_neg havail⟩

theorem exists_insertInteger (b : Buffer) (v : Integer) : ∃ b', insertInteger b v = .ok b' := by
  rw [insertInteger_eq]
  by_cases havail : kMaxNumberSize ≤ b.avail
  · obtain ⟨b', hok, -⟩ := formatInteger_spec (natAbs_value_lt v) havail
    exact ⟨b', hok⟩
  · exact ⟨b, if_neg havail⟩

theorem exists_insertDouble (b : Buffer) {v : Float} (hv : (format12g v).length < kMaxNumberSize) :
    ∃ b', insertDouble format12g b v = .ok b' := by
  by_cases havail : kMaxNumberSize ≤ b.avail
  · have hroom : b.m_cur + kMaxNumberSize ≤ kSmallBuffer := by
      have hcur := b.cur_le
      unfold FixedBuffer.avail kMaxNumberSize at *
      omega
    have htext : b.m_cur + (snprintf kMaxNumberSize (format12g v) ++ ['\x00']).length ≤
        kSmallBuffer := by
      rw [snprintf_of_length_lt hv, List.length_append, List.length_singleton]
      omega
    have hlen : b.m_cur + (format12g v).length ≤ kSmallBuffer := by omega
    obtain ⟨b', hok, -⟩ := FixedBuffer.store_add_spec htext hlen
    exact ⟨b', (if_pos havail).trans hok⟩
  · exact ⟨b, if_neg havail⟩

theorem exists_insert (b : Buffer) {operand : Operand} (h : operand.Readable format12g) :
    ∃ b', insert format12g b operand = .ok b' := by
  cases operand with
  | integer v => exact exists_insertInteger b v
  | float v => exact exists_insertDouble b h
  | double v => exact exists_insertDouble b h
  | char c => exact exists_append b le_rfl
  | cstr str =>
      cases str with
      | none => exact exists_append b le_rfl
      | some str =>
          have hlen : strlen str ≤ (str ++ ['\x00']).length := by
            have htake := (List.takeWhile_sublist (· ≠ '\x00') (l := str)).length_le
            rw [strlen, List.length_append]
            omega
          exact exists_append b hlen
  | string str => exact exists_append b (by simp)
  | buffer buf => exact exists_append b (by simp)
  | general m_data m_len => exact exists_append b h

theorem exists_foldlM_insert (b : Buffer) {operands : List Operand}
    (h : ∀ operand ∈ operands, operand.Readable format12g) :
    ∃ b', operands.foldlM (insert format12g) b = .ok b' := by
  induction operands generalizing b with
  | nil => exact ⟨b, rfl⟩
  | cons operand operands ih =>
      obtain ⟨b₁, hhead⟩ := exists_insert b (h operand List.mem_cons_self)
      obtain ⟨b₂, htail⟩ := ih b₁ fun o ho => h o (List.mem_cons_of_mem _ ho)
      refine ⟨b₂, ?_⟩
      rw [List.foldlM_cons, hhead]
      exact htail

end LogStream

end MyServer
end MyCppCode
