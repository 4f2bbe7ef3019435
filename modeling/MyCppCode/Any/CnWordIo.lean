import MyCppCode.Foundation.Machine
import MyCppCode.Foundation.TransitionSystem

/-!
# CnWordIo — the character loop of `main_ok` in `any/cn_word_io.cpp`

`main_ok` reads a word and cuts it into characters by the lead byte: `len2` tells from the first byte
how long the character is, and the loop takes that many bytes.  Characters between two Chinese commas
or full stops are put together to words, which are printed with their number of characters.

* `len2`, `takeCharacter` and `body` follow the source, with the index an `int` and `std::string`
  indexed up to its terminating NUL;
* `Characters str e`: the string is a sequence of characters as `len2` sees them, of which the last
  may lack its last byte, and `e` is the sum of their lengths;
* `splitsSafely_iff`: the loop ends, without an index past the NUL, exactly on these strings as long
  as the index stays an `int`.

The first loop of `main_ok` has an empty body and is left out.
-/

namespace MyCppCode
namespace Any
namespace CnWordIo

open Foundation

/-! ## The source -/

/-- `ch & mask`: the signed `char` is widened to `int` first. -/
def masked (ch : UInt8) (mask : BitVec 32) : BitVec 32 :=
  ch.toBitVec.signExtend 32 &&& mask

def len2 (ch : UInt8) : Int :=
  if masked ch 0b11110000 = 0b11110000 then 4
  else if masked ch 0b11100000 = 0b11100000 then 3
  else if masked ch 0b11000000 = 0b11000000 then 2
  else if masked ch 0b10000000 = 0b10000000 then -1
  else 1

/-- `while (len-- > 0) { tmp += str[i]; i++; }` -/
def takeCharacter (str : List UInt8) : Nat → List UInt8 → Nat → Except Halt (List UInt8 × Nat)
  | 0, tmp, i => .ok (tmp, i)
  | len + 1, tmp, i => do
      let ch ← charAt str i
      let i ← increment i
      takeCharacter str len (tmp ++ [ch]) i

/-- The bytes of `，` and `。`. -/
def comma : List UInt8 := [0xEF, 0xBC, 0x8C]
def fullStop : List UInt8 := [0xE3, 0x80, 0x82]

/-- The variables of the loop, and the lines `word, word.size(), cnt` printed so far. -/
structure State where
  i : Nat
  word : List UInt8
  cnt : Nat
  printed : List (List UInt8 × Nat × Nat)
  deriving DecidableEq, Repr

def start : State := ⟨0, [], 0, []⟩

/-- One iteration of the loop.  A `len` that is not positive makes the inner loop do nothing. -/
def body (str : List UInt8) (s : State) : Except Halt State := do
  let ch ← charAt str s.i
  -- `tmp` is the character
  let (tmp, i) ← takeCharacter str (len2 ch).toNat [] s.i
  if tmp = comma ∨ tmp = fullStop then
    .ok { s with i := i, word := [], cnt := 0, printed := s.printed ++ [(s.word, s.word.length, s.cnt)] }
  else
    let cnt ← increment s.cnt
    .ok { s with i := i, word := s.word ++ tmp, cnt := cnt }

/-- `for (int i = 0; i < str.size();)`, for at most `fuel` iterations. -/
def loop (str : List UInt8) : Nat → State → Except Halt State
  | 0, _ => .error .diverges
  | fuel + 1, s => if s.i < str.length then body str s >>= loop str fuel else .ok s

/-- The iterations one by one. -/
def step (str : List UInt8) (s : State) (_ : Unit) : Option State :=
  if s.i < str.length then (body str s).toOption else none

/-- The loop returns, and every iteration that is reached advances `i` by what `len2` gives. -/
structure SplitsSafely (str : List UInt8) : Prop where
  returns : ∃ fuel s, loop str fuel start = .ok s
  advances : ∀ es s s', Run (step str) start es s → step str s () = some s' →
    (s'.i : Int) = s.i + len2 (str.getD s.i 0)

/-! ## Characters -/

/-- `str` is a sequence of characters whose first bytes give their lengths; the last may lack one byte,
in whose place the loop reads the NUL.  `e` is the sum of the lengths. -/
inductive Characters : List UInt8 → Nat → Prop
  | nil : Characters [] 0
  | whole {ch : UInt8} {more rest : List UInt8} {e : Nat} :
      len2 ch = more.length + 1 → Characters rest e →
        Characters (ch :: (more ++ rest)) (more.length + 1 + e)
  | short {ch : UInt8} {more : List UInt8} :
      len2 ch = more.length + 2 → Characters (ch :: more) (more.length + 2)

theorem Characters.length_le {str : List UInt8} {e : Nat} (h : Characters str e) : str.length ≤ e := by
  induction h with
  | nil => simp
  | whole _ _ ih =>
      simp only [List.length_cons, List.length_append]
      omega
  | short _ => simp

/-! ## One iteration -/

/-- The inner loop advances by `len`, and then every index was an `int` within the string. -/
theorem takeCharacter_bounds {str tmp tmp' : List UInt8} {len i i' : Nat}
    (h : takeCharacter str len tmp i = .ok (tmp', i')) :
    i' = i + len ∧ (0 < len → i + len ≤ str.length + 1 ∧ i + len ≤ intMax) := by
  induction len generalizing tmp i with
  | zero =>
      -- no byte is read, so nothing is known of `i`
      cases h
      exact ⟨rfl, fun hlen => absurd hlen (Nat.lt_irrefl 0)⟩
  | succ len ih =>
      obtain ⟨ch, hch, h⟩ := bind_eq_ok h
      obtain ⟨j, hj, h⟩ := bind_eq_ok h
      obtain ⟨hmax, rfl⟩ := increment_eq_ok.mp hj
      obtain ⟨rfl, hbound⟩ := ih h
      have hle := le_of_charAt hch
      refine ⟨by omega, fun _ => ?_⟩
      by_cases hlen : 0 < len
      · have := hbound hlen
        omega
      · omega

theorem takeCharacter_ok {str : List UInt8} {len i : Nat} (tmp : List UInt8)
    (hstr : i + len ≤ str.length + 1) (hmax : i + len ≤ intMax) :
    ∃ tmp', takeCharacter str len tmp i = .ok (tmp', i + len) := by
  induction len generalizing tmp i with
  | zero => exact ⟨tmp, rfl⟩
  | succ len ih =>
      have hch : charAt str i = .ok (str.getD i 0) := charAt_of_le (by omega)
      have hinc : increment i = .ok (i + 1) := increment_eq_ok.mpr ⟨by omega, rfl⟩
      obtain ⟨tmp', htake⟩ := ih (tmp ++ [str.getD i 0]) (show i + 1 + len ≤ _ by omega) (by omega)
      have hi : i + 1 + len = i + (len + 1) := by omega
      rw [hi] at htake
      exact ⟨tmp', by simp only [takeCharacter, hch, hinc, bind, Except.bind, htake]⟩

theorem body_advances {str : List UInt8} {s s' : State} (hi : s.i < str.length)
    (h : body str s = .ok s') :
    s'.i = s.i + (len2 (str.getD s.i 0)).toNat ∧
      (0 < (len2 (str.getD s.i 0)).toNat → s'.i ≤ str.length + 1 ∧ s'.i ≤ intMax) := by
  obtain ⟨ch, hch, h⟩ := bind_eq_ok h
  rw [charAt_of_le hi.le] at hch
  cases hch
  obtain ⟨⟨tmp, i⟩, htake, h⟩ := bind_eq_ok h
  obtain ⟨rfl, hbound⟩ := takeCharacter_bounds htake
  dsimp only at h
  split at h
  · cases h
    exact ⟨rfl, hbound⟩
  · obtain ⟨cnt, -, h⟩ := bind_eq_ok h
    cases h
    exact ⟨rfl, hbound⟩

/-- An iteration whose character lies in the string, up to one byte, succeeds. -/
theorem body_ok {str : List UInt8} {s : State} {len : Nat} (hi : s.i < str.length)
    (hlen : len2 (str.getD s.i 0) = len) (hpos : 0 < len) (hstr : s.i + len ≤ str.length + 1)
    (hmax : s.i + len ≤ intMax) (hcnt : s.cnt ≤ s.i) :
    ∃ s', body str s = .ok s' ∧ s'.i = s.i + len ∧ s'.cnt ≤ s'.i := by
  obtain ⟨tmp, htake⟩ := takeCharacter_ok [] hstr hmax
  have hnat : (len2 (str.getD s.i 0)).toNat = len := by
    rw [hlen]
    rfl
  have hinc : increment s.cnt = .ok (s.cnt + 1) := increment_eq_ok.mpr ⟨by omega, rfl⟩
  by_cases hsep : tmp = comma ∨ tmp = fullStop
  · refine ⟨⟨s.i + len, [], 0, s.printed ++ [(s.word, s.word.length, s.cnt)]⟩, ?_, rfl,
      Nat.zero_le _⟩
    simp only [body, charAt_of_le hi.le, bind, Except.bind, hnat, htake, if_pos hsep]
  · refine ⟨⟨s.i + len, s.word ++ tmp, s.cnt + 1, s.printed⟩, ?_, rfl, ?_⟩
    · simp only [body, charAt_of_le hi.le, bind, Except.bind, hnat, htake, if_neg hsep, hinc]
    · dsimp only
      omega

/-! ## The loop -/

theorem drop_eq_cons {str tail : List UInt8} {i : Nat} {ch : UInt8} (h : str.drop i = ch :: tail) :
    i < str.length ∧ str.getD i 0 = ch ∧ str.length = i + (tail.length + 1) := by
  have hlength : str.length - i = tail.length + 1 := by
    simpa using congrArg List.length h
  have hget : str[i]? = some ch := by
    have hhead := congrArg List.head? h
    rwa [List.head?_drop] at hhead
  refine ⟨by omega, ?_, by omega⟩
  rw [List.getD_eq_getElem?_getD, hget]
  rfl

theorem drop_eq_getD_cons {str : List UInt8} {i : Nat} (h : i < str.length) :
    str.drop i = str.getD i 0 :: str.drop (i + 1) := by
  rw [List.drop_eq_getElem_cons h, List.getD_eq_getElem?_getD, List.getElem?_eq_getElem h]
  rfl

theorem loop_succ {str : List UInt8} {fuel : Nat} {s s' t : State} (hi : s.i < str.length)
    (hbody : body str s = .ok s') (h : loop str fuel s' = .ok t) : loop str (fuel + 1) s = .ok t := by
  rw [loop, if_pos hi, hbody]
  exact h

/-- On characters the loop returns. -/
theorem loop_ok {str : List UInt8} {e : Nat} {s : State} (hchars : Characters (str.drop s.i) e)
    (hi : s.i ≤ str.length) (hmax : s.i + e ≤ intMax) (hcnt : s.cnt ≤ s.i) :
    ∃ fuel s', loop str fuel s = .ok s' := by
  generalize hrest : str.drop s.i = rest at hchars
  -- along the characters that are left, one iteration each
  induction hchars generalizing s with
  | nil =>
      have hend : ¬ s.i < str.length := by
        have := List.drop_eq_nil_iff.mp hrest
        omega
      exact ⟨1, s, if_neg hend⟩
  | @whole ch more rest e hlen hchars ih =>
      obtain ⟨hlt, hget, hlength⟩ := drop_eq_cons hrest
      rw [List.length_append] at hlength
      have hlead : len2 (str.getD s.i 0) = ((more.length + 1 : Nat) : Int) := by
        rw [hget, hlen]
        rfl
      obtain ⟨s', hbody, hi', hcnt'⟩ :=
        body_ok hlt hlead (by omega) (by omega) (by omega) hcnt
      have hrest' : str.drop s'.i = rest := by
        rw [hi', ← List.drop_drop, hrest]
        simp
      obtain ⟨fuel, t, ht⟩ := ih (by omega) (by omega) hcnt' hrest'
      exact ⟨fuel + 1, t, loop_succ hlt hbody ht⟩
  | @short ch more hlen =>
      obtain ⟨hlt, hget, hlength⟩ := drop_eq_cons hrest
      have hlead : len2 (str.getD s.i 0) = ((more.length + 2 : Nat) : Int) := by
        rw [hget, hlen]
        rfl
      obtain ⟨s', hbody, hi', -⟩ := body_ok hlt hlead (by omega) (by omega) hmax hcnt
      have hend : ¬ s'.i < str.length := by omega
      exact ⟨2, s', loop_succ hlt hbody (if_neg hend)⟩

/-- A loop that returns has gone over characters. -/
theorem characters_of_loop {str : List UInt8} {fuel : Nat} {s t : State}
    (h : loop str fuel s = .ok t) (hi : s.i ≤ str.length) (hmax : s.i ≤ intMax) :
    ∃ e, Characters (str.drop s.i) e ∧ s.i + e ≤ intMax := by
  induction fuel generalizing s with
  | zero => cases h
  | succ fuel ih =>
      rw [loop] at h
      split at h
      · rename_i hlt
        obtain ⟨s', hbody, h⟩ := bind_eq_ok h
        obtain ⟨hi', hbound⟩ := body_advances hlt hbody
        by_cases hpos : 0 < (len2 (str.getD s.i 0)).toNat
        · obtain ⟨hstr, hmax'⟩ := hbound hpos
          rw [drop_eq_getD_cons hlt]
          by_cases hin : s'.i ≤ str.length
          · -- a whole character, and characters after it
            obtain ⟨e, hchars, hsum⟩ := ih h hin hmax'
            have hmore : ((str.drop (s.i + 1)).take (s'.i - (s.i + 1))).length = s'.i - (s.i + 1) := by
              rw [List.length_take, List.length_drop]
              omega
            have hrest : str.drop s'.i = (str.drop (s.i + 1)).drop (s'.i - (s.i + 1)) := by
              rw [List.drop_drop]
              congr 1
              omega
            have hlead : len2 (str.getD s.i 0)
                = ((str.drop (s.i + 1)).take (s'.i - (s.i + 1))).length + 1 := by omega
            have hwhole := Characters.whole hlead hchars
            rw [hrest, List.take_append_drop] at hwhole
            exact ⟨_, hwhole, by omega⟩
          · -- the last byte read was the NUL
            have hmore : (str.drop (s.i + 1)).length = str.length - (s.i + 1) := List.length_drop
            exact ⟨_, Characters.short (by omega), by omega⟩
        · -- a byte that begins no character: the same position again
          have hstuck : s'.i = s.i := by omega
          have hsame := ih h (by omega) (by omega)
          rwa [hstuck] at hsame
      · have hnil : str.drop s.i = [] := List.drop_eq_nil_iff.mpr (by omega)
        rw [hnil]
        exact ⟨0, Characters.nil, hmax⟩

/-- Where characters begin, the lead byte tells where the next one does. -/
theorem Characters.next {str : List UInt8} {i e : Nat} (h : Characters (str.drop i) e)
    (hi : i < str.length) :
    ∃ len : Nat, len2 (str.getD i 0) = len ∧
      (i + len < str.length → ∃ e', Characters (str.drop (i + len)) e') := by
  generalize hrest : str.drop i = rest at h
  cases h with
  | nil =>
      have := List.drop_eq_nil_iff.mp hrest
      omega
  | @whole ch more rest e hlen hchars =>
      refine ⟨more.length + 1, ?_, fun _ => ⟨e, ?_⟩⟩
      · rw [(drop_eq_cons hrest).2.1, hlen]
        rfl
      · rw [← List.drop_drop, hrest]
        simpa using hchars
  | @short ch more hlen =>
      refine ⟨more.length + 2, ?_, fun hlt => ?_⟩
      · rw [(drop_eq_cons hrest).2.1, hlen]
        rfl
      · have := (drop_eq_cons hrest).2.2
        omega

theorem step_advances {str : List UInt8} {s s' : State} {e : Nat} (h : step str s () = some s')
    (hchars : Characters (str.drop s.i) e) :
    (s'.i : Int) = s.i + len2 (str.getD s.i 0) ∧
      (s'.i < str.length → ∃ e', Characters (str.drop s'.i) e') := by
  unfold step at h
  split at h
  · rename_i hi
    cases hbody : body str s with
    | error err => simp [hbody, Except.toOption] at h
    | ok t =>
        obtain rfl : t = s' := by simpa [hbody, Except.toOption] using h
        obtain ⟨len, hlen, hnext⟩ := hchars.next hi
        have hadv := (body_advances hi hbody).1
        rw [hlen, Int.toNat_natCast] at hadv
        rw [hlen, hadv]
        exact ⟨by omega, hnext⟩
  · cases h

/-- Every iteration that is reached on characters begins at one. -/
theorem run_characters {str : List UInt8} {e : Nat} (hchars : Characters str e) {es : List Unit}
    {s : State} (hrun : Run (step str) start es s) (hi : s.i < str.length) :
    ∃ e', Characters (str.drop s.i) e' := by
  revert hi
  refine hrun.invariant (I := fun s => s.i < str.length → ∃ e', Characters (str.drop s.i) e') ?_ ?_
  · intro s _ t hs hstep
    have hlt : s.i < str.length := by
      by_contra hge
      simp [step, hge] at hstep
    obtain ⟨e', he'⟩ := hs hlt
    exact (step_advances hstep he').2
  · intro _
    exact ⟨e, by simpa [start] using hchars⟩

/-- The loop ends and stays inside the string exactly where the string is a sequence of characters by
their lead bytes, the last of them at most one byte short, with lengths that add up to an `int`. -/
theorem splitsSafely_iff (str : List UInt8) :
    SplitsSafely str ↔ ∃ e, Characters str e ∧ e ≤ intMax := by
  constructor
  · intro h
    obtain ⟨fuel, s, hloop⟩ := h.returns
    simpa [start] using characters_of_loop hloop (Nat.zero_le _) (Nat.zero_le _)
  · rintro ⟨e, hchars, hmax⟩
    refine ⟨loop_ok (s := start) (by simpa [start] using hchars) (Nat.zero_le _)
      (by simpa [start] using hmax) (Nat.zero_le _), ?_⟩
    intro es s s' hrun hstep
    have hi : s.i < str.length := by
      by_contra hge
      simp [step, hge] at hstep
    obtain ⟨e', he'⟩ := run_characters hchars hrun hi
    exact (step_advances hstep he').1

/-- A continuation byte alone: the loop never gets past it. -/
theorem not_splitsSafely_continuation : ¬ SplitsSafely [0x80] := by
  intro h
  obtain ⟨fuel, s, hloop⟩ := h.returns
  obtain ⟨e, hchars, -⟩ := characters_of_loop hloop (Nat.zero_le _) (Nat.zero_le _)
  obtain ⟨len, hlen, -⟩ := hchars.next Nat.zero_lt_one
  have hcontinuation : len2 0x80 = -1 := by decide
  have hlead : len2 0x80 = len := hlen
  omega

/-- A three-byte character cut after its first byte: the loop reads behind the NUL. -/
example : loop [0xE4] 1 start = .error .undefinedBehaviour := by decide

end CnWordIo
end Any
end MyCppCode
