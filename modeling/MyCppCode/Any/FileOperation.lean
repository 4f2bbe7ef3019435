import Mathlib.Data.List.DropRight
import Mathlib.Data.List.TakeWhile
import MyCppCode.Foundation.Machine

/-!
# FileOperation — `read_file_last_line` of `any/file_operation.cpp`

The function opens a file at its end, seeks two bytes back and walks towards the front until it
stands on a newline or at offset 0; then it steps over the newline and reads one line.

* `IStream` is the part of `std::ifstream` the function uses, with `eofbit` and `failbit`;
* `scanBack` is the loop, `read_file_last_line` the function, with what it prints;
* `lastLine` states what the last line of a file is;
* `read_file_last_line_eq_iff`: the contents for which the function finds it.

At offset 0 the function cannot tell a newline it should step over from the first character of the
line, it gives up on a file of one byte, and it counts its steps back in an `int`.
-/

namespace MyCppCode
namespace Any
namespace FileOperation

open Foundation

/-! ## The stream -/

/-- An input stream over a file: its content, the position of the next byte, and the state flags. -/
structure IStream where
  content : List UInt8
  pos : Nat
  eofbit : Bool
  failbit : Bool
  deriving DecidableEq, Repr

namespace IStream

/-- `open(name, std::ios::ate)`; a file that is not there sets `failbit`. -/
def openAte : Option (List UInt8) → IStream
  | some content => ⟨content, content.length, false, false⟩
  | none => ⟨[], 0, false, true⟩

def good (s : IStream) : Bool := !s.eofbit && !s.failbit

/-- `seekg(off, dir)`, with `base` the position that `dir` stands for.  A target before the start of the
file sets `failbit`, and a failed stream does not move. -/
def seekg (s : IStream) (base : Nat) (off : Int) : IStream :=
  if s.failbit then
    { s with eofbit := false }
  else if (base : Int) + off < 0 then
    { s with eofbit := false, failbit := true }
  else
    { s with eofbit := false, pos := ((base : Int) + off).toNat }

/-- `tellg()`: `-1` on a stream that is not good, which it also marks as failed. -/
def tellg (s : IStream) : Int × IStream :=
  if s.good then (s.pos, s) else (-1, { s with failbit := true })

/-- `peek()`, with `none` for `EOF`. -/
def peek (s : IStream) : Option UInt8 × IStream :=
  if s.good then
    match s.content[s.pos]? with
    | some c => (some c, s)
    | none => (none, { s with eofbit := true })
  else
    (none, { s with failbit := true })

def newline : UInt8 := 10

/-- `std::getline(s, line)`: the bytes up to the next newline, which is taken off too.  At the end of
the file it sets `eofbit`, and `failbit` when there was nothing to extract. -/
def getline (s : IStream) : List UInt8 × IStream :=
  if s.good then
    let rest := s.content.drop s.pos
    let line := rest.takeWhile (· ≠ newline)
    if line.length < rest.length then
      (line, { s with pos := s.pos + line.length + 1 })
    else
      (line, { s with pos := s.pos + line.length, eofbit := true, failbit := rest.isEmpty })
  else
    ([], { s with failbit := true })

theorem tellg_of_good {s : IStream} (h : s.good) : s.tellg = ((s.pos : Int), s) :=
  if_pos h

theorem good_of_tellg_pos {s : IStream} (h : 0 < s.tellg.1) : s.good := by
  unfold tellg at h
  split at h
  · assumption
  · simp at h

theorem peek_pos (s : IStream) : s.peek.2.pos = s.pos := by
  unfold peek
  split
  · split <;> rfl
  · rfl

theorem peek_failbit {s : IStream} (h : s.good) : s.peek.2.failbit = false := by
  have hfail : s.failbit = false := by
    simp only [good, Bool.and_eq_true, Bool.not_eq_true'] at h
    exact h.2
  unfold peek
  rw [if_pos h]
  split <;> exact hfail

/-- A good stream at position `p`. -/
def goodAt (content : List UInt8) (p : Nat) : IStream := ⟨content, p, false, false⟩

theorem openAte_some (content : List UInt8) :
    openAte (some content) = goodAt content content.length := rfl

theorem good_goodAt (content : List UInt8) (p : Nat) : (goodAt content p).good = true := rfl

theorem tellg_goodAt (content : List UInt8) (p : Nat) :
    (goodAt content p).tellg = ((p : Int), goodAt content p) := rfl

theorem seekg_goodAt (content : List UInt8) (p : Nat) {base target : Nat} {off : Int}
    (h : (base : Int) + off = target) : (goodAt content p).seekg base off = goodAt content target := by
  have hfail : ¬ (goodAt content p).failbit = true := Bool.false_ne_true
  have hstay : ¬ ((base : Int) + off < 0) := by omega
  rw [seekg, if_neg hfail, if_neg hstay, h]
  rfl

theorem peek_goodAt (content : List UInt8) {p : Nat} (h : p < content.length) :
    (goodAt content p).peek = (content[p]?, goodAt content p) := by
  simp [peek, goodAt, good, List.getElem?_eq_getElem h]

theorem getline_goodAt (content : List UInt8) (p : Nat) :
    (goodAt content p).getline.1 = (content.drop p).takeWhile (· ≠ newline) := by
  rw [getline, if_pos (good_goodAt content p)]
  dsimp only
  split <;> rfl

end IStream

open IStream

/-! ## The function -/

/-- What one round of the loop leaves has a smaller position. -/
theorem seekg_back_pos_lt {s : IStream} (h : 0 < s.tellg.1) :
    (s.tellg.2.peek.2.seekg s.tellg.2.peek.2.pos (-1)).pos < s.pos := by
  have hgood := good_of_tellg_pos h
  rw [tellg_of_good hgood] at h ⊢
  have hpos : (0 : Int) < s.pos := h
  have hfail : ¬ s.peek.2.failbit = true := by simp [peek_failbit hgood]
  have hstay : ¬ ((s.peek.2.pos : Int) + -1 < 0) := by
    rw [peek_pos]
    omega
  rw [seekg, if_neg hfail, if_neg hstay, peek_pos]
  dsimp only
  omega

/-- `while (ifs.tellg() > 0 && ifs.peek() != '\n') { ifs.seekg(-1, std::ios::cur); cnt++; }`, with
`cnt` an `int`. -/
def scanBack (s : IStream) (cnt : Nat) : Except Halt (Nat × IStream) :=
  if _h : 0 < s.tellg.1 then
    if s.tellg.2.peek.1 = some newline then
      .ok (cnt, s.tellg.2.peek.2)
    else do
      let ifs := s.tellg.2.peek.2.seekg s.tellg.2.peek.2.pos (-1)
      let cnt ← increment cnt
      scanBack ifs cnt
  else
    .ok (cnt, s.tellg.2)
termination_by s.pos
decreasing_by exact seekg_back_pos_lt _h

/-- What the function prints: the line `seekg cnt, tellg`, or `what happen?`, and the last line. -/
structure Output where
  seekg : Option (Nat × Int)
  lastLine : List UInt8
  deriving DecidableEq, Repr

def read_file_last_line (file : Option (List UInt8)) : Except Halt Output :=
  let ifs := openAte file
  let ifs := ifs.seekg ifs.content.length (-2)
  if ifs.good then do
    let (cnt, ifs) ← scanBack ifs 0
    let (pos, ifs) := ifs.tellg
    -- at 0 the line is taken to begin here, newline or not
    let ifs := if pos = 0 then ifs else ifs.seekg ifs.pos 1
    let (lastLine, ifs) := ifs.getline
    .ok ⟨some (cnt, ifs.tellg.1), lastLine⟩
  else
    -- no such file, or fewer than two bytes in it
    .ok ⟨none, []⟩

/-! ## Where the loop stops -/

theorem scanBack_newline {content : List UInt8} {p cnt : Nat} (hp : p + 1 < content.length)
    (hnl : content[p + 1]? = some newline) :
    scanBack (goodAt content (p + 1)) cnt = .ok (cnt, goodAt content (p + 1)) := by
  have hpos : (0 : Int) < ((p + 1 : Nat) : Int) := by omega
  rw [scanBack, tellg_goodAt, dif_pos hpos, peek_goodAt content hp]
  exact if_pos hnl

/-- One round of the loop. -/
theorem scanBack_back {content : List UInt8} {p cnt : Nat} (hp : p + 1 < content.length)
    (hnl : content[p + 1]? ≠ some newline) :
    scanBack (goodAt content (p + 1)) cnt =
      increment cnt >>= fun cnt => scanBack (goodAt content p) cnt := by
  have hpos : (0 : Int) < ((p + 1 : Nat) : Int) := by omega
  have hback : (goodAt content (p + 1)).seekg (goodAt content (p + 1)).pos (-1) = goodAt content p :=
    seekg_goodAt _ _ (by simp [goodAt])
  rw [scanBack, tellg_goodAt, dif_pos hpos, peek_goodAt content hp]
  dsimp only
  rw [if_neg hnl, hback]

/-- The loop stops on the last newline up to `p`, or at offset 0 if there is none behind it, unless that
is further back than an `int` can count. -/
theorem scanBack_spec (content : List UInt8) (p cnt : Nat) (hp : p < content.length)
    (hcnt : cnt ≤ intMax) :
    ∃ q ≤ p,
      scanBack (goodAt content p) cnt =
          (if cnt + (p - q) ≤ intMax then .ok (cnt + (p - q), goodAt content q)
            else .error .undefinedBehaviour) ∧
        (∀ i, q < i → i ≤ p → content[i]? ≠ some newline) ∧
        (0 < q → content[q]? = some newline) := by
  induction p generalizing cnt with
  | zero =>
      refine ⟨0, le_rfl, ?_, ?_, ?_⟩
      · have hcount : cnt + (0 - 0) = cnt := by omega
        rw [hcount, if_pos hcnt, scanBack]
        rfl
      · intro i hi hle
        omega
      · intro hq
        omega
  | succ p ih =>
      by_cases hnl : content[p + 1]? = some newline
      · refine ⟨p + 1, le_rfl, ?_, ?_, fun _ => hnl⟩
        · have hcount : cnt + (p + 1 - (p + 1)) = cnt := by omega
          rw [hcount, scanBack_newline hp hnl, if_pos hcnt]
        · intro i hi hle
          omega
      · have hnone : ∀ q, (∀ i, q < i → i ≤ p → content[i]? ≠ some newline) →
            ∀ i, q < i → i ≤ p + 1 → content[i]? ≠ some newline := by
          intro q hnone i hi hle
          by_cases hip : i = p + 1
          · rw [hip]
            exact hnl
          · exact hnone i hi (by omega)
        rw [scanBack_back hp hnl, increment]
        split
        · rename_i hlt
          obtain ⟨q, hq, heq, hrest, hsome⟩ := ih (cnt + 1) (by omega) (by omega)
          have hcount : cnt + 1 + (p - q) = cnt + (p + 1 - q) := by omega
          rw [hcount] at heq
          exact ⟨q, by omega, heq, hnone q hrest, hsome⟩
        · -- the count is full, wherever the loop would stop
          rename_i hfull
          obtain ⟨q, hq, -, hrest, hsome⟩ := ih 0 (by omega) (Nat.zero_le _)
          have hover : ¬ cnt + (p + 1 - q) ≤ intMax := by omega
          refine ⟨q, by omega, ?_, hnone q hrest, hsome⟩
          rw [if_neg hover]
          rfl

/-! ## The last line -/

/-- The file without the newline that ends it, if there is one. -/
def body (content : List UInt8) : List UInt8 :=
  if content.getLast? = some newline then content.dropLast else content

/-- The last line of a file: what follows the last newline that is not the final byte. -/
def lastLine (content : List UInt8) : List UInt8 :=
  (body content).rtakeWhile (· ≠ newline)

/-- A line with the byte behind it, which belongs to the line unless it is a newline. -/
def lineWith (l : List UInt8) (x : UInt8) : List UInt8 :=
  if x = newline then l else l ++ [x]

theorem lineWith_eq_nil_iff {l : List UInt8} {x : UInt8} :
    lineWith l x = [] ↔ l = [] ∧ x = newline := by
  unfold lineWith
  split <;> simp_all

theorem not_mem_lineWith {l : List UInt8} {x : UInt8} (hl : newline ∉ l) :
    newline ∉ lineWith l x := by
  unfold lineWith
  split
  · exact hl
  · rename_i hx
    simp only [List.mem_append, List.mem_singleton, not_or]
    exact ⟨hl, fun h => hx h.symm⟩

/-- The test of `takeWhile` on a line without newlines. -/
theorem forall_ne_newline {l : List UInt8} (h : newline ∉ l) :
    ∀ c ∈ l, decide (c ≠ newline) = true :=
  fun _ hc => decide_eq_true fun heq => h (heq ▸ hc)

theorem body_append (pre l : List UInt8) (x : UInt8) :
    body (pre ++ (l ++ [x])) = pre ++ lineWith l x := by
  rw [body, lineWith, ← List.append_assoc, List.getLast?_concat, List.dropLast_concat]
  by_cases hx : x = newline
  · rw [if_pos (congrArg some hx), if_pos hx]
  · rw [if_neg (fun h => hx (Option.some.inj h)), if_neg hx, List.append_assoc]

/-- Behind a newline, or at the start, the last line is what there is up to the end. -/
theorem lastLine_behind (pre l : List UInt8) (x : UInt8) (hl : newline ∉ l) :
    lastLine (pre ++ newline :: (l ++ [x])) = lineWith l x := by
  have hline := forall_ne_newline (not_mem_lineWith (x := x) hl)
  have hsplit : pre ++ newline :: (l ++ [x]) = (pre ++ [newline]) ++ (l ++ [x]) := by simp
  rw [lastLine, hsplit, body_append, List.rtakeWhile, List.reverse_append,
    List.takeWhile_append_of_pos (by simpa using hline)]
  simp

theorem lastLine_whole (l : List UInt8) (x : UInt8) (hl : newline ∉ l) :
    lastLine (l ++ [x]) = lineWith l x := by
  have hline := forall_ne_newline (not_mem_lineWith (x := x) hl)
  have hbody : body (l ++ [x]) = lineWith l x := body_append [] l x
  rw [lastLine, hbody]
  exact List.rtakeWhile_eq_self_iff.mpr hline

theorem takeWhile_line (l : List UInt8) (x : UInt8) (hl : newline ∉ l) :
    (l ++ [x]).takeWhile (· ≠ newline) = lineWith l x := by
  rw [List.takeWhile_append_of_pos (forall_ne_newline hl), lineWith]
  split
  · simp_all
  · simp_all

/-! ## What the function returns -/

/-- The function returns, and with the last line. -/
def FindsLastLine (content : List UInt8) : Prop :=
  ∃ out, read_file_last_line (some content) = .ok out ∧ out.lastLine = lastLine content

/-- Once the first `seekg` succeeds, the line that is read starts at offset 0 or behind the byte the
loop stops on. -/
theorem read_of_two_le {content : List UInt8} (h : 2 ≤ content.length) :
    ∃ q < content.length - 1,
      (FindsLastLine content ↔ content.length - 2 - q ≤ intMax ∧
        (content.drop (if q = 0 then 0 else q + 1)).takeWhile (· ≠ newline) = lastLine content) ∧
        (∀ i, q < i → i < content.length - 1 → content[i]? ≠ some newline) ∧
        (0 < q → content[q]? = some newline) := by
  obtain ⟨q, hq, hscan, hnone, hsome⟩ :=
    scanBack_spec content (content.length - 2) 0 (by omega) (Nat.zero_le _)
  refine ⟨q, by omega, ?_, fun i hi hlt => hnone i hi (by omega), hsome⟩
  have hstart : (openAte (some content)).seekg content.length (-2)
      = goodAt content (content.length - 2) := by
    rw [openAte_some]
    exact seekg_goodAt _ _ (by omega)
  have hstep : (if (q : Int) = 0 then goodAt content q else (goodAt content q).seekg q 1)
      = goodAt content (if q = 0 then 0 else q + 1) := by
    by_cases hzero : q = 0
    · simp [hzero]
    · rw [if_neg (by omega), if_neg hzero]
      exact seekg_goodAt _ _ (by omega)
  unfold FindsLastLine read_file_last_line
  dsimp only
  rw [show (openAte (some content)).content = content from rfl, hstart,
    if_pos (good_goodAt content _), hscan, Nat.zero_add]
  split
  · rename_i hcount
    rw [ok_bind, ← getline_goodAt, ← hstep]
    constructor
    · rintro ⟨out, hout, hlast⟩
      cases hout
      exact ⟨hcount, hlast⟩
    · rintro ⟨-, hlast⟩
      exact ⟨_, rfl, hlast⟩
  · rename_i hcount
    constructor
    · rintro ⟨out, hout, -⟩
      cases hout
    · rintro ⟨hle, -⟩
      exact absurd hle hcount

/-- The three shapes of a file of two bytes or more: no newline before the final byte; one behind
offset 0 that the loop stops on; or only the one at offset 0, which is not stepped over. -/
theorem read_cases {content : List UInt8} (h : 2 ≤ content.length) :
    ∃ l x, newline ∉ l ∧
      ((content = l ++ [x] ∧ (FindsLastLine content ↔ l.length ≤ intMax + 1)) ∨
        (∃ pre ≠ [], content = pre ++ newline :: (l ++ [x]) ∧
          (FindsLastLine content ↔ l.length ≤ intMax)) ∨
        (content = newline :: (l ++ [x]) ∧
          (FindsLastLine content ↔ l.length ≤ intMax ∧ lineWith l x = []))) := by
  obtain ⟨q, hq, hfinds, hnone, hsome⟩ := read_of_two_le h
  have hne : content.drop (q + 1) ≠ [] := by
    rw [Ne, List.drop_eq_nil_iff]
    omega
  obtain ⟨l, x, hrest⟩ := List.eq_nil_or_concat (content.drop (q + 1)) |>.resolve_left hne
  rw [List.concat_eq_append] at hrest
  have hlen : l.length + 1 = content.length - (q + 1) := by
    simpa using (congrArg List.length hrest).symm
  -- the loop has looked at every byte between `q` and the final one
  have hl : newline ∉ l := by
    intro hmem
    obtain ⟨i, hi, hget⟩ := List.getElem_of_mem hmem
    have hat : content[q + 1 + i]? = some newline := by
      rw [← List.getElem?_drop, hrest, List.getElem?_append_left hi, List.getElem?_eq_getElem hi,
        hget]
    exact hnone (q + 1 + i) (by omega) (by omega) hat
  have hsplit : content = content.take q ++ content[q] :: (l ++ [x]) := by
    rw [← hrest]
    simp
  have hcount : content.length - 2 - q = l.length := by omega
  rw [hcount] at hfinds
  by_cases hzero : q = 0
  · subst hzero
    have hcons : content = content[0] :: (l ++ [x]) := by simpa using hsplit
    rw [if_pos rfl, List.drop_zero] at hfinds
    by_cases hnl : content[0] = newline
    · -- the newline at offset 0 is not stepped over, and ends the line at once
      rw [hnl] at hcons
      refine ⟨l, x, hl, Or.inr (Or.inr ⟨hcons, ?_⟩)⟩
      have hread : content.takeWhile (· ≠ newline) = [] := by
        rw [hcons]
        rfl
      have hlast : lastLine content = lineWith l x := by
        rw [hcons]
        exact lastLine_behind [] l x hl
      rw [hfinds, hread, hlast, eq_comm]
    · have hfirst : newline ∉ content[0] :: l := by
        simp only [List.mem_cons, not_or]
        exact ⟨fun h => hnl h.symm, hl⟩
      refine ⟨content[0] :: l, x, hfirst, Or.inl ⟨hcons, ?_⟩⟩
      have hread : content.takeWhile (· ≠ newline) = lastLine content := by
        rw [hcons]
        exact (takeWhile_line _ x hfirst).trans (lastLine_whole _ x hfirst).symm
      rw [hfinds, List.length_cons, Nat.add_le_add_iff_right]
      exact and_iff_left hread
  · have hnl : content[q] = newline := by
      simpa [List.getElem?_eq_getElem (show q < content.length by omega)] using hsome (by omega)
    rw [hnl] at hsplit
    refine ⟨l, x, hl, Or.inr (Or.inl ⟨content.take q, ?_, hsplit, ?_⟩)⟩
    · rw [Ne, List.take_eq_nil_iff, not_or]
      exact ⟨hzero, fun h => by simp [h] at hq⟩
    · have hlast : lastLine content = lineWith l x := by
        rw [hsplit]
        exact lastLine_behind _ l x hl
      rw [hfinds, if_neg hzero, hrest, takeWhile_line l x hl, hlast]
      exact and_iff_left rfl

/-- A file of one byte that is no newline: the first `seekg` fails. -/
def SingleByte (content : List UInt8) : Prop :=
  ∃ c, c ≠ newline ∧ content = [c]

/-- A file whose last line, not empty, stands right behind a newline at offset 0. -/
def NewlineAtStart (content : List UInt8) : Prop :=
  ∃ l x, content = newline :: (l ++ [x]) ∧ newline ∉ l ∧ (l ≠ [] ∨ x ≠ newline)

theorem not_newlineAtStart_of_whole {l : List UInt8} {x : UInt8} (hl : newline ∉ l)
    (hlen : 2 ≤ (l ++ [x]).length) : ¬ NewlineAtStart (l ++ [x]) := by
  rintro ⟨l', x', heq, -, -⟩
  cases l with
  | nil => simp at hlen
  | cons c l =>
      rw [List.cons_append, List.cons.injEq] at heq
      exact hl (heq.1 ▸ List.mem_cons_self)

theorem not_newlineAtStart_of_behind {pre l : List UInt8} {x : UInt8} (hpre : pre ≠ []) :
    ¬ NewlineAtStart (pre ++ newline :: (l ++ [x])) := by
  rintro ⟨l', x', heq, hl', -⟩
  cases pre with
  | nil => exact hpre rfl
  | cons c pre =>
      have htail : (pre ++ newline :: l) ++ [x] = l' ++ [x'] := by
        simpa using (List.cons.inj heq).2
      have hinit := (List.append_inj' htail rfl).1
      apply hl'
      rw [← hinit]
      simp

/-- A file in which the `INT_MAX + 1` bytes in front of the final one have no newline, and are not the first
of the file: the loop goes back over all of them. -/
def LongLine (content : List UInt8) : Prop :=
  ∃ pre l x, content = pre ++ (l ++ [x]) ∧ pre ≠ [] ∧ l.length = intMax + 1 ∧ newline ∉ l

theorem longLine_concat {front : List UInt8} {x : UInt8} :
    LongLine (front ++ [x]) ↔
      ∃ pre l, front = pre ++ l ∧ pre ≠ [] ∧ l.length = intMax + 1 ∧ newline ∉ l := by
  constructor
  · rintro ⟨pre, l, y, heq, hrest⟩
    rw [← List.append_assoc] at heq
    exact ⟨pre, l, (List.append_inj' heq rfl).1, hrest⟩
  · rintro ⟨pre, l, rfl, hrest⟩
    exact ⟨pre, l, x, List.append_assoc .., hrest⟩

/-- Of a line that is long enough, the last bytes. -/
theorem exists_suffix {l : List UInt8} {n : Nat} (hl : newline ∉ l) (hn : n ≤ l.length) :
    ∃ pre suf, l = pre ++ suf ∧ suf.length = n ∧ newline ∉ suf := by
  refine ⟨l.take (l.length - n), l.drop (l.length - n), (List.take_append_drop _ l).symm, ?_, ?_⟩
  · rw [List.length_drop]
    omega
  · exact fun hmem => hl (List.mem_of_mem_drop hmem)

theorem longLine_whole {l : List UInt8} {x : UInt8} (hl : newline ∉ l) :
    LongLine (l ++ [x]) ↔ ¬ l.length ≤ intMax + 1 := by
  rw [longLine_concat]
  constructor
  · rintro ⟨pre, suf, rfl, hpre, hlen, -⟩
    have hpos := List.length_pos_iff.2 hpre
    rw [List.length_append]
    omega
  · intro hlong
    obtain ⟨pre, suf, rfl, hlen, hsuf⟩ := exists_suffix hl (by omega : intMax + 1 ≤ l.length)
    refine ⟨pre, suf, rfl, ?_, hlen, hsuf⟩
    rintro rfl
    rw [List.nil_append] at hlong
    omega

theorem longLine_behind (pre : List UInt8) {l : List UInt8} {x : UInt8} (hl : newline ∉ l) :
    LongLine (pre ++ newline :: (l ++ [x])) ↔ ¬ l.length ≤ intMax := by
  have hconcat : pre ++ newline :: (l ++ [x]) = (pre ++ newline :: l) ++ [x] := by simp
  rw [hconcat, longLine_concat]
  constructor
  · rintro ⟨pre', suf, heq, -, hlen, hsuf⟩
    -- the bytes without a newline are all behind the one in front of `l`
    rcases List.append_eq_append_iff.1 heq with ⟨mid, -, hmid⟩ | ⟨mid, -, hmid⟩
    · cases mid with
      | nil =>
          rw [List.nil_append] at hmid
          exact absurd (hmid ▸ List.mem_cons_self) hsuf
      | cons c mid =>
          have hl' : l = mid ++ suf := (List.cons.inj hmid).2
          rw [hl', List.length_append]
          omega
    · rw [hmid] at hsuf
      exact absurd (List.mem_append_right _ List.mem_cons_self) hsuf
  · intro hlong
    obtain ⟨front, suf, rfl, hlen, hsuf⟩ := exists_suffix hl (by omega : intMax + 1 ≤ l.length)
    exact ⟨pre ++ newline :: front, suf, by simp, by simp, hlen, hsuf⟩

theorem findsLastLine_singleton_iff {c : UInt8} : FindsLastLine [c] ↔ c = newline := by
  have hlast : lastLine [c] = lineWith [] c := lastLine_whole [] c List.not_mem_nil
  constructor
  · rintro ⟨out, hout, heq⟩
    cases hout
    exact (lineWith_eq_nil_iff.1 (hlast.symm.trans heq.symm)).2
  · rintro rfl
    exact ⟨_, rfl, (hlast.trans (lineWith_eq_nil_iff.2 ⟨rfl, rfl⟩)).symm⟩

theorem newlineAtStart_iff {l : List UInt8} {x : UInt8} (hl : newline ∉ l) :
    NewlineAtStart (newline :: (l ++ [x])) ↔ lineWith l x ≠ [] := by
  rw [Ne, lineWith_eq_nil_iff, Classical.not_and_iff_not_or_not]
  constructor
  · rintro ⟨l', x', heq, -, hne⟩
    obtain ⟨rfl, hx⟩ := List.append_inj' (List.cons.inj heq).2 rfl
    rwa [List.singleton_inj.1 hx]
  · intro hne
    exact ⟨l, x, rfl, hl, hne⟩

/-- The function finds the last line of every file, except of one byte that is no newline, of a last line
that follows a newline at offset 0, and of one on which an `int` cannot count the steps back. -/
theorem read_file_last_line_eq_iff (content : List UInt8) :
    FindsLastLine content ↔
      ¬ SingleByte content ∧ ¬ NewlineAtStart content ∧ ¬ LongLine content := by
  match content with
  | [] =>
      have hsingle : ¬ SingleByte [] := by
        rintro ⟨c, -, h⟩
        cases h
      have hstart : ¬ NewlineAtStart [] := by
        rintro ⟨l, x, h, -⟩
        cases h
      have hlong : ¬ LongLine [] := by
        rintro ⟨pre, l, x, h, -⟩
        simp at h
      exact ⟨fun _ => ⟨hsingle, hstart, hlong⟩, fun _ => ⟨_, rfl, rfl⟩⟩
  | [c] =>
      have hstart : ¬ NewlineAtStart [c] := by
        rintro ⟨l, x, h, -⟩
        simp at h
      have hlong : ¬ LongLine [c] := by
        have hshort := (longLine_whole (x := c) List.not_mem_nil).not
        rw [List.nil_append] at hshort
        exact hshort.2 (not_not.2 (Nat.zero_le _))
      rw [findsLastLine_singleton_iff]
      constructor
      · rintro rfl
        refine ⟨?_, hstart, hlong⟩
        rintro ⟨c, hc, h⟩
        exact hc (List.singleton_inj.mp h).symm
      · rintro ⟨hsingle, -⟩
        exact not_not.mp fun hc => hsingle ⟨c, hc, rfl⟩
  | c :: d :: rest =>
      have hlen : 2 ≤ (c :: d :: rest).length := by simp
      have hsingle : ¬ SingleByte (c :: d :: rest) := by
        rintro ⟨c, -, h⟩
        simp at h
      -- from here on only the shape matters, by the three cases of the loop
      generalize c :: d :: rest = content at hlen hsingle
      obtain ⟨l, x, hl, ⟨rfl, hfinds⟩ | ⟨pre, hpre, rfl, hfinds⟩ | ⟨rfl, hfinds⟩⟩ := read_cases hlen
      · rw [hfinds, longLine_whole hl, not_not]
        exact ⟨fun hle => ⟨hsingle, not_newlineAtStart_of_whole hl hlen, hle⟩, fun h => h.2.2⟩
      · rw [hfinds, longLine_behind _ hl, not_not]
        exact ⟨fun hle => ⟨hsingle, not_newlineAtStart_of_behind hpre, hle⟩, fun h => h.2.2⟩
      · have hlong : LongLine (newline :: (l ++ [x])) ↔ ¬ l.length ≤ intMax := longLine_behind [] hl
        rw [hfinds, hlong, newlineAtStart_iff hl, not_not, not_not]
        exact ⟨fun h => ⟨hsingle, h.2, h.1⟩, fun h => ⟨h.2.2, h.2.1⟩⟩

/-- The file `"a"`: its last line is `a`, and the function yields the empty string. -/
theorem read_file_last_line_single_byte : ¬ FindsLastLine [97] := by
  rintro ⟨out, hout, hlast⟩
  cases hout
  have hline : lastLine [97] = [97] := by decide
  rw [hline] at hlast
  cases hlast

end FileOperation
end Any
end MyCppCode
