import MyCppCode.MyServer.BufferFifo

/-!
# BufferSpace — what `ensureWritableBytes` guarantees for a length of any size

`ensureWritableBytes` takes a `size_t`, `makeSpace` an `int`.  A length from `2 ^ 31` on reaches
`makeSpace` as another number, and from there on as that number converted back to `size_t`:

* not below `-kCheapPrepend` it asks for less than was wanted, and the content moves or the vector
  grows by too little;
* below `-kCheapPrepend` it sends `makeSpace` to `resize` with a size below the writer index.

The module says exactly which requests are granted all the same, for the buffers that a run of the
class leads to.
-/

namespace MyCppCode
namespace MyServer

open Foundation

namespace Buffer

variable {b : Buffer}

/-! ## The branch of `makeSpace` that resizes, for any argument -/

/-- Not enough room: `resize` gets the writer index plus the converted argument. -/
theorem makeSpace_resize {len : Int}
    (hroom : SizeT.add b.writableBytes b.prependableBytes <
      SizeT.add (SizeT.ofInt len) kCheapPrepend) :
    Completes
      (fun b' => b'.size = SizeT.add b.writerIndex (SizeT.ofInt len) ∧
        b'.writerIndex = b.writerIndex ∧ b'.size ≤ maxSize)
      (maxSize < SizeT.add b.writerIndex (SizeT.ofInt len)) (b.makeSpace len) := by
  rw [makeSpace, if_pos hroom]
  refine Completes.bind (resize_completes _ _ _) ?_
  rintro v ⟨hmax, rfl⟩
  have hlen : (b.buffer.take (SizeT.add b.writerIndex (SizeT.ofInt len)) ++
      List.replicate (SizeT.add b.writerIndex (SizeT.ofInt len) - b.buffer.length)
        (0 : UInt8)).length = SizeT.add b.writerIndex (SizeT.ofInt len) := by
    simp only [List.length_append, List.length_take, List.length_replicate]
    omega
  exact Completes.ok ⟨hlen, rfl, le_trans (le_of_eq hlen) hmax⟩

theorem makeSpace_throws {len : Int}
    (hroom : SizeT.add b.writableBytes b.prependableBytes <
      SizeT.add (SizeT.ofInt len) kCheapPrepend)
    (hmax : maxSize < SizeT.add b.writerIndex (SizeT.ofInt len)) :
    b.makeSpace len = .error .lengthError := by
  rw [makeSpace, if_pos hroom, resize, if_pos hmax]
  rfl

/-! ## Conversions of a length -/

/-- A length that was converted to `int` and is not negative has lost at most its high bits. -/
theorem toInt_le (len : Nat) : SizeT.toInt len ≤ len := by
  unfold SizeT.toInt
  rw [Int.bmod_def]
  split <;> omega

theorem toInt_bounds (len : Nat) :
    -(2 ^ 31 : Int) ≤ SizeT.toInt len ∧ SizeT.toInt len < 2 ^ 31 := by
  unfold SizeT.toInt
  rw [Int.bmod_def]
  constructor <;> split <;> omega

/-- From `2 ^ 31` on the converted length is another number. -/
theorem toInt_lt {len : Nat} (h : 2 ^ 31 ≤ len) : SizeT.toInt len < len := by
  have hbound := (toInt_bounds len).2
  omega

theorem Inv.free_eq (h : Inv b) :
    SizeT.add b.writableBytes b.prependableBytes = b.writableBytes + b.prependableBytes := by
  have h₁ := h.reader_le
  have h₂ := h.writer_le
  have h₃ := h.size_lt
  have hwrite := h.writableBytes_eq
  apply SizeT.add_of_lt
  unfold prependableBytes
  omega

/-! ## The requests that are granted -/

/-- What the content leaves free when it stands at the front. -/
theorem Inv.writable_of_moved (h : Inv b) {b' : Buffer} (hinv : Inv b') (hsize : b'.size = b.size)
    (hwriter : b'.writerIndex = kCheapPrepend + b.readableBytes) :
    b'.writableBytes + kCheapPrepend = b.writableBytes + b.prependableBytes := by
  have h₁ := h.cheapPrepend_le
  have h₂ := h.reader_le
  have h₃ := h.writer_le
  have hread := h.readableBytes_eq
  have hwrite := h.writableBytes_eq
  have hwrite' := hinv.writableBytes_eq
  unfold prependableBytes
  omega

/-- Whether the first test of `makeSpace` sends a converted length to `resize`. -/
theorem needs_resize_iff (h : Inv b) (i : Int) (h₁ : -(2 ^ 31 : Int) ≤ i) (h₂ : i < 2 ^ 31) :
    SizeT.add b.writableBytes b.prependableBytes < SizeT.add (SizeT.ofInt i) kCheapPrepend ↔
      i < -(kCheapPrepend : Int) ∨
        0 ≤ i ∧ ((b.writableBytes + b.prependableBytes : Nat) : Int) < i + kCheapPrepend := by
  have hr := h.cheapPrepend_le
  have hrw := h.reader_le
  have hws := h.writer_le
  have hs := h.size_le
  have hmax : maxSize = 2 ^ 63 - 1 := rfl
  have hcheap : kCheapPrepend = 8 := rfl
  have hwrite := h.writableBytes_eq
  have hfree : b.writableBytes + b.prependableBytes ≤ b.size ∧
      kCheapPrepend ≤ b.writableBytes + b.prependableBytes := by
    unfold prependableBytes
    omega
  rw [h.free_eq]
  unfold SizeT.add SizeT.ofInt
  omega

/-! ## Granted requests -/

/-- If `ensureWritableBytes(len)` returns, then `writableBytes() >= len`, the readable bytes are those
from before, and `len` bytes copied to `beginWrite()` stay inside the vector. -/
def GrantsSpace (b : Buffer) (len : Nat) : Prop :=
  ∀ b', b.ensureWritableBytes len = .ok b' →
    len ≤ b'.writableBytes ∧ b'.readable = b.readable ∧ b'.writerIndex + len ≤ b'.size

/-- The requests that the conversion to `int` does not spoil. -/
inductive Grantable (b : Buffer) (len : Nat) : Prop where
  /-- The space is there. -/
  | fits : len ≤ b.writableBytes → Grantable b len
  /-- The `int` parameter can hold the length. -/
  | isInt : len < 2 ^ 31 → Grantable b len
  /-- The content moves to the front, and the space in front of it was enough. -/
  | moves : -(kCheapPrepend : Int) ≤ SizeT.toInt len →
      len + kCheapPrepend ≤ b.writableBytes + b.prependableBytes → Grantable b len
  /-- A negative size for the vector, which is past `max_size()` as a `size_t`. -/
  | throwsNegative : SizeT.toInt len < -(kCheapPrepend : Int) →
      (b.writerIndex : Int) + SizeT.toInt len < 0 → Grantable b len
  /-- A vector already so long that even the too small request is past `max_size()`. -/
  | throwsLong : 0 ≤ SizeT.toInt len →
      ((b.writableBytes + b.prependableBytes : Nat) : Int) < SizeT.toInt len + kCheapPrepend →
      (maxSize : Int) < b.writerIndex + SizeT.toInt len → Grantable b len

/-- The size that `resize` is called with, where the converted length is added to the writer index. -/
theorem resize_size (h : Inv b) {i : Int} (h₁ : -(2 ^ 31 : Int) ≤ i) (h₂ : i < 2 ^ 31) :
    (0 ≤ (b.writerIndex : Int) + i →
      (SizeT.add b.writerIndex (SizeT.ofInt i) : Int) = b.writerIndex + i) ∧
    ((b.writerIndex : Int) + i < 0 → maxSize < SizeT.add b.writerIndex (SizeT.ofInt i)) := by
  have hws := h.writer_le
  have hs := h.size_le
  have hmax : maxSize = 2 ^ 63 - 1 := rfl
  unfold SizeT.add SizeT.ofInt
  omega

theorem grantsSpace_of_moves (h : Inv b) {len : Nat} (hneeds : b.writableBytes < len)
    (hint : -(kCheapPrepend : Int) ≤ SizeT.toInt len)
    (hroom : len + kCheapPrepend ≤ b.writableBytes + b.prependableBytes) : GrantsSpace b len := by
  intro b' hok
  obtain ⟨hlow, hhigh⟩ := toInt_bounds len
  have hle := toInt_le len
  have hstay : ¬ SizeT.add b.writableBytes b.prependableBytes <
      SizeT.add (SizeT.ofInt (SizeT.toInt len)) kCheapPrepend := by
    rw [needs_resize_iff h _ hlow hhigh]
    omega
  obtain ⟨b₁, hmove, hinv, hsame, hsize, hwriter⟩ := makeSpace_move h hstay
  rw [ensureWritableBytes, if_pos hneeds, hmove] at hok
  cases hok
  have hfree := h.writable_of_moved hinv hsize hwriter
  have hwrite := hinv.writableBytes_eq
  have hle := hinv.writer_le
  exact ⟨by omega, hsame, by omega⟩

theorem grantsSpace_of_throws {len : Nat} (hneeds : b.writableBytes < len)
    (hroom : SizeT.add b.writableBytes b.prependableBytes <
      SizeT.add (SizeT.ofInt (SizeT.toInt len)) kCheapPrepend)
    (hmax : maxSize < SizeT.add b.writerIndex (SizeT.ofInt (SizeT.toInt len))) :
    GrantsSpace b len := by
  intro b' hok
  rw [ensureWritableBytes, if_pos hneeds, makeSpace_throws hroom hmax] at hok
  cases hok

theorem Grantable.grantsSpace (h : Inv b) {len : Nat} (hgrant : Grantable b len) :
    GrantsSpace b len := by
  have hwrite := h.writableBytes_eq
  have hwriter := h.writer_le
  obtain ⟨hlow, hhigh⟩ := toInt_bounds len
  obtain ⟨hsize, hneg⟩ := resize_size h hlow hhigh
  by_cases hneeds : b.writableBytes < len
  · cases hgrant with
    | fits hfits =>
        omega
    | isInt hlt =>
        intro b' hok
        have hspec := ensureWritableBytes_spec h (fun _ => hlt)
        rw [hok] at hspec
        obtain ⟨hinv, hsame, hfit⟩ := hspec.of_ok
        have hwrite' := hinv.writableBytes_eq
        exact ⟨by omega, hsame, hfit⟩
    | moves hint hroom =>
        exact grantsSpace_of_moves h hneeds hint hroom
    | throwsNegative hint hbelow =>
        have hroom := (needs_resize_iff h _ hlow hhigh).2 (Or.inl hint)
        exact grantsSpace_of_throws hneeds hroom (hneg hbelow)
    | throwsLong hint hfree hlong =>
        have hroom := (needs_resize_iff h _ hlow hhigh).2 (Or.inr ⟨hint, hfree⟩)
        have hsize := hsize (by omega)
        exact grantsSpace_of_throws hneeds hroom (by omega)
  · intro b' hok
    rw [ensureWritableBytes, if_neg hneeds] at hok
    cases hok
    exact ⟨by omega, rfl, by omega⟩

/-- A request that is granted is of one of the five kinds: otherwise `makeSpace` returns with the
content moved into too little room, or with a vector that ends before the bytes to be written. -/
theorem GrantsSpace.grantable (h : Inv b) {len : Nat} (hgrants : GrantsSpace b len) :
    Grantable b len := by
  obtain ⟨hlow, hhigh⟩ := toInt_bounds len
  obtain ⟨hsize, hneg⟩ := resize_size h hlow hhigh
  by_cases hneeds : b.writableBytes < len
  · by_cases hlt : len < 2 ^ 31
    · exact Grantable.isInt hlt
    have hless := toInt_lt (Nat.le_of_not_lt hlt)
    have hensure : b.ensureWritableBytes len = b.makeSpace (SizeT.toInt len) := if_pos hneeds
    by_cases hroom : SizeT.add b.writableBytes b.prependableBytes <
        SizeT.add (SizeT.ofInt (SizeT.toInt len)) kCheapPrepend
    · have hspec := makeSpace_resize hroom
      cases hcall : b.makeSpace (SizeT.toInt len) with
      | ok b' =>
          -- The vector ends `toInt len` bytes behind the writer index, or before it.
          rw [hcall] at hspec
          obtain ⟨hsize', hwriter', hmax⟩ := hspec.of_ok
          obtain ⟨-, -, hfit⟩ := hgrants b' (hensure.trans hcall)
          by_cases hbelow : (b.writerIndex : Int) + SizeT.toInt len < 0
          · have := hneg hbelow
            omega
          · have := hsize (by omega)
            omega
      | error e =>
          rw [hcall] at hspec
          have hthrows : maxSize < SizeT.add b.writerIndex (SizeT.ofInt (SizeT.toInt len)) := by
            cases hspec with
            | lengthError hlong => exact hlong
          rcases (needs_resize_iff h _ hlow hhigh).1 hroom with hint | ⟨hint, hfree⟩
          · apply Grantable.throwsNegative hint
            by_contra hpos
            have := hsize (by omega)
            have hws := h.writer_le
            have hs := h.size_le
            omega
          · apply Grantable.throwsLong hint hfree
            have := hsize (by omega)
            omega
    · obtain ⟨b', hmove, hinv, -, hsize', hwriter'⟩ := makeSpace_move h hroom
      obtain ⟨hroom', -, -⟩ := hgrants b' (hensure.trans hmove)
      have hfree := h.writable_of_moved hinv hsize' hwriter'
      rw [needs_resize_iff h _ hlow hhigh] at hroom
      exact Grantable.moves (by omega) (by omega)
  · exact Grantable.fits (by omega)

/-! ## Runs of the class with lengths of any size -/

/-- `::readv` delivers no more than it was offered. -/
def Op.Offered (b : Buffer) : Op → Prop
  | .readFd (.delivered data) => data.length ≤ b.readvCapacity
  | _ => True

instance (b : Buffer) : (op : Op) → Decidable (op.Offered b)
  | .append _ => inferInstanceAs (Decidable True)
  | .ensureWritableBytes _ => inferInstanceAs (Decidable True)
  | .retrieve _ => inferInstanceAs (Decidable True)
  | .retrieveUntil _ => inferInstanceAs (Decidable True)
  | .retrieveAll => inferInstanceAs (Decidable True)
  | .retrieveAsString _ => inferInstanceAs (Decidable True)
  | .readFd (.error _) => inferInstanceAs (Decidable True)
  | .readFd (.delivered data) => inferInstanceAs (Decidable (data.length ≤ b.readvCapacity))

/-- One call that returns, with arguments of any size. -/
def callStep (b : Buffer) (op : Op) : Option Buffer :=
  if op.Offered b then
    match op.call b with
    | .ok (_, b') => some b'
    | .error _ => none
  else
    none

/-- A direct request for space is of a kind that is granted.  The one that `append` makes needs no
condition: the copy that follows it does not return from a request that was not granted. -/
def Op.AsksGrantable (b : Buffer) : Op → Prop
  | .ensureWritableBytes len => Grantable b len
  | _ => True

theorem callStep_eq_some {op : Op} {b' : Buffer} (h : callStep b op = some b') :
    op.Offered b ∧ ∃ out, op.call b = .ok (out, b') := by
  unfold callStep at h
  split at h
  · rename_i hoffered
    cases hcall : op.call b with
    | error e =>
        simp [hcall] at h
    | ok r =>
        obtain ⟨out, b₁⟩ := r
        have heq : b₁ = b' := by simpa [hcall] using h
        exact ⟨hoffered, out, by rw [heq]⟩
  · cases h

theorem ensureWritableBytes_inv (h : Inv b) {len : Nat} {b' : Buffer} (hgrants : GrantsSpace b len)
    (hok : b.ensureWritableBytes len = .ok b') : Inv b' := by
  obtain ⟨-, -, hfit⟩ := hgrants b' hok
  unfold ensureWritableBytes at hok
  split at hok
  · exact ((makeSpace_of_ok h hok).2 (by omega)).1
  · cases hok
    exact h

theorem callStep_inv {op : Op} {b' : Buffer} (h : Inv b) (hask : op.AsksGrantable b)
    (hstep : callStep b op = some b') : Inv b' := by
  obtain ⟨hoffered, out, hcall⟩ := callStep_eq_some hstep
  cases op with
  | append data =>
      obtain ⟨b₁, happ, hb₁⟩ := bind_eq_ok hcall
      cases hb₁
      exact (append_of_ok h happ).1
  | ensureWritableBytes len =>
      obtain ⟨b₁, hensure, hb₁⟩ := bind_eq_ok hcall
      cases hb₁
      exact ensureWritableBytes_inv h (Grantable.grantsSpace h hask) hensure
  | retrieve len =>
      cases hcall
      exact (retrieve_spec h len).1
  | retrieveUntil endPos =>
      -- Even a pointer outside the content only empties the buffer.
      cases hcall
      exact (retrieve_spec h _).1
  | retrieveAll =>
      cases hcall
      exact (retrieveAll_spec h).1
  | retrieveAsString len =>
      obtain ⟨str, -, hb₁⟩ := bind_eq_ok hcall
      cases hb₁
      exact (retrieve_spec h len).1
  | readFd r =>
      obtain ⟨res, hread, hb₁⟩ := bind_eq_ok hcall
      cases hb₁
      cases r with
      | error errno =>
          cases hread
          exact h
      | delivered data =>
          have hspec := readFd_spec h hoffered
          rw [hread] at hspec
          exact hspec.of_ok.2.2.1

/-- In every state that a run of the class leads to, `ensureWritableBytes` grants exactly the requests
of the five kinds.  The runs are those of buffers whose constructor did not wrap around, with
`ensureWritableBytes` itself called for such requests only. -/
theorem ensureWritableBytes_grants_iff {initSize : Nat} (hsize : initSize + kCheapPrepend < 2 ^ 64)
    {b₀ : Buffer} (hnew : Buffer.new initSize = .ok b₀) {ops : List Op}
    (hrun : RunWithin callStep (fun b op => op.AsksGrantable b) b₀ ops b) (len : Nat) :
    GrantsSpace b len ↔ Grantable b len := by
  have hinv : Inv b :=
    hrun.invariant (fun _ _ _ hs hask hstep => callStep_inv hs hask hstep)
      (new_simulates hsize hnew).1
  exact ⟨GrantsSpace.grantable hinv, Grantable.grantsSpace hinv⟩

/-- A buffer of 16 bytes, an `append`, and a request that makes the vector grow. -/
theorem ensureWritableBytes_grants_iff_appended :
    ∃ b₀ b, Buffer.new 16 = .ok b₀ ∧
      RunWithin callStep (fun b op => op.AsksGrantable b) b₀ [.append [71, 69, 84]] b ∧
      (GrantsSpace b 4096 ↔ Grantable b 4096) := by
  obtain ⟨b₀, b, hnew, hstep⟩ : ∃ b₀ b, Buffer.new 16 = .ok b₀ ∧
      callStep b₀ (.append [71, 69, 84]) = some b := ⟨_, _, rfl, rfl⟩
  have hrun : RunWithin callStep (fun b op => op.AsksGrantable b) b₀ [.append [71, 69, 84]] b :=
    RunWithin.cons trivial hstep (RunWithin.nil b)
  exact ⟨b₀, b, hnew, hrun, ensureWritableBytes_grants_iff (by decide) hnew hrun 4096⟩

/-- A fresh buffer asked for `2 ^ 32` bytes: `makeSpace(0)` returns, and 1024 bytes are writable. -/
theorem not_grantsSpace_fresh :
    ¬ ∀ (initSize : Nat) (b₀ b : Buffer) (ops : List Op) (len : Nat), len < 2 ^ 64 →
      Buffer.new initSize = .ok b₀ → Run callStep b₀ ops b → GrantsSpace b len := by
  intro hall
  obtain ⟨b₀, hnew⟩ : ∃ b₀, Buffer.new kInitialSize = .ok b₀ := ⟨_, rfl⟩
  have hinv : Inv b₀ := (new_simulates (by decide) hnew).1
  obtain ⟨hsize, -, hreader, hwriter⟩ := new_eq kInitialSize hnew
  have hwrite : b₀.writableBytes = 1024 := by
    rw [hinv.writableBytes_eq, hsize, hwriter]
    decide
  have hint : SizeT.toInt (2 ^ 32) = 0 := SizeT.toInt_two_pow
  have hgrants := hall kInitialSize b₀ b₀ [] (2 ^ 32) (by decide) hnew (Run.nil b₀)
  have hcheap : kCheapPrepend = 8 := rfl
  cases hgrants.grantable hinv with
  | fits hfits =>
      omega
  | isInt hlt =>
      omega
  | moves _ hroom =>
      unfold prependableBytes at hroom
      omega
  | throwsNegative hneg _ =>
      omega
  | throwsLong _ hfree _ =>
      unfold prependableBytes at hfree
      omega

end Buffer

end MyServer
end MyCppCode
