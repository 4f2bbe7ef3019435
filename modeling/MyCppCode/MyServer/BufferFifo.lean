import MyCppCode.Foundation.Fifo
import MyCppCode.Foundation.TransitionSystem
import MyCppCode.MyServer.Buffer

/-!
# BufferFifo — a `Buffer` is a first-in first-out byte queue

One specification lemma for each operation of `Buffer`: it keeps the index invariant and acts on the
readable bytes as an operation of a queue.  Over them, a run of the class is a run of `Fifo`, for any
sequence of calls, as long as the constructor did not wrap around on its size.
-/

namespace MyCppCode
namespace MyServer

open Foundation

namespace Buffer

variable {b : Buffer}

/-! ## Operations that only move the indices -/

theorem retrieveAll_spec (h : Inv b) : Inv b.retrieveAll ∧ b.retrieveAll.readable = [] := by
  have h₁ := h.cheapPrepend_le
  have h₂ := h.reader_le
  have h₃ := h.writer_le
  refine ⟨⟨le_refl _, le_refl _, ?_, h.size_le⟩, ?_⟩
  · exact le_trans h₁ (le_trans h₂ h₃)
  · simp [retrieveAll, readable]

theorem retrieve_spec (h : Inv b) (len : Nat) :
    Inv (b.retrieve len) ∧ (b.retrieve len).readable = b.readable.drop len := by
  by_cases hlen : len < b.readableBytes
  · have h₁ := h.reader_le
    have h₂ := h.writer_le
    have h₃ := h.size_lt
    have hread := h.readableBytes_eq
    have hadd : SizeT.add b.readerIndex len = b.readerIndex + len :=
      SizeT.add_of_lt (by omega)
    have heq : b.retrieve len = { b with readerIndex := b.readerIndex + len } := by
      simp only [retrieve, if_pos hlen, hadd]
    rw [heq]
    refine ⟨⟨?_, ?_, h₂, h.size_le⟩, ?_⟩
    · exact le_trans h.cheapPrepend_le (Nat.le_add_right _ _)
    · simp only
      omega
    · simp only [readable, List.drop_take, List.drop_drop]
      congr 1
      omega
  · have heq : b.retrieve len = b.retrieveAll := by
      simp only [retrieve, if_neg hlen]
    have hnil : b.readable.drop len = [] := by
      apply List.drop_eq_nil_of_le
      rw [h.length_readable]
      omega
    rw [heq, hnil]
    exact retrieveAll_spec h

theorem retrieveUntil_spec (h : Inv b) {endPos : Nat} (h₁ : b.readerIndex ≤ endPos)
    (h₂ : endPos ≤ b.writerIndex) :
    Inv (b.retrieveUntil endPos) ∧
      (b.retrieveUntil endPos).readable = b.readable.drop (endPos - b.readerIndex) := by
  have h₃ := h.writer_le
  have h₄ := h.size_lt
  have hsub : SizeT.sub endPos b.readerIndex = endPos - b.readerIndex :=
    SizeT.sub_of_le h₁ (by omega)
  simpa only [retrieveUntil, hsub] using retrieve_spec h (endPos - b.readerIndex)

theorem retrieveAsString_spec (h : Inv b) {len : Nat} (hlen : len ≤ b.readableBytes) :
    b.retrieveAsString len = .ok (b.readable.take len, b.retrieve len) := by
  have h₁ := h.reader_le
  have h₂ := h.writer_le
  have hread := h.readableBytes_eq
  have hrange := readRange_eq_ok (v := b.buffer) (Nat.le_add_right b.readerIndex len)
    (by unfold size at h₂; omega)
  have htake : (b.buffer.drop b.readerIndex).take (b.readerIndex + len - b.readerIndex) =
      b.readable.take len := by
    rw [readable, List.take_take]
    congr 1
    omega
  rw [retrieveAsString, hrange, htake]
  rfl

/-! ## Operations that make space -/

/-- The resizing branch of `makeSpace`: what happens behind the writer index does not touch the
content. -/
theorem readable_grow (h : Inv b) {n : Nat} (hsize : b.writerIndex ≤ n) (hmax : n ≤ maxSize) :
    let b' : Buffer :=
      { b with buffer := b.buffer.take n ++ List.replicate (n - b.buffer.length) 0 }
    Inv b' ∧ b'.size = n ∧ b'.readable = b.readable := by
  have h₁ := h.reader_le
  have h₂ := h.writer_le
  unfold size at h₂
  have hlen : (b.buffer.take n ++ List.replicate (n - b.buffer.length) (0 : UInt8)).length = n := by
    simp only [List.length_append, List.length_take, List.length_replicate]
    omega
  refine ⟨⟨h.cheapPrepend_le, h₁, ?_, ?_⟩, hlen, ?_⟩
  · exact le_trans hsize (le_of_eq hlen.symm)
  · exact le_trans (le_of_eq hlen) hmax
  · simp only [readable]
    rw [List.drop_append_of_le_length (by simp only [List.length_take]; omega),
      List.take_append_of_le_length (by simp only [List.length_drop, List.length_take]; omega),
      List.drop_take, List.take_take]
    congr 1
    omega

/-- The moving branch of `makeSpace`: the content is copied to `kCheapPrepend`. -/
theorem readable_move (h : Inv b) :
    let b' : Buffer :=
      { buffer := b.buffer.take kCheapPrepend ++ b.readable ++
          b.buffer.drop (kCheapPrepend + b.readable.length)
        readerIndex := kCheapPrepend
        writerIndex := kCheapPrepend + b.readableBytes }
    Inv b' ∧ b'.size = b.size ∧ b'.readable = b.readable := by
  have h₁ := h.cheapPrepend_le
  have h₂ := h.reader_le
  have h₃ := h.writer_le
  have h₄ := h.size_le
  have hread := h.readableBytes_eq
  have hlen := h.length_readable
  unfold size at h₃ h₄
  have htake : (b.buffer.take kCheapPrepend).length = kCheapPrepend := by
    simp only [List.length_take]
    omega
  have hsize : (b.buffer.take kCheapPrepend ++ b.readable ++
      b.buffer.drop (kCheapPrepend + b.readable.length)).length = b.buffer.length := by
    simp only [List.length_append, htake, List.length_drop]
    omega
  refine ⟨⟨le_refl _, Nat.le_add_right _ _, ?_, ?_⟩, hsize, ?_⟩
  · simp only [size, hsize]
    omega
  · simpa only [size, hsize] using h₄
  · have hcut : (b.buffer.take kCheapPrepend ++ b.readable ++
        b.buffer.drop (kCheapPrepend + b.readable.length)).drop kCheapPrepend =
          b.readable ++ b.buffer.drop (kCheapPrepend + b.readable.length) := by
      rw [List.append_assoc]
      exact List.drop_left' htake
    have hdiff : kCheapPrepend + b.readableBytes - kCheapPrepend = b.readable.length := by
      omega
    change ((b.buffer.take kCheapPrepend ++ b.readable ++
        b.buffer.drop (kCheapPrepend + b.readable.length)).drop kCheapPrepend).take
          (kCheapPrepend + b.readableBytes - kCheapPrepend) = b.readable
    rw [hcut, hdiff]
    exact List.take_left' rfl

/-- Enough room with the prependable bytes: the content moves to the front, the vector stays.  This is so
for any argument of `makeSpace`. -/
theorem makeSpace_move (h : Inv b) {len : Int}
    (hroom : ¬ SizeT.add b.writableBytes b.prependableBytes <
      SizeT.add (SizeT.ofInt len) kCheapPrepend) :
    ∃ b', b.makeSpace len = .ok b' ∧ Inv b' ∧ b'.readable = b.readable ∧ b'.size = b.size ∧
      b'.writerIndex = kCheapPrepend + b.readableBytes := by
  have h₁ := h.cheapPrepend_le
  have h₂ := h.reader_le
  have h₃ := h.writer_le
  have h₄ := h.size_lt
  have hread := h.readableBytes_eq
  have hrange : readRange b.buffer b.readerIndex b.writerIndex = .ok b.readable :=
    readRange_eq_ok h₂ h₃
  have hmove : kCheapPrepend + b.readable.length ≤ b.buffer.length := by
    rw [h.length_readable]
    unfold size at h₃
    omega
  have hadd : SizeT.add kCheapPrepend b.readableBytes = kCheapPrepend + b.readableBytes :=
    SizeT.add_of_lt (by omega)
  obtain ⟨hinv, hsize, hsame⟩ := readable_move h
  refine ⟨_, ?_, hinv, hsame, hsize, rfl⟩
  rw [makeSpace, if_neg hroom, hrange]
  simp only [writeAt_eq_ok hmove, hadd, bind, Except.bind, pure, Except.pure]

theorem makeSpace_spec (h : Inv b) {len : Nat} (hlen : b.writableBytes < len)
    (hint : len < 2 ^ 31) :
    Completes (fun b' => Inv b' ∧ b'.readable = b.readable ∧ b'.writerIndex + len ≤ b'.size)
      (maxSize < b.writerIndex + len) (b.makeSpace (SizeT.toInt len)) := by
  have h₁ := h.reader_le
  have h₂ := h.writer_le
  have h₃ := h.size_le
  have hmax : maxSize = 2 ^ 63 - 1 := rfl
  have hcheap : kCheapPrepend = 8 := rfl
  have hread := h.readableBytes_eq
  have hwrite := h.writableBytes_eq
  have hof : SizeT.ofInt (SizeT.toInt len) = len := by
    rw [SizeT.toInt_of_lt hint]
    exact SizeT.ofInt_natCast (by omega)
  have hfree : SizeT.add b.writableBytes b.prependableBytes =
      b.size - b.writerIndex + b.readerIndex := by
    rw [SizeT.add_of_lt] <;> simp only [prependableBytes] <;> omega
  have hneed : SizeT.add len kCheapPrepend = len + kCheapPrepend :=
    SizeT.add_of_lt (by omega)
  have hgrow : SizeT.add b.writerIndex len = b.writerIndex + len :=
    SizeT.add_of_lt (by omega)
  by_cases hroom : SizeT.add b.writableBytes b.prependableBytes <
      SizeT.add (SizeT.ofInt (SizeT.toInt len)) kCheapPrepend
  · -- Not enough room even with the prependable bytes: the vector is resized.
    rw [makeSpace, if_pos hroom, hof, hgrow]
    refine Completes.bind (resize_completes _ _ _) ?_
    rintro buffer ⟨hle, rfl⟩
    obtain ⟨hinv, hsize, hsame⟩ := readable_grow h (by omega) hle
    exact Completes.ok ⟨hinv, hsame, le_of_eq hsize.symm⟩
  · -- The content moves down; the bytes in front of it become writable.
    obtain ⟨b', hok, hinv, hsame, hsize, hwriter⟩ := makeSpace_move h hroom
    rw [hof, hfree, hneed] at hroom
    rw [hok]
    refine Completes.ok ⟨hinv, hsame, ?_⟩
    rw [hsize, hwriter]
    omega

/-- `makeSpace` is called, if at all, with a length that its `int` parameter can hold. -/
def FitsInt (b : Buffer) (len : Nat) : Prop :=
  b.writableBytes < len → len < 2 ^ 31

instance (b : Buffer) (len : Nat) : Decidable (FitsInt b len) :=
  inferInstanceAs (Decidable (b.writableBytes < len → len < 2 ^ 31))

theorem ensureWritableBytes_spec (h : Inv b) {len : Nat} (hint : FitsInt b len) :
    Completes (fun b' => Inv b' ∧ b'.readable = b.readable ∧ b'.writerIndex + len ≤ b'.size)
      (maxSize < b.writerIndex + len) (b.ensureWritableBytes len) := by
  by_cases hlen : b.writableBytes < len
  · have hlt := hint hlen
    rw [ensureWritableBytes, if_pos hlen]
    exact makeSpace_spec h hlen hlt
  · rw [ensureWritableBytes, if_neg hlen]
    have h₁ := h.writer_le
    have h₂ := h.writableBytes_eq
    exact Completes.ok ⟨h, rfl, by omega⟩

theorem append_spec (h : Inv b) {data : Bytes} (hint : FitsInt b data.length) :
    Completes (fun b' => Inv b' ∧ b'.readable = b.readable ++ data)
      (maxSize < b.writerIndex + data.length) (b.append data) := by
  refine Completes.bind (ensureWritableBytes_spec h hint) ?_
  rintro b₁ ⟨hinv, hsame, hfit⟩
  obtain ⟨hinv', -, hread⟩ := readable_write hinv hfit
  have hlt := hinv.size_lt
  have hadd : SizeT.add b₁.writerIndex data.length = b₁.writerIndex + data.length :=
    SizeT.add_of_lt (by omega)
  rw [writeAt_eq_ok hfit, hadd]
  exact Completes.ok ⟨hinv', by rw [← hsame]; exact hread⟩

/-- Whatever `makeSpace` was asked for: the writer index has not moved up, and when it is inside the
vector the content is still there. -/
theorem makeSpace_of_ok (h : Inv b) {len : Int} {b' : Buffer} (hok : b.makeSpace len = .ok b') :
    b'.writerIndex ≤ b.writerIndex ∧
      (b'.writerIndex ≤ b'.size → Inv b' ∧ b'.readable = b.readable) := by
  have h₁ := h.cheapPrepend_le
  have h₂ := h.reader_le
  have h₃ := h.writer_le
  have hread := h.readableBytes_eq
  by_cases hroom : SizeT.add b.writableBytes b.prependableBytes <
      SizeT.add (SizeT.ofInt len) kCheapPrepend
  · rw [makeSpace, if_pos hroom] at hok
    obtain ⟨v, hr, hv⟩ := bind_eq_ok hok
    have hres := resize_completes b.buffer (SizeT.add b.writerIndex (SizeT.ofInt len)) 0
    rw [hr] at hres
    obtain ⟨hmax, rfl⟩ := hres.of_ok
    cases hv
    refine ⟨le_refl _, fun hfit => ?_⟩
    have hle : b.writerIndex ≤ SizeT.add b.writerIndex (SizeT.ofInt len) := by
      unfold size at hfit h₃
      simp only [List.length_append, List.length_take, List.length_replicate] at hfit
      omega
    obtain ⟨hinv, -, hsame⟩ := readable_grow h hle hmax
    exact ⟨hinv, hsame⟩
  · obtain ⟨b₁, hmoved, hinv, hsame, -, hwriter⟩ := makeSpace_move h hroom
    cases hmoved.symm.trans hok
    refine ⟨?_, fun _ => ⟨hinv, hsame⟩⟩
    omega

/-- An `append` that returns has appended, whatever its length, and has moved the writer index up by
no more than that. -/
theorem append_of_ok (h : Inv b) {data : Bytes} {b' : Buffer} (hok : b.append data = .ok b') :
    Inv b' ∧ b'.readable = b.readable ++ data ∧
      b'.writerIndex ≤ b.writerIndex + data.length := by
  obtain ⟨b₁, hensure, hok⟩ := bind_eq_ok hok
  obtain ⟨v, hwrite, hv⟩ := bind_eq_ok hok
  have hspace : b₁.writerIndex ≤ b.writerIndex ∧
      (b₁.writerIndex ≤ b₁.size → Inv b₁ ∧ b₁.readable = b.readable) := by
    unfold ensureWritableBytes at hensure
    split at hensure
    · exact makeSpace_of_ok h hensure
    · cases hensure
      exact ⟨le_refl _, fun _ => ⟨h, rfl⟩⟩
  obtain ⟨hwriter, hspace⟩ := hspace
  by_cases hfit : b₁.writerIndex + data.length ≤ b₁.buffer.length
  · obtain ⟨hinv, hsame⟩ := hspace (le_trans (Nat.le_add_right _ _) hfit)
    have hlt := hinv.size_lt
    have hadd : SizeT.add b₁.writerIndex data.length = b₁.writerIndex + data.length :=
      SizeT.add_of_lt (lt_of_le_of_lt hfit hlt)
    obtain ⟨hinv', -, hread⟩ := readable_write hinv hfit
    rw [writeAt_eq_ok hfit] at hwrite
    cases hwrite
    rw [hadd] at hv
    cases hv
    exact ⟨hinv', by rw [← hsame]; exact hread, Nat.add_le_add_right hwriter _⟩
  · rw [writeAt, if_neg hfit] at hwrite
    cases hwrite

/-- A length that becomes zero on its way into `makeSpace`: the content moves to the front, no space is
made, and the copy of `append` leaves the vector. -/
theorem append_undefinedBehaviour (h : Inv b) {data : Bytes} (hint : SizeT.toInt data.length = 0)
    (hlen : b.size < data.length) : b.append data = .error .undefinedBehaviour := by
  have h₁ := h.cheapPrepend_le
  have h₂ := h.reader_le
  have h₃ := h.writer_le
  have h₄ := h.size_lt
  have hwrite := h.writableBytes_eq
  have hzero : SizeT.add (SizeT.ofInt 0) kCheapPrepend = kCheapPrepend := rfl
  have hneeds : b.writableBytes < data.length := by omega
  have hroom : ¬ SizeT.add b.writableBytes b.prependableBytes <
      SizeT.add (SizeT.ofInt 0) kCheapPrepend := by
    rw [hzero, SizeT.add_of_lt] <;> simp only [prependableBytes] <;> omega
  obtain ⟨b₁, hmoved, -, -, hsize, hwriter⟩ := makeSpace_move h hroom
  have hensure : b.ensureWritableBytes data.length = .ok b₁ := by
    rw [ensureWritableBytes, if_pos hneeds, hint]
    exact hmoved
  rw [append, hensure]
  change (writeAt b₁.buffer b₁.writerIndex data >>= _) = _
  rw [writeAt, if_neg]
  · rfl
  · unfold size at hsize hlen
    omega

/-- Bytes delivered into the two segments are appended to the content. -/
theorem readFd_spec (h : Inv b) {data : Bytes} (hcap : data.length ≤ b.readvCapacity) :
    Completes
      (fun r => r.1 = (data.length : Int) ∧ r.2.1 = none ∧ Inv r.2.2 ∧
        r.2.2.readable = b.readable ++ data)
      (maxSize < b.writerIndex + data.length) (b.readFd (.delivered data)) := by
  have h₂ := h.writer_le
  have hlt := h.size_lt
  have hwrite := h.writableBytes_eq
  simp only [readFd]
  split
  · rename_i hfits
    have hfit : b.writerIndex + data.length ≤ b.size := by omega
    obtain ⟨hinv', -, hread⟩ := readable_write h hfit
    have hadd : SizeT.add b.writerIndex data.length = b.writerIndex + data.length :=
      SizeT.add_of_lt (by omega)
    rw [writeAt_eq_ok hfit, hadd]
    exact Completes.ok ⟨rfl, rfl, hinv', hread⟩
  · rename_i hspill
    -- The first segment is filled up; what spilled into `extrabuf` is at most 65536 bytes long.
    have hlen : (data.take b.writableBytes).length = b.size - b.writerIndex := by
      simp only [List.length_take]
      omega
    have hfit : b.writerIndex + (data.take b.writableBytes).length ≤ b.size := by omega
    obtain ⟨hinv', hsize', hread'⟩ := readable_write h hfit
    have hwr : b.writerIndex + (data.take b.writableBytes).length = b.size := by omega
    have hspilled : (data.drop b.writableBytes).length < 2 ^ 31 := by
      have hextra : extrabufSize = 65536 := rfl
      unfold readvCapacity at hcap
      simp only [List.length_drop]
      split at hcap <;> omega
    rw [writeAt_eq_ok hfit]
    simp only [hwr] at hinv' hsize' hread' ⊢
    change Completes _ _ (append _ _ >>= _)
    refine Completes.bind (Completes.mono (append_spec hinv' (fun _ => hspilled))
      (fun _ hb => hb) ?_) ?_
    · simp only [List.length_drop]
      omega
    · rintro b₁ ⟨hinv₁, hread₁⟩
      refine Completes.ok ⟨rfl, rfl, hinv₁, ?_⟩
      rw [hread₁, hread', List.append_assoc, List.take_append_drop]

/-- `readFd` moves the writer index up by no more than the number of bytes delivered. -/
theorem readFd_writerIndex_le (h : Inv b) {data : Bytes} {r : Int × Option Int × Buffer}
    (hok : b.readFd (.delivered data) = .ok r) :
    r.2.2.writerIndex ≤ b.writerIndex + data.length := by
  have h₂ := h.writer_le
  have hwrite := h.writableBytes_eq
  simp only [readFd] at hok
  split at hok
  · obtain ⟨v, -, hv⟩ := bind_eq_ok hok
    cases hv
    exact SizeT.add_le _ _
  · rename_i hspill
    obtain ⟨v, hv, hok⟩ := bind_eq_ok hok
    obtain ⟨b', happ, hb'⟩ := bind_eq_ok hok
    cases hb'
    have hlen : (data.take b.writableBytes).length = b.size - b.writerIndex := by
      simp only [List.length_take]
      omega
    have hfit : b.writerIndex + (data.take b.writableBytes).length ≤ b.size := by omega
    have hwr : b.writerIndex + (data.take b.writableBytes).length = b.size := by omega
    obtain ⟨hinv', -, -⟩ := readable_write h hfit
    rw [writeAt_eq_ok hfit] at hv
    cases hv
    simp only [hwr] at hinv' happ
    have hle := (append_of_ok hinv' happ).2.2
    simp only [List.length_drop] at hle
    dsimp only
    omega

/-- A buffer with nothing but `data` in it. -/
def holding (data : Bytes) : Buffer :=
  { buffer := List.replicate kCheapPrepend 0 ++ data
    readerIndex := kCheapPrepend
    writerIndex := kCheapPrepend + data.length }

theorem holding_spec (data : Bytes) (h : kCheapPrepend + data.length ≤ maxSize) :
    (holding data).Inv ∧ (holding data).readable = data := by
  refine ⟨⟨le_refl _, Nat.le_add_right _ _, ?_, ?_⟩, ?_⟩
  · simp [holding, size]
  · simpa [holding, size] using h
  · simp [holding, readable]

/-! ## Runs of the class -/

/-- A call of a member function. -/
inductive Op
  | append (data : Bytes)
  | ensureWritableBytes (len : Nat)
  | retrieve (len : Nat)
  | retrieveUntil (endPos : Nat)
  | retrieveAll
  | retrieveAsString (len : Nat)
  | readFd (r : Readv)
  deriving DecidableEq, Repr

/-- What the caller of each member function, or the kernel, has to respect. -/
def Op.Legal (b : Buffer) : Op → Prop
  | .append data => data.length < 2 ^ 31
  | .ensureWritableBytes len => len < 2 ^ 31
  | .retrieve _ => True
  | .retrieveUntil endPos => b.readerIndex ≤ endPos ∧ endPos ≤ b.writerIndex
  | .retrieveAll => True
  | .retrieveAsString len => len ≤ b.readableBytes
  | .readFd (.error _) => True
  | .readFd (.delivered data) => data.length ≤ b.readvCapacity

instance (b : Buffer) : (op : Op) → Decidable (op.Legal b)
  | .append data => inferInstanceAs (Decidable (data.length < 2 ^ 31))
  | .ensureWritableBytes len => inferInstanceAs (Decidable (len < 2 ^ 31))
  | .retrieve _ => inferInstanceAs (Decidable True)
  | .retrieveUntil endPos =>
      inferInstanceAs (Decidable (b.readerIndex ≤ endPos ∧ endPos ≤ b.writerIndex))
  | .retrieveAll => inferInstanceAs (Decidable True)
  | .retrieveAsString len => inferInstanceAs (Decidable (len ≤ b.readableBytes))
  | .readFd (.error _) => inferInstanceAs (Decidable True)
  | .readFd (.delivered data) => inferInstanceAs (Decidable (data.length ≤ b.readvCapacity))

/-- The call itself: the string it returns, if any, and the buffer afterwards. -/
def Op.call (b : Buffer) : Op → Except Halt (Bytes × Buffer)
  | .append data => return ([], ← b.append data)
  | .ensureWritableBytes len => return ([], ← b.ensureWritableBytes len)
  | .retrieve len => .ok ([], b.retrieve len)
  | .retrieveUntil endPos => .ok ([], b.retrieveUntil endPos)
  | .retrieveAll => .ok ([], b.retrieveAll)
  | .retrieveAsString len => b.retrieveAsString len
  | .readFd r => return ([], (← b.readFd r).2.2)

/-- The same call on a queue.  A pointer argument stands for its distance from `peek()`. -/
def Op.queueCall (b : Buffer) (q : Fifo UInt8) : Op → Bytes × Fifo UInt8
  | .append data => ([], q.push data)
  | .ensureWritableBytes _ => ([], q)
  | .retrieve len => ([], q.pop len)
  | .retrieveUntil endPos => ([], q.pop (endPos - b.readerIndex))
  | .retrieveAll => ([], q.pop q.contents.length)
  | .retrieveAsString len => (q.contents.take len, q.pop len)
  | .readFd (.error _) => ([], q)
  | .readFd (.delivered data) => ([], q.push data)

/-- The number of bytes by which a call may move the writer index. -/
def Op.demand : Op → Nat
  | .append data => data.length
  | .ensureWritableBytes len => len
  | .readFd (.delivered data) => data.length
  | _ => 0

/-- One legal call, made on the buffer and on the queue side by side. -/
def lockstep (s : Buffer × Fifo UInt8) (op : Op) : Option (Buffer × Fifo UInt8) :=
  if op.Legal s.1 then
    match op.call s.1 with
    | .ok (_, b') => some (b', (op.queueCall s.1 s.2).2)
    | .error _ => none
  else
    none

/-- The buffer is in order and its content is that of the queue. -/
def Simulates (s : Buffer × Fifo UInt8) : Prop :=
  Inv s.1 ∧ s.1.readable = s.2.contents

/-- A legal call on a buffer that simulates a queue returns what the queue returns and simulates it
afterwards; if it throws, the vector would have had to grow past `max_size()`. -/
theorem call_spec {q : Fifo UInt8} (h : Simulates (b, q)) {op : Op} (hop : op.Legal b) :
    Completes
      (fun r => r.1 = (op.queueCall b q).1 ∧ Simulates (r.2, (op.queueCall b q).2))
      (maxSize < b.writerIndex + op.demand) (op.call b) := by
  obtain ⟨hinv, hcont⟩ := h
  cases op with
  | append data =>
      have hlt : data.length < 2 ^ 31 := hop
      refine Completes.bind (append_spec hinv (fun _ => hlt)) ?_
      rintro b' ⟨hinv', hread⟩
      exact Completes.ok ⟨rfl, hinv', by simp [Op.queueCall, hread, hcont]⟩
  | ensureWritableBytes len =>
      have hlt : len < 2 ^ 31 := hop
      refine Completes.bind (ensureWritableBytes_spec hinv (fun _ => hlt)) ?_
      rintro b' ⟨hinv', hread, -⟩
      exact Completes.ok ⟨rfl, hinv', by simp [Op.queueCall, hread, hcont]⟩
  | retrieve len =>
      obtain ⟨hinv', hread⟩ := retrieve_spec hinv len
      exact Completes.ok ⟨rfl, hinv', by simp [Op.queueCall, hread, hcont]⟩
  | retrieveUntil endPos =>
      obtain ⟨hinv', hread⟩ := retrieveUntil_spec hinv hop.1 hop.2
      exact Completes.ok ⟨rfl, hinv', by simp [Op.queueCall, hread, hcont]⟩
  | retrieveAll =>
      obtain ⟨hinv', hread⟩ := retrieveAll_spec hinv
      exact Completes.ok ⟨rfl, hinv', by simp [Op.queueCall, hread]⟩
  | retrieveAsString len =>
      obtain ⟨hinv', hread⟩ := retrieve_spec hinv len
      simp only [Op.call, retrieveAsString_spec hinv hop]
      exact Completes.ok
        ⟨by simp [Op.queueCall, hcont], hinv', by simp [Op.queueCall, hread, hcont]⟩
  | readFd r =>
      cases r with
      | error errno =>
          exact Completes.ok ⟨rfl, hinv, by simp [Op.queueCall, hcont]⟩
      | delivered data =>
          refine Completes.bind (readFd_spec hinv hop) ?_
          rintro ⟨n, errno, b'⟩ ⟨-, -, hinv', hread⟩
          exact Completes.ok ⟨rfl, hinv', by simp [Op.queueCall, hread, hcont]⟩

theorem lockstep_simulates {s t : Buffer × Fifo UInt8} {op : Op} (h : Simulates s)
    (hstep : lockstep s op = some t) : Simulates t := by
  unfold lockstep at hstep
  split at hstep
  · rename_i hop
    cases hcall : op.call s.1 with
    | error e =>
        simp [hcall] at hstep
    | ok r =>
        obtain ⟨out, b'⟩ := r
        have hspec := call_spec h hop
        rw [hcall] at hspec
        have ht : (b', (op.queueCall s.1 s.2).2) = t := by simpa [hcall] using hstep
        rw [← ht]
        exact hspec.of_ok.2
  · cases hstep

/-! ## Refinement -/

/-- A `Buffer` constructed with `initSize` refines a queue: after any sequence of legal calls that
returned, the indices are in order and the readable bytes are those of the queue, and the next legal
call returns the queue's answer or throws because the vector would exceed `max_size()`. -/
def RefinesFifo (initSize : Nat) : Prop :=
  ∀ b₀, Buffer.new initSize = .ok b₀ →
    ∀ ops b q, Run lockstep (b₀, Fifo.empty) ops (b, q) →
      Inv b ∧ b.readable = q.contents ∧
        ∀ op : Op, op.Legal b →
          Completes (fun r => r.1 = (op.queueCall b q).1) (maxSize < b.writerIndex + op.demand)
            (op.call b)

theorem new_eq (initSize : Nat) {b₀ : Buffer} (h : Buffer.new initSize = .ok b₀) :
    b₀.size = SizeT.add kCheapPrepend initSize ∧ b₀.size ≤ maxSize ∧
      b₀.readerIndex = kCheapPrepend ∧ b₀.writerIndex = kCheapPrepend := by
  unfold Buffer.new at h
  have hres := resize_completes ([] : Bytes) (SizeT.add kCheapPrepend initSize) 0
  cases hr : resize ([] : Bytes) (SizeT.add kCheapPrepend initSize) 0 with
  | error e =>
      rw [hr] at h
      cases h
  | ok v =>
      rw [hr] at h hres
      obtain ⟨hle, rfl⟩ := hres.of_ok
      cases h
      simpa [size] using hle

theorem new_simulates {initSize : Nat} (hsize : initSize + kCheapPrepend < 2 ^ 64) {b₀ : Buffer}
    (h : Buffer.new initSize = .ok b₀) : Simulates (b₀, Fifo.empty) := by
  obtain ⟨hs, hmax, hr, hw⟩ := new_eq initSize h
  rw [SizeT.add_of_lt (by omega)] at hs
  have hle : b₀.readerIndex ≤ b₀.writerIndex := by omega
  have hfit : b₀.writerIndex ≤ b₀.size := by omega
  refine ⟨⟨le_of_eq hr.symm, hle, hfit, hmax⟩, ?_⟩
  simp [readable, hr, hw]

/-- The class refines a queue exactly for the initial sizes on which the constructor's
`kCheapPrepend + initSize` does not wrap around. -/
theorem refinesFifo_iff (initSize : Nat) (hsize : initSize < 2 ^ 64) :
    RefinesFifo initSize ↔ initSize + kCheapPrepend < 2 ^ 64 := by
  constructor
  · intro href
    by_contra hwrap
    have hcheap : kCheapPrepend = 8 := rfl
    have hsum : SizeT.add kCheapPrepend initSize = initSize + kCheapPrepend - 2 ^ 64 := by
      unfold SizeT.add
      omega
    -- The vector is constructed with fewer than eight bytes, the indices stand at eight.
    cases hnew : Buffer.new initSize with
    | error e =>
        have hmax : maxSize = 2 ^ 63 - 1 := rfl
        have hle : ¬ maxSize < SizeT.add kCheapPrepend initSize := by omega
        simp [Buffer.new, resize, hle, bind, Except.bind, pure, Except.pure] at hnew
    | ok b₀ =>
        obtain ⟨hs, -, -, hw⟩ := new_eq initSize hnew
        have hinv := (href b₀ hnew [] b₀ Fifo.empty (Run.nil _)).1
        have hle := hinv.writer_le
        omega
  · intro hfit b₀ hnew ops b q hrun
    have hsim : Simulates (b, q) :=
      Run.invariant (fun _ _ _ => lockstep_simulates) hrun (new_simulates hfit hnew)
    refine ⟨hsim.1, hsim.2, ?_⟩
    intro op hop
    exact (call_spec hsim hop).mono (fun _ hr => hr.1) id

theorem refinesFifo_iff_initialSize :
    kInitialSize < 2 ^ 64 ∧ RefinesFifo kInitialSize :=
  ⟨by decide, (refinesFifo_iff kInitialSize (by decide)).2 (by decide)⟩

/-- `Buffer(SIZE_MAX - 7)`: the vector is empty and both indices are 8. -/
theorem not_refinesFifo_wrapped : ¬ RefinesFifo (2 ^ 64 - 8) := by
  intro href
  let b₀ : Buffer := { buffer := [], readerIndex := 8, writerIndex := 8 }
  have hnew : Buffer.new (2 ^ 64 - 8) = .ok b₀ := rfl
  have hle := (href b₀ hnew [] b₀ Fifo.empty (Run.nil _)).1.writer_le
  simp [b₀, size] at hle

end Buffer

end MyServer
end MyCppCode
