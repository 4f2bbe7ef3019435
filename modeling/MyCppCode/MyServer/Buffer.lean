import MyCppCode.Foundation.Machine

/-!
# Buffer — the byte buffer of a connection

`Buffer` is a vector with a reader index and a writer index; the bytes between them are the content.
The model keeps the vector, the two indices and their `size_t` arithmetic.  A pointer into the
buffer is its offset from `begin()`.

The operations that may grow the vector, or that write through a pointer, return `Except Halt`:
`std::vector` throws `std::length_error` past `max_size()`, and a copy outside the vector is
undefined.
-/

namespace MyCppCode
namespace MyServer

open Foundation

abbrev Bytes := List UInt8

structure Buffer where
  buffer : Bytes
  readerIndex : Nat
  writerIndex : Nat
  deriving DecidableEq, Repr

/-- What `::readv` did with the two segments it was given. -/
inductive Readv
  | error (errno : Int)
  | delivered (data : Bytes)
  deriving DecidableEq, Repr

namespace Buffer

def kCheapPrepend : Nat := 8
def kInitialSize : Nat := 1024

/-- The size of the stack buffer `extrabuf` of `readFd`. -/
def extrabufSize : Nat := 65536

/-- `"\r\n"`. -/
def kCRLF : Bytes := [13, 10]

/-- The constructor `Buffer(initSize)`. -/
def new (initSize : Nat) : Except Halt Buffer := do
  let buffer ← resize [] (SizeT.add kCheapPrepend initSize) 0
  return { buffer := buffer, readerIndex := kCheapPrepend, writerIndex := kCheapPrepend }

def size (b : Buffer) : Nat := b.buffer.length

def readableBytes (b : Buffer) : Nat := SizeT.sub b.writerIndex b.readerIndex

def writableBytes (b : Buffer) : Nat := SizeT.sub b.size b.writerIndex

def prependableBytes (b : Buffer) : Nat := b.readerIndex

/-- The bytes from `peek()` to `beginWrite()`. -/
def readable (b : Buffer) : Bytes :=
  (b.buffer.drop b.readerIndex).take (b.writerIndex - b.readerIndex)

def retrieveAll (b : Buffer) : Buffer :=
  { b with readerIndex := kCheapPrepend, writerIndex := kCheapPrepend }

def retrieve (b : Buffer) (len : Nat) : Buffer :=
  if len < b.readableBytes then
    { b with readerIndex := SizeT.add b.readerIndex len }
  else
    b.retrieveAll

/-- `retrieveUntil(end)`: the difference `end - peek()` of two pointers, taken as a length. -/
def retrieveUntil (b : Buffer) (endPos : Nat) : Buffer :=
  b.retrieve (SizeT.sub endPos b.readerIndex)

/-- `retrieveAsString(len)`: the string is read from `peek()` before the bytes are dropped. -/
def retrieveAsString (b : Buffer) (len : Nat) : Except Halt (Bytes × Buffer) := do
  let result ← readRange b.buffer b.readerIndex (b.readerIndex + len)
  return (result, b.retrieve len)

def retrieveAllAsString (b : Buffer) : Except Halt (Bytes × Buffer) :=
  b.retrieveAsString b.readableBytes

/-- `makeSpace(int len)`: grow the vector, or move the content to the front of it. -/
def makeSpace (b : Buffer) (len : Int) : Except Halt Buffer :=
  if SizeT.add b.writableBytes b.prependableBytes < SizeT.add (SizeT.ofInt len) kCheapPrepend then do
    let buffer ← resize b.buffer (SizeT.add b.writerIndex (SizeT.ofInt len)) 0
    return { b with buffer := buffer }
  else do
    let content ← readRange b.buffer b.readerIndex b.writerIndex
    let buffer ← writeAt b.buffer kCheapPrepend content
    return { buffer := buffer
             readerIndex := kCheapPrepend
             writerIndex := SizeT.add kCheapPrepend b.readableBytes }

/-- `ensureWritableBytes(size_t len)`: the length becomes an `int` on the way into `makeSpace`. -/
def ensureWritableBytes (b : Buffer) (len : Nat) : Except Halt Buffer :=
  if b.writableBytes < len then
    b.makeSpace (SizeT.toInt len)
  else
    .ok b

def append (b : Buffer) (data : Bytes) : Except Halt Buffer := do
  let b' ← b.ensureWritableBytes data.length
  let buffer ← writeAt b'.buffer b'.writerIndex data
  return { b' with buffer := buffer, writerIndex := SizeT.add b'.writerIndex data.length }

/-- The number of bytes that `readFd` offers to `::readv`: the writable space, and `extrabuf` when
the writable space is the smaller of the two. -/
def readvCapacity (b : Buffer) : Nat :=
  if b.writableBytes < extrabufSize then
    b.writableBytes + extrabufSize
  else
    b.writableBytes

/-- `readFd`: the number of bytes read or `-1`, the saved `errno`, and the buffer. -/
def readFd (b : Buffer) (r : Readv) : Except Halt (Int × Option Int × Buffer) :=
  match r with
  | .error errno => .ok (-1, some errno, b)
  | .delivered data =>
      if data.length ≤ b.writableBytes then do
        let buffer ← writeAt b.buffer b.writerIndex data
        return (data.length, none,
          { b with buffer := buffer, writerIndex := SizeT.add b.writerIndex data.length })
      else do
        let buffer ← writeAt b.buffer b.writerIndex (data.take b.writableBytes)
        let b' ← append { b with buffer := buffer, writerIndex := b.size }
          (data.drop b.writableBytes)
        return (data.length, none, b')

/-- Offset of the first occurrence of `"\r\n"` in a byte string. -/
def searchCRLF : Bytes → Option Nat
  | [] => none
  | c :: rest =>
      if kCRLF.isPrefixOf (c :: rest) then some 0
      else (searchCRLF rest).map (· + 1)

/-- `findCRLF()`: a pointer to the first `"\r\n"` of the content. -/
def findCRLF (b : Buffer) : Option Nat :=
  (searchCRLF b.readable).map (b.readerIndex + ·)

/-! ## The index invariant -/

/-- The picture above the class: `kCheapPrepend <= readerIndex <= writerIndex <= size`, in a vector
that exists. -/
structure Inv (b : Buffer) : Prop where
  cheapPrepend_le : kCheapPrepend ≤ b.readerIndex
  reader_le : b.readerIndex ≤ b.writerIndex
  writer_le : b.writerIndex ≤ b.size
  size_le : b.size ≤ maxSize

variable {b : Buffer}

theorem Inv.size_lt (h : Inv b) : b.size < 2 ^ 64 := by
  have h₁ := h.size_le
  unfold maxSize at h₁
  omega

theorem Inv.readableBytes_eq (h : Inv b) : b.readableBytes = b.writerIndex - b.readerIndex := by
  have h₁ := h.size_lt
  have h₂ := h.writer_le
  exact SizeT.sub_of_le h.reader_le (by omega)

theorem Inv.writableBytes_eq (h : Inv b) : b.writableBytes = b.size - b.writerIndex :=
  SizeT.sub_of_le h.writer_le h.size_lt

theorem Inv.length_readable (h : Inv b) : b.readable.length = b.readableBytes := by
  have h₁ := h.reader_le
  have h₂ := h.writer_le
  rw [h.readableBytes_eq]
  unfold size at h₂
  simp only [readable, List.length_take, List.length_drop]
  omega

/-- Writing `data` behind the writer index and moving the index over it appends to the content. -/
theorem readable_write (h : Inv b) {data : Bytes} (hfit : b.writerIndex + data.length ≤ b.size) :
    let b' : Buffer :=
      { buffer := b.buffer.take b.writerIndex ++ data ++ b.buffer.drop (b.writerIndex + data.length)
        readerIndex := b.readerIndex
        writerIndex := b.writerIndex + data.length }
    Inv b' ∧ b'.size = b.size ∧ b'.readable = b.readable ++ data := by
  have h₁ := h.reader_le
  have h₂ := h.writer_le
  have h₃ := h.size_le
  have h₄ := h.cheapPrepend_le
  unfold size at hfit h₂ h₃
  have hsize : (b.buffer.take b.writerIndex ++ data ++
      b.buffer.drop (b.writerIndex + data.length)).length = b.buffer.length := by
    simp only [List.length_append, List.length_take, List.length_drop]
    omega
  refine ⟨⟨h₄, ?_, ?_, ?_⟩, hsize, ?_⟩
  · simp only
    omega
  · simpa only [size, hsize] using hfit
  · simpa only [size, hsize] using h₃
  · have htake : (b.buffer.take b.writerIndex).drop b.readerIndex = b.readable := by
      rw [List.drop_take, readable]
    have hlen : b.readable.length = b.writerIndex - b.readerIndex := by
      rw [h.length_readable, h.readableBytes_eq]
    simp only [readable] at hlen htake ⊢
    rw [List.append_assoc, List.drop_append_of_le_length (by simp; omega), htake,
      ← List.append_assoc, List.take_append_of_le_length (by simp; omega),
      List.take_of_length_le (by simp; omega)]

end Buffer

end MyServer
end MyCppCode
