import MyCppCode.Foundation.Lines
import MyCppCode.MyServer.HttpResponse

/-!
# HttpResponseDecoding — a response can be read back from its bytes

`decode` reads a response line by line: the status line, one or two lines that only depend on the close
flag and the length of the body, the headers up to the empty line, and the body, which may hold anything.
On the bytes of a response without line breaks in its texts it gives that response, so no two of them
have the same bytes (`decode_pieces`).

The headers of a response stand in the order in which the map was iterated.  Reading back gives this
very order, and so the map, whatever the order was.
-/

namespace MyCppCode
namespace MyServer

open Foundation

namespace HttpResponse

/-! ## The lines of a response -/

/-- There is neither CR nor LF in the text. -/
def OneLine (text : Bytes) : Prop :=
  (13 : UInt8) ∉ text ∧ (10 : UInt8) ∉ text

instance (text : Bytes) : Decidable (OneLine text) :=
  inferInstanceAs (Decidable (_ ∧ _))

/-- The texts of the response do not break lines, and the length of the body fits the 32 bytes of
`snprintf`. -/
structure Clean (resp : HttpResponse) : Prop where
  statusMsg : OneLine resp.statusMsg
  names : ∀ h ∈ resp.headers, OneLine h.1 ∧ (58 : UInt8) ∉ h.1
  values : ∀ h ∈ resp.headers, OneLine h.2
  body : resp.body.length < 10 ^ 13

def statusLine (resp : HttpResponse) : Bytes :=
  ascii "HTTP/1.1" ++ 32 :: (bytesOf (decimal resp.statusCode.value) ++ 32 :: resp.statusMsg)

/-- `"Content-Length: "` and the number. -/
def contentLength (n : Nat) : Bytes :=
  ascii "Content-Length: " ++ bytesOf (decimal n)

/-- The lines between the status line and the headers of the user. -/
def fixedLines (resp : HttpResponse) : List Bytes :=
  if resp.closeConnection then
    [ascii "Connection: close"]
  else
    [contentLength resp.body.length, ascii "Connection: Keep-Alive"]

def lines (resp : HttpResponse) : List Bytes :=
  resp.statusLine :: (resp.fixedLines ++ (resp.headers.map headerLine ++ [[]]))

variable {resp : HttpResponse}

theorem bytesOf_append (x y : List Char) : bytesOf (x ++ y) = bytesOf x ++ bytesOf y :=
  List.map_append

/-- No status code is cut by `snprintf`. -/
theorem statusText (code : HttpStatusCode) :
    bytesOf (snprintf 32 ("HTTP/1.1 ".toList ++ formatInt code.value ++ [' '])) =
      ascii "HTTP/1.1" ++ 32 :: (bytesOf (decimal code.value) ++ [32]) := by
  cases code <;> decide

/-- Nor is the length of a body of less than ten terabytes. -/
theorem contentLengthText {n : Nat} (h : n < 10 ^ 13) :
    bytesOf (snprintf 32 ("Content-Length: ".toList ++ formatInt n ++ "\r\n".toList)) =
      contentLength n ++ [13, 10] := by
  have hdigits : (decimal n).length ≤ 13 :=
    (Nat.length_toDigits_le_iff (by decide) (by decide)).2 h
  have hlen : ("Content-Length: ".toList ++ formatInt n ++ "\r\n".toList).length < 32 := by
    have htext : "Content-Length: ".toList.length = 16 := rfl
    have hcrlf : "\r\n".toList.length = 2 := rfl
    rw [formatInt_natCast]
    simp only [List.length_append, htext, hcrlf]
    omega
  rw [snprintf_of_length_lt hlen, formatInt_natCast, bytesOf_append, bytesOf_append]
  rfl

theorem flatten_headers (hs : List (Bytes × Bytes)) :
    (hs.flatMap fun h => [h.1, [58, 32], h.2, [13, 10]]).flatten =
      joinLines 13 10 (hs.map headerLine) := by
  induction hs with
  | nil => rfl
  | cons h hs ih => simp [ih, headerLine]

/-- What `appendToBuffer` appends: the lines, and the body as it is. -/
theorem pieces_flatten (h : resp.Clean) :
    resp.pieces.flatten = joinLines 13 10 resp.lines ++ resp.body := by
  have hcrlf : ascii "\r\n" = [13, 10] := rfl
  have hcolon : ascii ": " = [58, 32] := rfl
  unfold pieces lines fixedLines
  rw [statusText, contentLengthText h.body]
  cases resp.closeConnection with
  | true =>
      have hclose : ascii "Connection: close\r\n" = ascii "Connection: close" ++ [13, 10] := rfl
      simp [statusLine, hcrlf, hcolon, hclose, flatten_headers]
  | false =>
      have hkeep : ascii "Connection: Keep-Alive\r\n" = ascii "Connection: Keep-Alive" ++ [13, 10] :=
        rfl
      simp [statusLine, hcrlf, hcolon, hkeep, flatten_headers]

theorem not_mem_decimal (n : Nat) : (13 : UInt8) ∉ bytesOf (decimal n) := by
  unfold bytesOf
  rw [List.mem_map]
  rintro ⟨c, hc, hcr⟩
  have hdigit := Nat.isDigit_of_mem_toDigits (by decide) (by decide) hc
  have hrange : 48 ≤ c.toNat ∧ c.toNat ≤ 57 := by
    simpa [Char.isDigit, UInt32.le_iff_toNat_le] using hdigit
  have hval : c.toNat % 256 = 13 := by simpa using congrArg UInt8.toNat hcr
  omega

theorem not_mem_statusLine (h : resp.Clean) : (13 : UInt8) ∉ resp.statusLine := by
  have hversion : (13 : UInt8) ∉ ascii "HTTP/1.1" := by decide
  simp [statusLine, hversion, not_mem_decimal, h.statusMsg.1]

theorem not_mem_fixedLines : ∀ l ∈ resp.fixedLines, (13 : UInt8) ∉ l := by
  have hclose : (13 : UInt8) ∉ ascii "Connection: close" := by decide
  have hlength : (13 : UInt8) ∉ ascii "Content-Length: " := by decide
  have hkeep : (13 : UInt8) ∉ ascii "Connection: Keep-Alive" := by decide
  unfold fixedLines contentLength
  split <;> simp [hclose, hlength, hkeep, not_mem_decimal]

/-- The lines have no line break in them. -/
theorem lines_whole (h : resp.Clean) : ∀ l ∈ resp.lines, Unterminated (13 : UInt8) 10 l := by
  intro l hl
  apply unterminated_of_not_mem
  simp only [lines, List.mem_cons, List.mem_append, List.mem_map, List.not_mem_nil, or_false] at hl
  rcases hl with rfl | hl | ⟨header, hheader, rfl⟩ | rfl
  · exact not_mem_statusLine h
  · exact not_mem_fixedLines l hl
  · simp [headerLine, (h.names header hheader).1.1, (h.values header hheader).1]
  · exact List.not_mem_nil

/-! ## Reading a response -/

def codes : List HttpStatusCode :=
  [.kUnknown, .k200_ok, .k301_movedPermanently, .k400_badRequest, .k404_notFound]

/-- `HTTP/1.1 code message`. -/
def decodeStatus (line : Bytes) : Option (HttpStatusCode × Bytes) := do
  let (_, afterVersion) ← cutAt 32 line
  let (text, msg) ← cutAt 32 afterVersion
  let code ← codes.find? fun c => bytesOf (decimal c.value) = text
  return (code, msg)

/-- The close flag, and the lines behind those that depend on it. -/
def decodeFixed : List Bytes → Bool × List Bytes
  | [] => (false, [])
  | l :: ls => if l = ascii "Connection: close" then (true, ls) else (false, ls.tail)

def decodeHeader (line : Bytes) : Option (Bytes × Bytes) :=
  (cutAt 58 line).map fun r => (r.1, r.2.tail)

/-- The response that the bytes stand for. -/
def decode (bytes : Bytes) : Option HttpResponse := do
  let (ls, rest) := splitLines 13 10 bytes
  let (code, msg) ← decodeStatus (ls.headD [])
  let (close, ls) := decodeFixed ls.tail
  return { headers := (ls.takeWhile (· ≠ [])).filterMap decodeHeader
           statusCode := code
           statusMsg := msg
           closeConnection := close
           body := joinLines 13 10 (ls.dropWhile (· ≠ [])).tail ++ rest }

theorem decodeStatus_statusLine (resp : HttpResponse) :
    decodeStatus resp.statusLine = some (resp.statusCode, resp.statusMsg) := by
  have hversion : (32 : UInt8) ∉ ascii "HTTP/1.1" := by decide
  have hcode : (32 : UInt8) ∉ bytesOf (decimal resp.statusCode.value) := by
    cases resp.statusCode <;> decide
  have hfind : codes.find? (fun c => bytesOf (decimal c.value) =
      bytesOf (decimal resp.statusCode.value)) = some resp.statusCode := by
    cases resp.statusCode <;> decide
  simp [decodeStatus, statusLine, cutAt_append hversion, cutAt_append hcode, hfind]

theorem decodeFixed_fixedLines (resp : HttpResponse) (ls : List Bytes) :
    decodeFixed (resp.fixedLines ++ ls) = (resp.closeConnection, ls) := by
  unfold fixedLines
  cases resp.closeConnection with
  | true => simp [decodeFixed]
  | false =>
      -- The two lines differ in their fourth byte.
      have hne : contentLength resp.body.length ≠ ascii "Connection: close" := by
        intro h
        have hbyte : (ascii "Content-Length: ")[3]? = (ascii "Connection: close")[3]? := by
          rw [← h]
          rfl
        exact absurd hbyte (by decide)
      simp [decodeFixed, hne]

/-- The header lines up to the empty one, and the lines behind it. -/
theorem decode_headers (h : resp.Clean) (left : List Bytes) :
    ((resp.headers.map headerLine ++ [] :: left).takeWhile (· ≠ [])).filterMap decodeHeader =
        resp.headers ∧
      ((resp.headers.map headerLine ++ [] :: left).dropWhile (· ≠ [])).tail = left := by
  have hne : ∀ l ∈ resp.headers.map headerLine, decide (l ≠ []) = true := by
    intro l hl
    obtain ⟨header, -, rfl⟩ := List.mem_map.1 hl
    simp [headerLine]
  have hread : ∀ header ∈ resp.headers, decodeHeader (headerLine header) = some header := by
    intro header hheader
    simp [decodeHeader, headerLine, cutAt_append (h.names header hheader).2]
  refine ⟨?_, ?_⟩
  · rw [List.takeWhile_append_of_pos hne]
    simp only [ne_eq, not_true_eq_false, decide_false, Bool.false_eq_true, not_false_eq_true,
      List.takeWhile_cons_of_neg, List.append_nil]
    rw [List.filterMap_map]
    calc
      resp.headers.filterMap (decodeHeader ∘ headerLine)
          = resp.headers.filterMap some := List.filterMap_congr hread
      _ = resp.headers := List.filterMap_some
  · rw [List.dropWhile_append_of_pos hne]
    simp

/-- Reading the bytes of a response gives the response. -/
theorem decode_bytes (h : resp.Clean) : decode resp.pieces.flatten = some resp := by
  rw [pieces_flatten h]
  unfold decode
  rw [splitLines_join (by decide) (lines_whole h)]
  obtain ⟨hheaders, hbody⟩ := decode_headers h (splitLines 13 10 resp.body).1
  simp only [lines, List.cons_append, List.headD_cons, List.tail_cons, decodeStatus_statusLine,
    List.append_assoc, decodeFixed_fixedLines, List.nil_append, hheaders, hbody, join_splitLines]
  rfl

/-- Pieces whose lengths fit an `int` are appended, unless the buffer would exceed `max_size()`. -/
theorem foldlM_append_completes {pieces : List Bytes} (hfit : ∀ p ∈ pieces, p.length < 2 ^ 31)
    {b : Buffer} (hb : b.Inv) :
    Completes (fun b' => b'.Inv ∧ b'.readable = b.readable ++ pieces.flatten)
      (maxSize < b.writerIndex + pieces.flatten.length) (pieces.foldlM Buffer.append b) := by
  induction pieces generalizing b with
  | nil => exact Completes.ok ⟨hb, by simp⟩
  | cons p pieces ih =>
      have hp : p.length < 2 ^ 31 := hfit p (by simp)
      rw [List.foldlM_cons, List.flatten_cons, List.length_append]
      cases happend : b.append p with
      | error e =>
          have hfits : Buffer.FitsInt b p.length := fun _ => hp
          have hspec := Buffer.append_spec hb hfits
          rw [happend] at hspec
          cases hspec with
          | lengthError hmax => exact Completes.lengthError (by omega)
      | ok b₁ =>
          obtain ⟨hinv, hread, hle⟩ := Buffer.append_of_ok hb happend
          refine (ih (fun q hq => hfit q (by simp [hq])) hinv).mono ?_ (by omega)
          rintro b' ⟨hinv', hread'⟩
          exact ⟨hinv', by rw [hread', hread, List.append_assoc]⟩

end HttpResponse

end MyServer
end MyCppCode
