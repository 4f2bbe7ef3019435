import MyCppCode.MyServer.BufferFifo
import MyCppCode.MyServer.HttpRequest

/-!
# HttpResponse — the response and its bytes

`appendToBuffer` is a sequence of calls of `Buffer::append`.  If all of them return, the buffer has
the concatenation of their arguments behind what was in it.
-/

namespace MyCppCode
namespace MyServer

open Foundation

inductive HttpStatusCode
  | kUnknown
  | k200_ok
  | k301_movedPermanently
  | k400_badRequest
  | k404_notFound
  deriving DecidableEq, Repr

/-- The value of the enumerator. -/
def HttpStatusCode.value : HttpStatusCode → Nat
  | .kUnknown => 0
  | .k200_ok => 200
  | .k301_movedPermanently => 301
  | .k400_badRequest => 400
  | .k404_notFound => 404

/-- `HttpResponse`; the headers stand in the order in which the loop of `appendToBuffer` meets them. -/
structure HttpResponse where
  headers : List (Bytes × Bytes)
  statusCode : HttpStatusCode
  statusMsg : Bytes
  closeConnection : Bool
  body : Bytes
  deriving DecidableEq, Repr

namespace HttpResponse

def new (close : Bool) : HttpResponse :=
  { headers := []
    statusCode := .kUnknown
    statusMsg := []
    closeConnection := close
    body := [] }

/-- The arguments of the calls of `append`, in their order. -/
def pieces (resp : HttpResponse) : List Bytes :=
  [bytesOf (snprintf 32 ("HTTP/1.1 ".toList ++ formatInt resp.statusCode.value ++ [' '])),
    resp.statusMsg, ascii "\r\n"] ++
  (if resp.closeConnection then
    [ascii "Connection: close\r\n"]
  else
    [bytesOf (snprintf 32 ("Content-Length: ".toList ++ formatInt resp.body.length ++
        "\r\n".toList)),
      ascii "Connection: Keep-Alive\r\n"]) ++
  resp.headers.flatMap (fun h => [h.1, ascii ": ", h.2, ascii "\r\n"]) ++
  [ascii "\r\n", resp.body]

def appendToBuffer (resp : HttpResponse) (output : Buffer) : Except Halt Buffer :=
  resp.pieces.foldlM Buffer.append output

theorem foldlM_append_of_ok {b b' : Buffer} (h : b.Inv) {pieces : List Bytes}
    (hok : pieces.foldlM Buffer.append b = .ok b') :
    b'.Inv ∧ b'.readable = b.readable ++ pieces.flatten := by
  induction pieces generalizing b with
  | nil =>
      cases hok
      exact ⟨h, by simp⟩
  | cons data pieces ih =>
      rw [List.foldlM_cons] at hok
      obtain ⟨b₁, happ, hok⟩ := bind_eq_ok hok
      obtain ⟨hinv, hread, -⟩ := Buffer.append_of_ok h happ
      obtain ⟨hinv', hread'⟩ := ih hinv hok
      exact ⟨hinv', by rw [hread', hread, List.flatten_cons, List.append_assoc]⟩

theorem appendToBuffer_of_ok {resp : HttpResponse} {b b' : Buffer} (h : b.Inv)
    (hok : resp.appendToBuffer b = .ok b') :
    b'.Inv ∧ b'.readable = b.readable ++ resp.pieces.flatten :=
  foldlM_append_of_ok h hok

/-- The status line, one of the two `Connection` headers and the empty line. -/
theorem length_pieces (resp : HttpResponse) : 34 ≤ resp.pieces.flatten.length := by
  have hcode : 0 < (formatInt (resp.statusCode.value : Int)).length := by
    rw [formatInt_natCast]
    exact Nat.length_toDigits_pos
  have hstatus : 11 ≤ (bytesOf (snprintf 32
      ("HTTP/1.1 ".toList ++ formatInt resp.statusCode.value ++ [' ']))).length := by
    have htext : "HTTP/1.1 ".toList.length = 9 := rfl
    simp only [bytesOf, snprintf, List.length_map, List.length_take, List.length_append, htext,
      List.length_singleton]
    omega
  have hcrlf : (ascii "\r\n").length = 2 := rfl
  have hclose : (ascii "Connection: close\r\n").length = 19 := rfl
  have hkeep : (ascii "Connection: Keep-Alive\r\n").length = 24 := rfl
  unfold pieces
  split <;>
    simp only [List.flatten_append, List.flatten_cons, List.length_append, hcrlf, hclose, hkeep] <;>
    omega

end HttpResponse

end MyServer
end MyCppCode
