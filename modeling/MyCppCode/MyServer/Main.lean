import MyCppCode.MyServer.HttpServerRequests

/-!
# Main — the program: the pages of its callback, from the request to the bytes

`onRequest` is the callback that `main` gives to the server.  The text of the time and the order in which
`appendToBuffer` meets the headers of an `unordered_map` are its parameters.

* `main_one_answer`: whatever a peer sends, it gets one answer at most, the 400 line or a page;
* `main_page`: a request that arrives whole is answered with the page of its path.
-/

namespace MyCppCode
namespace MyServer

open Foundation

namespace HttpResponse

/-- `m_headers[key] = value`. -/
def addHeader (resp : HttpResponse) (key value : Bytes) : HttpResponse :=
  { resp with
    headers :=
      if key ∈ resp.headers.map Prod.fst then
        resp.headers.map fun h => if h.1 = key then (key, value) else h
      else resp.headers ++ [(key, value)] }

def setContentType (resp : HttpResponse) (contentType : Bytes) : HttpResponse :=
  resp.addHeader (ascii "Content-Type") contentType

end HttpResponse

namespace Main

open HttpServer
open HttpContext (WrittenRequest)

/-- What the program knows beside the request: the bytes of `favicon`, the text that
`Timestamp::now().format()` has written into its buffer, and the order of the headers. -/
structure Site where
  favicon : { bytes : Bytes // bytes.length = 555 }
  now : { text : Bytes // text.length < 64 }
  order : (hs : List (Bytes × Bytes)) → { hs' : List (Bytes × Bytes) // hs'.Perm hs }

def onRequest (site : Site) (req : HttpRequest) (resp : HttpResponse) : HttpResponse :=
  if req.path = ascii "/" then
    let resp := { resp with statusCode := .k200_ok, statusMsg := ascii "OK" }
    let resp := resp.setContentType (ascii "text/html")
    let resp := resp.addHeader (ascii "Server") (ascii "Muduo_zzz")
    { resp with
      body := ascii "<html><head><title>This is title</title></head><body><h1>Hello</h1>Now is " ++
        site.now.1 ++ ascii "</body></html>" }
  else if req.path = ascii "/favicon.ico" then
    let resp := { resp with statusCode := .k200_ok, statusMsg := ascii "OK" }
    let resp := resp.setContentType (ascii "image/png")
    { resp with body := site.favicon.1 }
  else if req.path = ascii "/hello" then
    let resp := { resp with statusCode := .k200_ok, statusMsg := ascii "OK" }
    let resp := resp.setContentType (ascii "text/plain")
    let resp := resp.addHeader (ascii "Server") (ascii "Muduo_zzz")
    { resp with body := ascii "hello world" }
  else
    { resp with
      statusCode := .k404_notFound
      statusMsg := ascii "Not Found"
      closeConnection := true }

/-- The callback, with the headers as `appendToBuffer` meets them. -/
def httpCallback (site : Site) : HttpCallback := fun req resp =>
  let resp := onRequest site req resp
  { resp with headers := (site.order resp.headers).1 }

variable (site : Site)

/-- The bytes of the headers of a response. -/
def headerBytes (hs : List (Bytes × Bytes)) : Nat :=
  (hs.flatMap fun h => [h.1, ascii ": ", h.2, ascii "\r\n"]).flatten.length

/-- What all pages have in common. -/
structure Page (resp : HttpResponse) : Prop where
  closes : resp.closeConnection = true
  statusMsg : HttpResponse.OneLine resp.statusMsg ∧ resp.statusMsg.length ≤ 9
  headers : ∀ h ∈ resp.headers, HttpResponse.OneLine h.1 ∧ (58 : UInt8) ∉ h.1 ∧ HttpResponse.OneLine h.2
  headerBytes : headerBytes resp.headers ≤ 100
  body : resp.body.length ≤ 555

theorem Page.of {code : HttpStatusCode} {msg : Bytes} {hs : List (Bytes × Bytes)} {body : Bytes}
    (hmsg : HttpResponse.OneLine msg ∧ msg.length ≤ 9)
    (hhs : ∀ h ∈ hs, HttpResponse.OneLine h.1 ∧ (58 : UInt8) ∉ h.1 ∧ HttpResponse.OneLine h.2)
    (hbytes : Main.headerBytes hs ≤ 100) (hbody : body.length ≤ 555) :
    Page ⟨hs, code, msg, true, body⟩ :=
  ⟨rfl, hmsg, hhs, hbytes, hbody⟩

theorem page_onRequest (req : HttpRequest) : Page (onRequest site req (HttpResponse.new true)) := by
  have hnow := site.now.2
  have hfront : (ascii "<html><head><title>This is title</title></head><body><h1>Hello</h1>Now is ").length =
    74 := by decide
  have hback : (ascii "</body></html>").length = 14 := by decide
  unfold onRequest
  split
  · refine Page.of (by decide) (by decide) (by decide) ?_
    rw [List.length_append, List.length_append]
    omega
  · split
    · exact Page.of (by decide) (by decide) (by decide) (le_of_eq site.favicon.2)
    · split
      · exact Page.of (by decide) (by decide) (by decide) (by decide)
      · exact Page.of (by decide) (by decide) (by decide) (by decide)

theorem clean_httpCallback (req : HttpRequest) :
    (httpCallback site req (HttpResponse.new true)).Clean := by
  have hpage := page_onRequest site req
  have hperm := (site.order (onRequest site req (HttpResponse.new true)).headers).2
  refine ⟨hpage.statusMsg.1, ?_, ?_, ?_⟩
  · intro h hh
    obtain ⟨hname, hcolon, -⟩ := hpage.headers h (hperm.mem_iff.1 hh)
    exact ⟨hname, hcolon⟩
  · intro h hh
    exact (hpage.headers h (hperm.mem_iff.1 hh)).2.2
  · exact lt_of_le_of_lt hpage.body (by decide)

/-- How long the bytes of a response that closes the connection are. -/
theorem length_pieces_close {resp : HttpResponse} (hclose : resp.closeConnection = true) :
    resp.pieces.flatten.length ≤
      31 + resp.statusMsg.length + 2 + 19 + headerBytes resp.headers + 2 + resp.body.length := by
  have hstatus : (bytesOf (snprintf 32 ("HTTP/1.1 ".toList ++ formatInt resp.statusCode.value ++
      [' ']))).length ≤ 31 := by
    rw [bytesOf, List.length_map, snprintf]
    exact List.length_take_le _ _
  have hcrlf : (ascii "\r\n").length = 2 := by decide
  have hconnection : (ascii "Connection: close\r\n").length = 19 := by decide
  unfold HttpResponse.pieces headerBytes
  rw [if_pos hclose]
  simp only [List.flatten_append, List.flatten_cons, List.flatten_nil, List.length_append,
    List.append_nil, hcrlf, hconnection]
  omega

theorem modest_httpCallback : Modest (httpCallback site) := by
  intro req
  have hpage := page_onRequest site req
  have hperm := (site.order (onRequest site req (HttpResponse.new true)).headers).2
  have hsame := ((hperm.flatMap_right fun h => [h.1, ascii ": ", h.2, ascii "\r\n"]).flatten).length_eq
  have hheaders : headerBytes (httpCallback site req (HttpResponse.new true)).headers ≤ 100 := by
    rw [headerBytes, httpCallback, hsame]
    exact hpage.headerBytes
  have hlength : (Dialogue.reply (httpCallback site) req).length ≤ _ := length_pieces_close hpage.closes
  have hmsg : (httpCallback site req (HttpResponse.new true)).statusMsg.length ≤ 9 := hpage.statusMsg.2
  have hbody : (httpCallback site req (HttpResponse.new true)).body.length ≤ 555 := hpage.body
  omega

/-! ## The program on one connection -/

variable {site} {fd : Int} {c : TcpConnection} {es : List Event} {x : Wire}

/-- A new connection, and whatever its peer sends, in whatever pieces: there is at most one answer, the
400 line or the response to the first request that was taken, and the bytes of this answer are what the
socket has taken and what still waits. -/
theorem main_one_answer (hnew : TcpConnection.new fd = .ok c)
    (hrun : Run (step (httpCallback site)) (Wire.start c.connectEstablished.1) es x) :
    accepted x.out.trace ++ x.out.conn.outputBuffer.readable = x.handed.flatten ∧
      (x.out.conn.state = .kConnected ∧ x.requests = [] ∧ x.handed = [] ∨
        x.out.conn.state = .kDisconnecting ∧
          (x.handed = [badRequest] ∨
            ∃ req, x.requests.head? = some req ∧
              x.handed = [Dialogue.reply (httpCallback site) req])) := by
  obtain ⟨a, hconverse, h⟩ := run_serves (modest_httpCallback site) (serves_start hnew) hrun
  have hclose : ∀ req, (httpCallback site req (HttpResponse.new true)).closeConnection = true :=
    fun req => (page_onRequest site req).closes
  have hdisconnecting : a.opened = false → x.out.conn.state = .kDisconnecting := by
    intro hclosed
    cases h.stream.phase with
    | opened hstate _ =>
        rw [h.opened, hclosed] at hstate
        exact absurd hstate Bool.false_ne_true
    | closing _ hstate _ _ _ => exact hstate
  refine ⟨by rw [h.stream.stream, h.sent, h.handed], ?_⟩
  cases Dialogue.converse_once hclose (.waiting rfl rfl rfl) hconverse with
  | waiting hopened hrequests hanswers =>
      exact Or.inl ⟨h.opened.2 hopened, h.requests.trans hrequests, h.handed.trans hanswers⟩
  | refused hclosed hanswers =>
      exact Or.inr ⟨hdisconnecting hclosed, Or.inl (h.handed.trans hanswers)⟩
  | replied req hclosed hhead hanswers =>
      refine Or.inr ⟨hdisconnecting hclosed, Or.inr ⟨req, ?_, h.handed.trans hanswers⟩⟩
      rw [h.requests, hhead]

/-- A site in the new year, which meets the last header first. -/
def newYear : Site where
  favicon := ⟨List.replicate 555 0, List.length_replicate⟩
  now := ⟨ascii "2024/01/01 00:00:00", by decide⟩
  order := fun hs => ⟨hs.reverse, List.reverse_perm hs⟩

/-- `GET /hello HTTP/1.1`, without headers. -/
def helloText : WrittenRequest :=
  { rootText with
    path := ascii "/hello"
    path_clean := by decide }

set_option maxRecDepth 20000 in
/-- The first byte of a request arrives alone, and then a whole request: the 400 line is all that the
peer gets, although the second request is taken. -/
theorem main_one_answer_refused :
    ∃ c x, TcpConnection.new 5 = .ok c ∧
      Run (step (httpCallback newYear)) (Wire.start c.connectEstablished.1)
        [.chunk (ascii "G") 0 (upTo 9), .chunk (ascii "ET / HTTP/1.1\r\n\r\n") 1 (upTo 9)] x ∧
      x.requests.length = 1 ∧ x.handed = [badRequest] ∧
      accepted x.out.trace ++ x.out.conn.outputBuffer.readable = x.handed.flatten := by
  obtain ⟨c, hc⟩ : ∃ c, TcpConnection.new 5 = .ok c := ⟨_, rfl⟩
  obtain ⟨x, hexec, hrequests, hhanded⟩ : ∃ x,
      exec (step (httpCallback newYear)) (Wire.start c.connectEstablished.1)
        [.chunk (ascii "G") 0 (upTo 9), .chunk (ascii "ET / HTTP/1.1\r\n\r\n") 1 (upTo 9)] = some x ∧
        x.requests.length = 1 ∧ x.handed = [badRequest] := by
    cases hc
    exact ⟨_, rfl, rfl, rfl⟩
  have hrun := run_of_exec hexec
  exact ⟨c, x, hc, hrun, hrequests, hhanded, (main_one_answer hc hrun).1⟩

/-- A request arrives whole in the first chunk of a new connection, whatever follows it.  Once nothing
waits any more, the peer reads the response of `onRequest` to the path back from the bytes that it got,
but for the order of the headers, and there will be no more bytes. -/
theorem main_page (hnew : TcpConnection.new fd = .ok c) (r : WrittenRequest) {rest : Bytes}
    {receiveTime : Int} {w : Answer}
    (hrun : Run (step (httpCallback site)) (Wire.start c.connectEstablished.1)
      (.chunk (r.text ++ rest) receiveTime w :: es) x)
    (hdone : x.out.conn.outputBuffer.readable = []) :
    ∃ headers, headers.Perm (onRequest site (asReceived r receiveTime) (HttpResponse.new true)).headers ∧
      HttpResponse.decode (accepted x.out.trace) =
        some { onRequest site (asReceived r receiveTime) (HttpResponse.new true) with
          headers := headers } ∧
      ∃ pre, .shutdownWrite ∉ pre ∧ x.out.trace = pre ++ [.shutdownWrite] := by
  obtain ⟨-, -, hend⟩ := served_request (modest_httpCallback site) hnew r rfl
    (clean_httpCallback site _) (page_onRequest site _).closes hrun
  obtain ⟨hdecode, htrace⟩ := hend hdone
  exact ⟨_, (site.order _).2, hdecode, htrace⟩

set_option maxRecDepth 20000 in
/-- `/hello`, taken by the socket in two parts. -/
theorem main_page_hello :
    ∃ c x, TcpConnection.new 5 = .ok c ∧
      Run (step (httpCallback newYear)) (Wire.start c.connectEstablished.1)
        [.chunk (helloText.text ++ ascii "more") 3 (upTo 60), .writable (upTo 60)] x ∧
      ∃ headers, HttpResponse.decode (accepted x.out.trace) =
        some { onRequest newYear (asReceived helloText 3) (HttpResponse.new true) with
          headers := headers } := by
  obtain ⟨c, hc⟩ : ∃ c, TcpConnection.new 5 = .ok c := ⟨_, rfl⟩
  obtain ⟨x, hexec, hdone⟩ : ∃ x,
      exec (step (httpCallback newYear)) (Wire.start c.connectEstablished.1)
        [.chunk (helloText.text ++ ascii "more") 3 (upTo 60), .writable (upTo 60)] = some x ∧
        x.out.conn.outputBuffer.readable = [] := by
    cases hc
    exact ⟨_, rfl, rfl⟩
  have hrun := run_of_exec hexec
  obtain ⟨headers, -, hdecode, -⟩ := main_page hc helloText hrun hdone
  exact ⟨c, x, hc, hrun, headers, hdecode⟩

end Main

end MyServer
end MyCppCode
