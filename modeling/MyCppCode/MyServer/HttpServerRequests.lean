import MyCppCode.MyServer.HttpContextGrammar
import MyCppCode.MyServer.HttpServerStream

/-!
# HttpServerRequests — written requests, and what their client reads

* `served_request`: a request that arrives whole is answered with the response of the callback, and the
  client can read it back;
* `served_requests`: on a connection that is kept alive, requests are answered in their order.
-/

namespace MyCppCode
namespace MyServer
namespace HttpServer

open Foundation
open HttpContext (WrittenRequest)

/-- The request as the callback gets it. -/
def asReceived (r : WrittenRequest) (receiveTime : Int) : HttpRequest :=
  { r.request with
    receiveTime := receiveTime
    headers := WrittenRequest.lastValue r.headers }

namespace Dialogue

variable {httpCallback : HttpCallback} {a a' : Dialogue}

/-- A request that arrives whole is answered, whatever follows it. -/
theorem receive_text (r : WrittenRequest) (h : a.unread = []) (rest : Bytes) (receiveTime : Int) :
    a.receive httpCallback (r.text ++ rest) receiveTime =
      .ok ({ a with unread := rest }.respond httpCallback (asReceived r receiveTime)) := by
  have hbegins := r.beginsRequest_text rest
  have hunread : a.unread ++ (r.text ++ rest) = r.text ++ rest := by rw [h, List.nil_append]
  have hlines := hbegins.splitLines_eq
  rw [← hunread] at hlines
  have hparse : HttpContext.new.parseLines receiveTime (r.request.requestLine ::
      (r.headers.map headerLine ++ [] :: (splitLines 13 10 rest).1)) = .ok (true, _) :=
    HttpContext.parseLines_accepted receiveTime hbegins.line_accepted hbegins.headerLines_colon
  rw [HttpContext.readHeaders, r.ofLines_text receiveTime] at hparse
  rw [receive_of_ok (by rw [hlines]; exact hparse), hlines]
  simp only [join_splitLines]
  rfl

theorem answer_closed (h : a.opened = false) (msg : Bytes) : a.answer msg = a := by
  obtain ⟨unread, opened, requests, answers⟩ := a
  cases h
  rfl

theorem close_closed (h : a.opened = false) : a.close = a := by
  obtain ⟨unread, opened, requests, answers⟩ := a
  cases h
  rfl

theorem respond_closed (h : a.opened = false) (req : HttpRequest) :
    a.respond httpCallback req = { a with requests := a.requests ++ [req] } := by
  have h' : Dialogue.opened { a with requests := a.requests ++ [req] } = false := h
  unfold respond
  rw [answer_closed h']
  split
  · exact close_closed h'
  · rfl

/-- After the last answer, requests may still be taken, but not answered. -/
theorem receive_closed {data : Bytes} {receiveTime : Int} (h : a.opened = false)
    (hreceive : a.receive httpCallback data receiveTime = .ok a') :
    a'.opened = false ∧ a'.answers = a.answers ∧ a.requests <+: a'.requests := by
  cases hparse : HttpContext.new.parseLines receiveTime (splitLines 13 10 (a.unread ++ data)).1 with
  | error e =>
      rw [receive_of_error hparse] at hreceive
      cases hreceive
  | ok r =>
      obtain ⟨ok, context, left⟩ := r
      rw [receive_of_ok hparse, take, answer_closed (by exact h), close_closed (by exact h), ite_self]
        at hreceive
      split at hreceive
      · rw [respond_closed (by exact h)] at hreceive
        cases hreceive
        exact ⟨h, rfl, List.prefix_append _ _⟩
      · cases hreceive
        exact ⟨h, rfl, List.prefix_rfl⟩

theorem converse_cons {data : Bytes} {receiveTime : Int} {cs : List (Bytes × Int)}
    (h : a.receive httpCallback data receiveTime = .ok a') :
    a.converse httpCallback ((data, receiveTime) :: cs) = a'.converse httpCallback cs := by
  rw [converse, List.foldlM_cons, h]
  rfl

theorem converse_closed {cs : List (Bytes × Int)} (h : a.opened = false)
    (hconverse : a.converse httpCallback cs = .ok a') :
    a'.opened = false ∧ a'.answers = a.answers ∧ a.requests <+: a'.requests := by
  induction cs generalizing a with
  | nil =>
      cases hconverse
      exact ⟨h, rfl, List.prefix_rfl⟩
  | cons chunk cs ih =>
      obtain ⟨a₁, hreceive, hrest⟩ := bind_eq_ok hconverse
      obtain ⟨h₁, hanswers, hrequests⟩ := receive_closed h hreceive
      obtain ⟨h', hanswers', hrequests'⟩ := ih h₁ hrest
      exact ⟨h', hanswers'.trans hanswers, hrequests.trans hrequests'⟩

/-- Where every response closes the connection: no answer yet, or one, to the first request. -/
inductive AnswersOnce (httpCallback : HttpCallback) (a : Dialogue) : Prop
  | waiting : a.opened = true → a.requests = [] → a.answers = [] → AnswersOnce httpCallback a
  | refused : a.opened = false → a.answers = [badRequest] → AnswersOnce httpCallback a
  | replied (req : HttpRequest) : a.opened = false → a.requests.head? = some req →
      a.answers = [reply httpCallback req] → AnswersOnce httpCallback a

theorem head_eq_some_of_begins {reqs reqs' : List HttpRequest} {req : HttpRequest} (h : reqs <+: reqs')
    (hhead : reqs.head? = some req) : reqs'.head? = some req := by
  obtain ⟨later, rfl⟩ := h
  rw [List.head?_append, hhead]
  rfl

theorem receive_once (hclose : ∀ req, (httpCallback req (HttpResponse.new true)).closeConnection = true)
    {data : Bytes} {receiveTime : Int} (h : AnswersOnce httpCallback a)
    (hreceive : a.receive httpCallback data receiveTime = .ok a') : AnswersOnce httpCallback a' := by
  cases h with
  | refused hclosed hanswers =>
      obtain ⟨hclosed', hanswers', -⟩ := receive_closed hclosed hreceive
      exact .refused hclosed' (hanswers'.trans hanswers)
  | replied req hclosed hhead hanswers =>
      obtain ⟨hclosed', hanswers', hrequests⟩ := receive_closed hclosed hreceive
      exact .replied req hclosed' (head_eq_some_of_begins hrequests hhead) (hanswers'.trans hanswers)
  | waiting hopened hrequests hanswers =>
      cases hparse : HttpContext.new.parseLines receiveTime (splitLines 13 10 (a.unread ++ data)).1 with
      | error e =>
          rw [receive_of_error hparse] at hreceive
          cases hreceive
      | ok r =>
          obtain ⟨ok, context, left⟩ := r
          rw [receive_of_ok hparse, take] at hreceive
          cases ok with
          | false =>
              rw [Wire.parseLines_false hparse] at hreceive
              cases hreceive
              exact .refused rfl (by simp [close, answer, hopened, hanswers])
          | true =>
              rw [if_pos rfl] at hreceive
              split at hreceive
              · cases hreceive
                refine .replied context.request ?_ ?_ ?_
                · rw [respond, if_pos (hclose _)]
                  rfl
                · rw [respond, if_pos (hclose _)]
                  simp [close, answer, hrequests]
                · rw [respond, if_pos (hclose _)]
                  simp [close, answer, hopened, hanswers]
              · cases hreceive
                exact .waiting hopened hrequests hanswers

theorem converse_once (hclose : ∀ req, (httpCallback req (HttpResponse.new true)).closeConnection = true)
    {cs : List (Bytes × Int)} (h : AnswersOnce httpCallback a)
    (hconverse : a.converse httpCallback cs = .ok a') : AnswersOnce httpCallback a' := by
  induction cs generalizing a with
  | nil =>
      cases hconverse
      exact h
  | cons chunk cs ih =>
      obtain ⟨a₁, hreceive, hrest⟩ := bind_eq_ok hconverse
      exact ih (receive_once hclose h hreceive) hrest

/-- Requests that arrive one by one on a connection that is kept alive. -/
theorem converse_texts {rs : List (WrittenRequest × Int)}
    (hkeep : ∀ req, (httpCallback req (HttpResponse.new true)).closeConnection = false)
    (hunread : a.unread = []) (hopened : a.opened = true) :
    a.converse httpCallback (rs.map fun r => (r.1.text, r.2)) =
      .ok { a with
        requests := a.requests ++ rs.map fun r => asReceived r.1 r.2
        answers := a.answers ++ rs.map fun r => reply httpCallback (asReceived r.1 r.2) } := by
  induction rs generalizing a with
  | nil =>
      simp only [List.map_nil, List.append_nil]
      rfl
  | cons r rs ih =>
      have hreceive : a.receive httpCallback (r.1.text ++ []) r.2 = .ok _ :=
        receive_text r.1 hunread [] r.2
      rw [List.append_nil, respond, if_neg (by rw [hkeep]; exact Bool.false_ne_true)] at hreceive
      rw [List.map_cons, converse_cons hreceive]
      -- the dialogue after the first request
      have hrest := ih (a := answer
        { a with unread := [], requests := a.requests ++ [asReceived r.1 r.2] }
        (reply httpCallback (asReceived r.1 r.2))) rfl hopened
      refine hrest.trans ?_
      simp [answer, hopened, hunread]

end Dialogue

section Answers

variable {httpCallback : HttpCallback} {fd : Int} {c : TcpConnection} {es : List Event} {x : Wire}

/-- `GET / HTTP/1.1`, without headers. -/
def rootText : WrittenRequest where
  method := .GET
  path := ascii "/"
  query := []
  version := .Http11
  headers := []
  method_known := by decide
  version_known := by decide
  path_clean := by decide
  query_mark := by decide
  query_clean := by decide
  names_clean := by decide
  values_clean := by decide

/-- A request arrives whole in the first chunk of a new connection, and the response of the callback
closes the connection.  In every run that follows, whatever else the peer sends and however the socket
takes the bytes, the callback got the request of the text, and the peer gets a part of the bytes of the
response; once nothing waits any more, it can read the response back from them, and there are no more,
for the connection is half closed behind them. -/
theorem served_request (hcb : Modest httpCallback) (hnew : TcpConnection.new fd = .ok c)
    (r : WrittenRequest) {rest : Bytes} {receiveTime : Int} {w : Answer}
    {resp : HttpResponse}
    (hresp : httpCallback (asReceived r receiveTime) (HttpResponse.new true) = resp)
    (hclean : resp.Clean) (hclose : resp.closeConnection = true)
    (hrun : Run (step httpCallback) (Wire.start c.connectEstablished.1)
      (.chunk (r.text ++ rest) receiveTime w :: es) x) :
    x.requests.head? = some (asReceived r receiveTime) ∧
      accepted x.out.trace <+: resp.pieces.flatten ∧
      (x.out.conn.outputBuffer.readable = [] →
        HttpResponse.decode (accepted x.out.trace) = some resp ∧
          ∃ pre, .shutdownWrite ∉ pre ∧ x.out.trace = pre ++ [.shutdownWrite]) := by
  obtain ⟨a, hconverse, h⟩ := run_serves hcb (serves_start hnew) hrun
  have hreceive : Dialogue.start.receive httpCallback (r.text ++ rest) receiveTime = .ok _ :=
    Dialogue.receive_text r rfl rest receiveTime
  have hchunks : chunks (.chunk (r.text ++ rest) receiveTime w :: es) =
      (r.text ++ rest, receiveTime) :: chunks es := rfl
  rw [hchunks, Dialogue.converse_cons hreceive, Dialogue.respond, hresp, if_pos hclose] at hconverse
  obtain ⟨hclosed, hanswers, hrequests⟩ := Dialogue.converse_closed rfl hconverse
  have hreply : Dialogue.reply httpCallback (asReceived r receiveTime) = resp.pieces.flatten := by
    rw [Dialogue.reply, hresp]
  have hstream : accepted x.out.trace ++ x.out.conn.outputBuffer.readable = resp.pieces.flatten := by
    rw [h.stream.stream, h.sent, hanswers, ← hreply]
    simp [Dialogue.close, Dialogue.answer, Dialogue.start]
  refine ⟨?_, ⟨_, hstream⟩, fun hdone => ⟨?_, h.halfClosed hclosed hdone⟩⟩
  · obtain ⟨later, hlater⟩ := hrequests
    rw [h.requests, ← hlater]
    rfl
  · rw [hdone, List.append_nil] at hstream
    rw [hstream]
    exact HttpResponse.decode_bytes hclean

set_option maxRecDepth 20000 in
/-- The socket takes the response in three parts. -/
theorem served_request_root :
    ∃ c x, TcpConnection.new 5 = .ok c ∧
      Run (step defaultHttpCallback) (Wire.start c.connectEstablished.1)
        [.chunk (rootText.text ++ ascii "G") 7 (upTo 20), .writable (upTo 20), .writable (upTo 20)] x ∧
      x.requests.head? = some (asReceived rootText 7) ∧
      HttpResponse.decode (accepted x.out.trace) =
        some (defaultHttpCallback HttpRequest.new (HttpResponse.new true)) ∧
      x.out.trace.getLast? = some .shutdownWrite := by
  obtain ⟨c, hc⟩ : ∃ c, TcpConnection.new 5 = .ok c := ⟨_, rfl⟩
  obtain ⟨x, hexec, hdone⟩ : ∃ x,
      exec (step defaultHttpCallback) (Wire.start c.connectEstablished.1)
        [.chunk (rootText.text ++ ascii "G") 7 (upTo 20), .writable (upTo 20), .writable (upTo 20)] =
        some x ∧ x.out.conn.outputBuffer.readable = [] := by
    cases hc
    exact ⟨_, rfl, rfl⟩
  have hrun := run_of_exec hexec
  have hresp : defaultHttpCallback (asReceived rootText 7) (HttpResponse.new true) =
      defaultHttpCallback HttpRequest.new (HttpResponse.new true) := rfl
  obtain ⟨hhead, -, hend⟩ := served_request modest_defaultHttpCallback hc rootText hresp
    ⟨by decide, by decide, by decide, by decide⟩ rfl hrun
  obtain ⟨hdecode, pre, -, htrace⟩ := hend hdone
  exact ⟨c, x, hc, hrun, hhead, hdecode, by simp [htrace]⟩

/-- Requests arrive one by one on a new connection that the callback keeps alive.  The callback gets
each of them, in their order, and the socket gets the responses, in the same order. -/
theorem served_requests (hcb : Modest httpCallback) (hnew : TcpConnection.new fd = .ok c)
    (hkeep : ∀ req, (httpCallback req (HttpResponse.new true)).closeConnection = false)
    {rs : List (WrittenRequest × Int)} (hes : chunks es = rs.map fun r => (r.1.text, r.2))
    (hrun : Run (step httpCallback) (Wire.start c.connectEstablished.1) es x) :
    x.requests = rs.map (fun r => asReceived r.1 r.2) ∧
      accepted x.out.trace ++ x.out.conn.outputBuffer.readable =
        (rs.map fun r => Dialogue.reply httpCallback (asReceived r.1 r.2)).flatten ∧
      .shutdownWrite ∉ x.out.trace := by
  obtain ⟨a, hconverse, h⟩ := run_serves hcb (serves_start hnew) hrun
  rw [hes, Dialogue.converse_texts hkeep rfl rfl] at hconverse
  cases hconverse
  refine ⟨h.requests, ?_, ?_⟩
  · rw [h.stream.stream, h.sent]
    rfl
  · cases h.stream.phase with
    | opened _ hno => exact hno
    | closing _ hstate _ _ _ =>
        have hconnected := h.opened.2 rfl
        rw [hstate] at hconnected
        cases hconnected

/-- A callback that keeps the connection. -/
def greet : HttpCallback := fun _ resp =>
  { resp with
    statusCode := .k200_ok
    statusMsg := ascii "OK"
    closeConnection := false
    body := ascii "hi" }

theorem modest_greet : Modest greet := by
  intro req
  have hshort : (Dialogue.reply greet HttpRequest.new).length < 2 ^ 31 := by decide
  exact hshort

set_option maxRecDepth 20000 in
/-- The second request arrives while the socket has taken nothing of the first response yet. -/
theorem served_requests_two :
    ∃ c x, TcpConnection.new 5 = .ok c ∧
      Run (step greet) (Wire.start c.connectEstablished.1)
        [.chunk rootText.text 7 (upTo 0), .chunk rootText.text 8 (upTo 0), .writable (upTo 50)] x ∧
      x.requests = [asReceived rootText 7, asReceived rootText 8] ∧ .shutdownWrite ∉ x.out.trace := by
  obtain ⟨c, hc⟩ : ∃ c, TcpConnection.new 5 = .ok c := ⟨_, rfl⟩
  obtain ⟨x, hexec⟩ : ∃ x, exec (step greet) (Wire.start c.connectEstablished.1)
      [.chunk rootText.text 7 (upTo 0), .chunk rootText.text 8 (upTo 0), .writable (upTo 50)] =
        some x := by
    cases hc
    exact ⟨_, rfl⟩
  have hrun := run_of_exec hexec
  have hes : chunks [.chunk rootText.text 7 (upTo 0), .chunk rootText.text 8 (upTo 0),
      .writable (upTo 50)] = [(rootText, 7), (rootText, 8)].map fun r => (r.1.text, r.2) := rfl
  obtain ⟨hrequests, -, hopen⟩ := served_requests modest_greet hc (fun _ => rfl) hes hrun
  exact ⟨c, x, hc, hrun, hrequests, hopen⟩

end Answers

end HttpServer
end MyServer
end MyCppCode
