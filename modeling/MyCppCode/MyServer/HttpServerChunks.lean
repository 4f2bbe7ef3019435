import MyCppCode.MyServer.HttpServer

/-!
# HttpServerChunks — a request that arrives in several chunks

TCP may cut a request anywhere.  `onMessage` starts a new context for every chunk: it takes the lines
that a chunk completes for the beginning of a request, answers with the 400 line when there is none,
and keeps nothing but the unfinished line.  So the chunks are treated as the whole request would be
exactly when every chunk begins with a request line and the last of them repeats the request.
-/

namespace MyCppCode
namespace MyServer

open Foundation

namespace HttpServer

/-! ## Requests and chunks -/

/-- A complete request: an accepted request line, header lines with a colon, and an empty line. -/
structure WellFormedRequest where
  line : Bytes
  headerLines : List Bytes
  line_whole : Unterminated 13 10 line
  line_accepted : HttpRequest.acceptable line = true
  headerLines_whole : ∀ l ∈ headerLines, Unterminated 13 10 l
  headerLines_colon : ∀ l ∈ headerLines, (58 : UInt8) ∈ l

def WellFormedRequest.bytes (r : WellFormedRequest) : Bytes :=
  joinLines 13 10 (r.line :: r.headerLines ++ [[]])

/-- The bytes of successive chunks. -/
def received (ds : List Delivery) : Bytes :=
  ds.flatMap Delivery.data

/-- `::readv` delivers no more than `readFd` has room for. -/
def Arrives (httpCallback : HttpCallback) (s : Session) : List Delivery → Prop
  | [] => True
  | d :: ds =>
      d.data.length ≤ s.conn.inputBuffer.readvCapacity ∧
        ∀ s', handleRead httpCallback d s = .ok () s' → Arrives httpCallback s' ds

/-- The HTTP callback was called once, with the fields of the same request, and the same messages were
handed to the connection. -/
def BehavesAs (s s' : Session) : Prop :=
  ∃ req req', s.requests = [req] ∧ s'.requests = [req'] ∧ req.SameFields req' ∧ s.handed = s'.handed

/-- The lines that each chunk completes, behind an unfinished line `q`. -/
def completed : Bytes → List Delivery → List (List Bytes)
  | _, [] => []
  | q, d :: ds =>
      (splitLines 13 10 (q ++ d.data)).1 :: completed (splitLines 13 10 (q ++ d.data)).2 ds

/-- The lines begin with a request line. -/
def startsRequest : List Bytes → Bool
  | [] => false
  | l :: _ => HttpRequest.acceptable l

/-- Every chunk completes a request line first; the first line of the last chunk is the request line of
`r`, and every header name of `r` occurs behind it. -/
structure RepeatsRequest (r : WellFormedRequest) (ds : List Delivery) : Prop where
  starts : ∀ ls ∈ completed [] ds, startsRequest ls = true
  repeats : ∃ ls, (completed [] ds).getLast? = some (r.line :: ls) ∧
    HttpRequest.fieldNames r.headerLines ⊆ HttpRequest.fieldNames ls

/-! ## One chunk -/

variable (httpCallback : HttpCallback) {s : Session} {q : Bytes} {n : Nat} {d : Delivery}

/-- Nothing has happened yet but the unfinished line `q`, and there is room for `n` more bytes. -/
structure Pending (s : Session) (q : Bytes) (n : Nat) : Prop where
  connected : s.conn.state = .kConnected
  requests : s.requests = []
  handed : s.handed = []
  inv : s.conn.inputBuffer.Inv
  readable : s.conn.inputBuffer.readable = q
  room : s.conn.inputBuffer.writerIndex + n ≤ maxSize

/-- Reading a chunk, before `onMessage` looks at it. -/
theorem Pending.read (h : Pending s q (d.data.length + n)) (hne : d.data ≠ [])
    (hcap : d.data.length ≤ s.conn.inputBuffer.readvCapacity) :
    ∃ s₁, Pending s₁ (q ++ d.data) n ∧
      handleRead httpCallback d s = onMessage httpCallback d.receiveTime d.written s₁ := by
  have hroom := h.room
  obtain ⟨b, hinv, hread, hle, heq⟩ :=
    handleRead_eq httpCallback h.inv hne hcap (by omega)
  refine ⟨withInput s b, ⟨h.connected, h.requests, h.handed, hinv, ?_, ?_⟩, heq⟩
  · rw [← h.readable]
    exact hread
  · change b.writerIndex + n ≤ maxSize
    omega

variable (receiveTime : Int) (w : WriteResult) {l t : Bytes} {hs : List Bytes}

/-- The lines of a pending session. -/
theorem Pending.lines (h : Pending s q n) {ls : List Bytes} (hq : splitLines 13 10 q = (ls, t)) :
    s.conn.inputBuffer.lines = (ls, t) := by
  rw [Buffer.lines, h.readable, hq]

theorem Pending.unfinished (h : Pending s q n) (hq : (splitLines 13 10 q).1 = []) :
    [badRequest] <+: (final (onMessage httpCallback receiveTime w) s).handed := by
  have hlines : s.conn.inputBuffer.lines.1 = [] := by rw [Buffer.lines, h.readable, hq]
  have hbad := onMessage_unfinished httpCallback receiveTime w h.inv h.connected hlines
  rwa [h.handed, List.nil_append] at hbad

theorem Pending.rejected {ls : List Bytes} (h : Pending s q n)
    (hq : splitLines 13 10 q = (l :: ls, t)) (hl : HttpRequest.acceptable l = false) :
    onMessage httpCallback receiveTime w s = .error .diverges s :=
  onMessage_rejected httpCallback receiveTime w h.inv (h.lines hq) hl

theorem Pending.headers (h : Pending s q n) (hq : splitLines 13 10 q = (l :: hs, t))
    (hl : HttpRequest.acceptable l = true) (hcolon : ∀ h ∈ hs, (58 : UInt8) ∈ h) :
    ∃ s', Pending s' t n ∧ onMessage httpCallback receiveTime w s = .ok () s' := by
  obtain ⟨b, hleaves, heq⟩ :=
    onMessage_headers httpCallback receiveTime w h.inv (h.lines hq) hl hcolon
  refine ⟨withInput s b, ?_, heq⟩
  exact ⟨h.connected, h.requests, h.handed, hleaves.inv, hleaves.readable_eq,
    le_trans (Nat.add_le_add_right hleaves.writer_le n) h.room⟩

theorem Pending.complete (h : Pending s q n) (hq : splitLines 13 10 q = (l :: (hs ++ [[]]), t))
    (hl : HttpRequest.acceptable l = true) (hcolon : ∀ h ∈ hs, (58 : UInt8) ∈ h) :
    (final (onMessage httpCallback receiveTime w) s).requests =
        [HttpRequest.ofLines receiveTime l hs] ∧
      (final (onMessage httpCallback receiveTime w) s).handed =
        response httpCallback (HttpRequest.ofLines receiveTime l hs) := by
  obtain ⟨b, -, heq⟩ := onMessage_complete httpCallback receiveTime w h.inv (h.lines hq) hl hcolon
  obtain ⟨hrequests, hhanded⟩ := final_onRequest httpCallback (s := withInput s b) h.connected
    (HttpRequest.ofLines receiveTime l hs) w
  rw [final_congr heq, hrequests, hhanded]
  exact ⟨by simp [withInput, h.requests], by simp [withInput, h.handed]⟩

/-! ## All chunks -/

/-- The chunks of a request were all taken for beginnings of a request, and the last one was answered
as the request that it repeats. -/
structure Answered (httpCallback : HttpCallback) (q : Bytes) (ds : List Delivery)
    (receiveTime : Int) (body : List Bytes) (s : Session) : Prop where
  starts : ∀ ls ∈ completed q ds, startsRequest ls = true
  repeats : ∃ front l hs, body = front ++ l :: hs ∧ HttpRequest.acceptable l = true ∧
    (completed q ds).getLast? = some (l :: (hs ++ [[]])) ∧
    s.requests = [HttpRequest.ofLines receiveTime l hs] ∧
    s.handed = response httpCallback (HttpRequest.ofLines receiveTime l hs)

/-- Some chunk was not taken for the beginning of a request: the callback was never called, or the 400
line was sent. -/
structure Refused (q : Bytes) (ds : List Delivery) (s : Session) : Prop where
  stops : ∃ ls ∈ completed q ds, startsRequest ls = false
  refused : s.requests = [] ∨ [badRequest] <+: s.handed

section Prepend

variable {httpCallback} {g : List Bytes} {t : Bytes} {ds : List Delivery}

theorem completed_cons (hsplit : splitLines 13 10 (q ++ d.data) = (g, t)) :
    completed q (d :: ds) = g :: completed t ds := by
  rw [completed, hsplit]

theorem Answered.prepend {receiveTime : Int} {body : List Bytes}
    (h : Answered httpCallback t ds receiveTime body s)
    (hsplit : splitLines 13 10 (q ++ d.data) = (g, t)) (hg : startsRequest g = true) :
    Answered httpCallback q (d :: ds) receiveTime (g ++ body) s := by
  obtain ⟨front, l, hs, hbody, hl, hlast, hout⟩ := h.repeats
  refine ⟨?_, g ++ front, l, hs, ?_, hl, ?_, hout⟩
  · rw [completed_cons hsplit]
    exact List.forall_mem_cons.2 ⟨hg, h.starts⟩
  · rw [hbody, List.append_assoc]
  · rw [completed_cons hsplit, List.getLast?_cons, hlast]
    rfl

theorem Refused.prepend (h : Refused t ds s)
    (hsplit : splitLines 13 10 (q ++ d.data) = (g, t)) : Refused q (d :: ds) s := by
  obtain ⟨ls, hls, hstop⟩ := h.stops
  refine ⟨⟨ls, ?_, hstop⟩, h.refused⟩
  rw [completed_cons hsplit]
  exact List.mem_cons_of_mem _ hls

theorem Refused.here (hsplit : splitLines 13 10 (q ++ d.data) = (g, t))
    (hg : startsRequest g = false) (h : s.requests = [] ∨ [badRequest] <+: s.handed) :
    Refused q (d :: ds) s := by
  refine ⟨⟨g, ?_, hg⟩, h⟩
  rw [completed_cons hsplit]
  exact List.mem_cons_self

end Prepend

theorem unterminated_concat {body : List Bytes}
    (hwhole : ∀ l ∈ body, Unterminated (13 : UInt8) 10 l) :
    ∀ l ∈ body ++ [[]], Unterminated (13 : UInt8) 10 l := by
  intro l hl
  rcases List.mem_append.1 hl with hl | hl
  · exact hwhole l hl
  · rw [List.mem_singleton.1 hl]
    exact unterminated_nil

/-- The last chunk: `body` are the lines that are still to be completed, but for the empty one. -/
theorem last_spec {body : List Bytes} (h : Pending s q d.data.length) (hne : d.data ≠ [])
    (hcap : d.data.length ≤ s.conn.inputBuffer.readvCapacity)
    (hbytes : q ++ d.data = joinLines 13 10 (body ++ [[]]))
    (hwhole : ∀ l ∈ body, Unterminated 13 10 l) (hcolon : ∀ l ∈ body.tail, (58 : UInt8) ∈ l) :
    Answered httpCallback q [d] d.receiveTime body (final (handleRead httpCallback d) s) ∨
      Refused q [d] (final (handleRead httpCallback d) s) := by
  obtain ⟨s₁, hp, heq⟩ := Pending.read httpCallback (n := 0) h hne hcap
  have hsplit : splitLines 13 10 (q ++ d.data) = (body ++ [[]], []) := by
    have hjoin := splitLines_join (by decide) (unterminated_concat hwhole) []
    simpa [hbytes, splitLines] using hjoin
  rw [final_congr heq]
  cases body with
  | nil =>
      -- The chunk completes the empty line alone, and that is no request line.
      right
      refine Refused.here hsplit rfl (Or.inl ?_)
      rw [final_of_error (hp.rejected httpCallback d.receiveTime d.written hsplit rfl)]
      exact hp.requests
  | cons l hs =>
      cases hl : HttpRequest.acceptable l with
      | true =>
          left
          have hdone : completed q [d] = [l :: (hs ++ [[]])] := completed_cons hsplit
          refine ⟨by simpa [hdone, startsRequest] using hl, [], l, hs, rfl, hl, by simp [hdone], ?_⟩
          exact hp.complete httpCallback d.receiveTime d.written hsplit hl hcolon
      | false =>
          right
          refine Refused.here hsplit hl (Or.inl ?_)
          rw [final_of_error (hp.rejected httpCallback d.receiveTime d.written hsplit hl)]
          exact hp.requests

theorem received_cons (d : Delivery) (ds : List Delivery) :
    received (d :: ds) = d.data ++ received ds := rfl

/-- The lines of a chunk that is not the last, and the lines that are still to be completed. -/
theorem body_of_chunk {body : List Bytes} {u v : Bytes} (hv : v ≠ [])
    (hbytes : u ++ v = joinLines 13 10 (body ++ [[]]))
    (hwhole : ∀ l ∈ body, Unterminated (13 : UInt8) 10 l) :
    ∃ body', body = (splitLines 13 10 u).1 ++ body' ∧
      (splitLines 13 10 u).2 ++ v = joinLines 13 10 (body' ++ [[]]) := by
  obtain ⟨ls', hls, hrest⟩ := splitLines_prefix (by decide) (unterminated_concat hwhole) hbytes
  rcases List.eq_nil_or_concat ls' with rfl | ⟨body', last, rfl⟩
  · simp [hv] at hrest
  · rw [List.concat_eq_append, ← List.append_assoc] at hls
    obtain ⟨hbody, hlast⟩ := List.append_inj' hls rfl
    obtain rfl : [] = last := by simpa using hlast
    exact ⟨body', hbody, by simpa using hrest⟩

/-- The chunks of a request, from a session in which nothing has happened yet. -/
theorem deliver_spec {ds : List Delivery} {body : List Bytes}
    (h : Pending s q (received (ds ++ [d])).length) (hne : ∀ d' ∈ ds ++ [d], d'.data ≠ [])
    (harrives : Arrives httpCallback s (ds ++ [d]))
    (hbytes : q ++ received (ds ++ [d]) = joinLines 13 10 (body ++ [[]]))
    (hwhole : ∀ l ∈ body, Unterminated (13 : UInt8) 10 l)
    (hcolon : ∀ l ∈ body.tail, (58 : UInt8) ∈ l) :
    Answered httpCallback q (ds ++ [d]) d.receiveTime body
        (final (deliver httpCallback (ds ++ [d])) s) ∨
      Refused q (ds ++ [d]) (final (deliver httpCallback (ds ++ [d])) s) := by
  induction ds generalizing s q body with
  | nil =>
      have hlast : final (deliver httpCallback [d]) s = final (handleRead httpCallback d) s :=
        final_bind_pure (handleRead httpCallback d) s
      have hdata : received [d] = d.data := by simp [received]
      simp only [List.nil_append, hdata] at h hbytes
      rw [List.nil_append, hlast]
      exact last_spec httpCallback h (hne d (by simp)) harrives.1 hbytes hwhole hcolon
  | cons d₁ ds ih =>
      have hd₁ : d₁.data ≠ [] := hne d₁ (by simp)
      have hv : received (ds ++ [d]) ≠ [] := by
        simp [received, hne d (by simp)]
      rw [List.cons_append, received_cons] at h hbytes
      rw [List.length_append] at h
      rw [← List.append_assoc] at hbytes
      obtain ⟨s₁, hp, heq⟩ := Pending.read httpCallback h hd₁ harrives.1
      obtain ⟨body', hbody, hrest⟩ := body_of_chunk hv hbytes hwhole
      cases hsplit : splitLines 13 10 (q ++ d₁.data) with
      | mk g t =>
          rw [hsplit] at hbody hrest
          have hrun : deliver httpCallback (d₁ :: ds ++ [d]) =
              (do handleRead httpCallback d₁; deliver httpCallback (ds ++ [d])) := rfl
          rw [hrun]
          cases g with
          | nil =>
              have hbad := hp.unfinished httpCallback d₁.receiveTime d₁.written (by rw [hsplit])
              rw [← final_congr heq] at hbad
              exact Or.inr (Refused.here hsplit rfl (Or.inr (hbad.trans
                (Grows.bind_final (fun _ => grows_deliver httpCallback (ds ++ [d])) s))))
          | cons l gs =>
              cases hl : HttpRequest.acceptable l with
              | false =>
                  have hstop := hp.rejected httpCallback d₁.receiveTime d₁.written hsplit hl
                  rw [← heq] at hstop
                  rw [final_bind_error hstop]
                  exact Or.inr (Refused.here hsplit hl (Or.inl hp.requests))
              | true =>
                  have htail : body.tail = gs ++ body' := by rw [hbody]; rfl
                  rw [htail] at hcolon
                  obtain ⟨s', hp', heq'⟩ := hp.headers httpCallback d₁.receiveTime d₁.written hsplit hl
                    fun h' hh' => hcolon h' (List.mem_append_left _ hh')
                  rw [← heq] at heq'
                  rw [final_bind_ok heq', hbody]
                  have hih := ih hp' (fun d' hd' => hne d' (List.mem_cons_of_mem _ hd'))
                    (harrives.2 s' heq') hrest
                    (fun l' hl' => hwhole l' (by rw [hbody]; exact List.mem_append_right _ hl'))
                    (fun l' hl' => hcolon l' (List.mem_append_right _ (List.mem_of_mem_tail hl')))
                  exact hih.imp (fun h => h.prepend hsplit hl) (fun h => h.prepend hsplit)

/-! ## The whole request -/

/-- A connection between two requests: connected, and nothing in the input buffer. -/
structure Idle (c : TcpConnection) : Prop where
  connected : c.state = .kConnected
  inv : c.inputBuffer.Inv
  reader : c.inputBuffer.readerIndex = Buffer.kCheapPrepend
  writer : c.inputBuffer.writerIndex = Buffer.kCheapPrepend

theorem idle_connectEstablished {fd : Int} {c : TcpConnection} (h : TcpConnection.new fd = .ok c) :
    Idle c.connectEstablished.1 := by
  obtain ⟨b, hb, h⟩ := bind_eq_ok h
  obtain ⟨b', -, h⟩ := bind_eq_ok h
  cases h
  obtain ⟨-, -, hr, hw⟩ := Buffer.new_eq _ hb
  exact ⟨rfl, (Buffer.new_simulates (by decide) hb).1, hr, hw⟩

/-- A buffer that holds `n` bytes shows that a vector can. -/
theorem length_readable_le {b : Buffer} (h : b.Inv) :
    Buffer.kCheapPrepend + b.readable.length ≤ maxSize := by
  have h₁ := h.cheapPrepend_le
  have h₂ := h.reader_le
  have h₃ := h.writer_le
  have h₄ := h.size_le
  rw [h.length_readable, h.readableBytes_eq]
  omega

theorem Idle.pending {c : TcpConnection} (h : Idle c) (hn : Buffer.kCheapPrepend + n ≤ maxSize) :
    Pending (Session.new c) [] n := by
  refine ⟨h.connected, rfl, rfl, h.inv, ?_, ?_⟩
  · simp [Session.new, Buffer.readable, h.reader, h.writer]
  · simpa [Session.new, h.writer] using hn

/-- The request in one piece: the callback is called with it, and the response is handed over. -/
theorem whole_spec (r : WellFormedRequest) {c : TcpConnection} (hc : Idle c) {b : Buffer} (hb : b.Inv)
    (hr : b.readable = r.bytes) :
    (final (onMessage httpCallback receiveTime w) (withInput (Session.new c) b)).requests =
        [HttpRequest.ofLines receiveTime r.line r.headerLines] ∧
      (final (onMessage httpCallback receiveTime w) (withInput (Session.new c) b)).handed =
        response httpCallback (HttpRequest.ofLines receiveTime r.line r.headerLines) := by
  have hp : Pending (withInput (Session.new c) b) r.bytes 0 :=
    ⟨hc.connected, rfl, rfl, hb, hr, le_trans hb.writer_le hb.size_le⟩
  have hwhole : ∀ l ∈ r.line :: r.headerLines, Unterminated (13 : UInt8) 10 l :=
    List.forall_mem_cons.2 ⟨r.line_whole, r.headerLines_whole⟩
  have hsplit : splitLines 13 10 r.bytes = (r.line :: (r.headerLines ++ [[]]), []) := by
    have hjoin := splitLines_join (by decide) (unterminated_concat hwhole) []
    simpa [WellFormedRequest.bytes, splitLines] using hjoin
  exact hp.complete httpCallback receiveTime w hsplit r.line_accepted r.headerLines_colon

/-- What the chunks of a request do to an idle connection. -/
theorem chunks_spec (r : WellFormedRequest) {c : TcpConnection} (hc : Idle c) {ds : List Delivery}
    (hbytes : received (ds ++ [d]) = r.bytes) (hne : ∀ d' ∈ ds ++ [d], d'.data ≠ [])
    (harrives : Arrives httpCallback (Session.new c) (ds ++ [d]))
    (hmax : Buffer.kCheapPrepend + r.bytes.length ≤ maxSize) :
    Answered httpCallback [] (ds ++ [d]) d.receiveTime (r.line :: r.headerLines)
        (final (deliver httpCallback (ds ++ [d])) (Session.new c)) ∨
      Refused [] (ds ++ [d]) (final (deliver httpCallback (ds ++ [d])) (Session.new c)) := by
  have hp : Pending (Session.new c) [] (received (ds ++ [d])).length := by
    rw [hbytes]
    exact hc.pending hmax
  exact deliver_spec httpCallback hp hne harrives hbytes
    (List.forall_mem_cons.2 ⟨r.line_whole, r.headerLines_whole⟩) r.headerLines_colon

theorem Refused.not_behavesAs {ds : List Delivery} {s s' : Session} (h : Refused q ds s)
    {req : HttpRequest} (hs' : s'.handed = response httpCallback req) : ¬ BehavesAs s s' := by
  rintro ⟨req₁, req₂, hreq, -, -, hhanded⟩
  rcases h.refused with hnone | hbad
  · rw [hnone] at hreq
    cases hreq
  · rw [hhanded, hs'] at hbad
    exact badRequest_not_prefix httpCallback req hbad

/-- A request that arrives in chunks is treated as if it had arrived in one, with the last chunk,
exactly when every chunk completes a request line first and the last chunk repeats the request. -/
theorem behavesAs_whole_iff (httpCallback : HttpCallback) (r : WellFormedRequest)
    {c : TcpConnection} (hc : Idle c) {ds : List Delivery} {d : Delivery}
    (hbytes : received (ds ++ [d]) = r.bytes) (hne : ∀ d' ∈ ds ++ [d], d'.data ≠ [])
    (harrives : Arrives httpCallback (Session.new c) (ds ++ [d]))
    {b : Buffer} (hb : b.Inv) (hr : b.readable = r.bytes) (w : WriteResult) :
    BehavesAs (final (deliver httpCallback (ds ++ [d])) (Session.new c))
        (final (onMessage httpCallback d.receiveTime w) (withInput (Session.new c) b)) ↔
      RepeatsRequest r (ds ++ [d]) := by
  have hmax := length_readable_le hb
  rw [hr] at hmax
  obtain ⟨hrequests, hhanded⟩ := whole_spec httpCallback d.receiveTime w r hc hb hr
  rcases chunks_spec httpCallback r hc hbytes hne harrives hmax with hans | href
  · obtain ⟨front, l, hs, hbody, hl, hlast, hreq, hout⟩ := hans.repeats
    obtain ⟨front', hfront⟩ : ∃ front', r.headerLines = front' ++ hs := by
      cases front with
      | nil => exact ⟨[], (List.cons.inj hbody).2⟩
      | cons x front => exact ⟨front ++ [l], by rw [(List.cons.inj hbody).2]; simp⟩
    have hsame := HttpRequest.sameFields_ofLines_iff hl r.line_accepted d.receiveTime d.receiveTime
      front' hs
    have hnames : HttpRequest.fieldNames (hs ++ [[]]) = HttpRequest.fieldNames hs := by
      simp [HttpRequest.fieldNames, cutAt]
    rw [← hfront] at hsame
    constructor
    · rintro ⟨req₁, req₂, hreq₁, hreq₂, hfields, -⟩
      rw [hreq] at hreq₁
      rw [hrequests] at hreq₂
      cases hreq₁
      cases hreq₂
      obtain ⟨rfl, hsub⟩ := hsame.1 hfields
      refine ⟨hans.starts, hs ++ [[]], hlast, ?_⟩
      rw [hnames, hfront, HttpRequest.fieldNames_append]
      exact List.append_subset.2 ⟨hsub, List.Subset.refl _⟩
    · rintro ⟨-, ls, hls, hsub⟩
      rw [hlast, Option.some.injEq, List.cons.injEq] at hls
      obtain ⟨rfl, rfl⟩ := hls
      rw [hnames, hfront, HttpRequest.fieldNames_append] at hsub
      have hfields := hsame.2 ⟨rfl, (List.append_subset.1 hsub).1⟩
      have htime := HttpRequest.ofLines_receiveTime d.receiveTime r.line
      refine ⟨_, _, hreq, hrequests, hfields, ?_⟩
      rw [hout, hhanded, hfields.eq ((htime hs).trans (htime r.headerLines).symm)]
  · constructor
    · intro h
      exact absurd h (href.not_behavesAs httpCallback hhanded)
    · intro h
      obtain ⟨ls, hls, hstop⟩ := href.stops
      rw [h.starts ls hls] at hstop
      cases hstop

/-! ## Two requests in two chunks -/

/-- `readFd` always has room for as much as its stack buffer holds. -/
theorem arrives_of_length_le {ds : List Delivery}
    (h : ∀ d ∈ ds, d.data.length ≤ Buffer.extrabufSize) (s : Session) :
    Arrives httpCallback s ds := by
  induction ds generalizing s with
  | nil => trivial
  | cons d ds ih =>
      refine ⟨le_trans (h d (by simp)) ?_, fun s' _ => ih (fun d' hd' => h d' (by simp [hd'])) s'⟩
      unfold Buffer.readvCapacity
      split <;> omega

/-- A request whose first header line looks like its request line, and so does the second. -/
def repeatedRequest : WellFormedRequest where
  line := ascii "GET /: HTTP/1.1"
  headerLines := [ascii "GET /: HTTP/1.1", ascii "GET /: HTTP/1.1"]
  line_whole := by decide
  line_accepted := by decide
  headerLines_whole := by decide
  headerLines_colon := by decide

def rootRequest : WellFormedRequest where
  line := ascii "GET / HTTP/1.1"
  headerLines := []
  line_whole := by decide
  line_accepted := by decide
  headerLines_whole := by decide
  headerLines_colon := by decide

/-- A chunk at time `0`; the socket takes nothing of an answer yet. -/
def chunk (text : String) : Delivery :=
  { data := ascii text
    receiveTime := 0
    written := .wrote 0 }

/-- The second chunk is the request once more, one header line shorter. -/
theorem behavesAs_whole_repeated :
    ∃ c, TcpConnection.new 5 = .ok c ∧
      BehavesAs
        (final
          (deliver defaultHttpCallback ([chunk "GET /: HTTP/1.1\r\n"] ++
            [chunk "GET /: HTTP/1.1\r\nGET /: HTTP/1.1\r\n\r\n"]))
          (Session.new c.connectEstablished.1))
        (final (onMessage defaultHttpCallback 0 (.wrote 0))
          (withInput (Session.new c.connectEstablished.1) (Buffer.holding repeatedRequest.bytes))) := by
  obtain ⟨c, hc⟩ : ∃ c, TcpConnection.new 5 = .ok c := ⟨_, rfl⟩
  obtain ⟨hinv, hread⟩ := Buffer.holding_spec repeatedRequest.bytes (by decide)
  refine ⟨c, hc, ?_⟩
  refine (behavesAs_whole_iff defaultHttpCallback repeatedRequest (idle_connectEstablished hc)
    (by decide) (by decide) (arrives_of_length_le _ (by decide) _) hinv hread (.wrote 0)).2 ?_
  exact ⟨by decide, _, rfl, by decide⟩

/-- A request that is cut behind its first byte: the server sends the 400 line. -/
theorem not_behavesAs_whole_cut :
    ∃ c, TcpConnection.new 5 = .ok c ∧
      received ([chunk "G"] ++ [chunk "ET / HTTP/1.1\r\n\r\n"]) = rootRequest.bytes ∧
      Arrives defaultHttpCallback (Session.new c.connectEstablished.1)
        ([chunk "G"] ++ [chunk "ET / HTTP/1.1\r\n\r\n"]) ∧
      ¬ BehavesAs
        (final (deliver defaultHttpCallback ([chunk "G"] ++ [chunk "ET / HTTP/1.1\r\n\r\n"]))
          (Session.new c.connectEstablished.1))
        (final (onMessage defaultHttpCallback 0 (.wrote 0))
          (withInput (Session.new c.connectEstablished.1) (Buffer.holding rootRequest.bytes))) := by
  obtain ⟨c, hc⟩ : ∃ c, TcpConnection.new 5 = .ok c := ⟨_, rfl⟩
  have hidle := idle_connectEstablished hc
  have hbytes : received ([chunk "G"] ++ [chunk "ET / HTTP/1.1\r\n\r\n"]) = rootRequest.bytes := by
    decide
  have harrives : Arrives defaultHttpCallback (Session.new c.connectEstablished.1)
      ([chunk "G"] ++ [chunk "ET / HTTP/1.1\r\n\r\n"]) :=
    arrives_of_length_le _ (by decide) _
  obtain ⟨hinv, hread⟩ := Buffer.holding_spec rootRequest.bytes (by decide)
  obtain ⟨-, hhanded⟩ :=
    whole_spec defaultHttpCallback 0 (.wrote 0) rootRequest hidle hinv hread
  refine ⟨c, hc, hbytes, harrives, ?_⟩
  rcases chunks_spec defaultHttpCallback rootRequest hidle hbytes (by decide) harrives (by decide) with
    hans | href
  · -- The first chunk completes no line.
    have hstart := hans.starts [] (by decide)
    cases hstart
  · exact href.not_behavesAs defaultHttpCallback hhanded

end HttpServer

end MyServer
end MyCppCode
