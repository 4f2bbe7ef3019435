import Mathlib.Data.List.Induction
import MyCppCode.MyServer.HttpContext

/-!
# HttpContextGrammar — what `parseRequest` accepts, and what it reads back

The first half compares the contents on which a fresh context gets everything with the grammar of a
request.  The parser ends the headers at the first line without a colon, empty or not, so the two agree
exactly on the contents where that line is empty.

The second half is a round trip: a request that is written out line by line is read back field by
field, and the bytes behind it stay in the buffer.
-/

namespace MyCppCode
namespace MyServer

open Foundation

namespace HttpContext

/-! ## The grammar of a request -/

/-- `content` begins with an accepted request line, header lines with a colon and an empty line;
`rest` follows. -/
structure BeginsRequest (content line : Bytes) (headerLines : List Bytes) (rest : Bytes) : Prop where
  content_eq : content = joinLines 13 10 (line :: headerLines ++ [[]]) ++ rest
  line_whole : Unterminated 13 10 line
  line_accepted : HttpRequest.acceptable line = true
  headerLines_whole : ∀ l ∈ headerLines, Unterminated 13 10 l
  headerLines_colon : ∀ l ∈ headerLines, (58 : UInt8) ∈ l

/-- The context has got everything exactly when the content begins with a request, and the buffer
keeps what follows it. -/
structure FollowsGrammar (content : Bytes) (ctx : HttpContext) (b' : Buffer) : Prop where
  gotAll : ctx.isGotAll = true ↔ ∃ line hs rest, BeginsRequest content line hs rest
  left : ∀ line hs rest, BeginsRequest content line hs rest → b'.readable = rest

/-- The line that ends the header section, if it is there. -/
def lastLine (content : Bytes) : Option Bytes :=
  (splitLines 13 10 content).1.tail.find? fun l => (58 : UInt8) ∉ l

variable {content line rest : Bytes} {hs : List Bytes}

/-- The lines of a content that begins with a request. -/
theorem BeginsRequest.splitLines_eq (h : BeginsRequest content line hs rest) :
    splitLines 13 10 content =
      (line :: (hs ++ [] :: (splitLines 13 10 rest).1), (splitLines 13 10 rest).2) := by
  have hwhole : ∀ l ∈ line :: hs ++ [[]], Unterminated (13 : UInt8) 10 l := by
    intro l hl
    simp only [List.cons_append, List.mem_cons, List.mem_append, List.not_mem_nil, or_false] at hl
    rcases hl with rfl | hl | rfl
    · exact h.line_whole
    · exact h.headerLines_whole l hl
    · exact unterminated_nil
  rw [h.content_eq, splitLines_join (by decide) hwhole]
  simp

/-- Every line of a content is whole. -/
theorem splitLines_whole (content : Bytes) :
    ∀ l ∈ (splitLines 13 10 content).1, Unterminated (13 : UInt8) 10 l := by
  generalize hls : (splitLines 13 10 content).1 = ls
  induction ls generalizing content with
  | nil => simp
  | cons l ls ih =>
      -- One line is taken off the front; the lines of the rest are those that remain.
      obtain ⟨hl, rest, -, hrest⟩ := splitLines_eq_cons (Prod.ext hls rfl :
        splitLines 13 10 content = (l :: ls, (splitLines 13 10 content).2))
      exact List.forall_mem_cons.2 ⟨hl, ih rest (by rw [hrest])⟩

/-- Lines of which the first is accepted and some later one has no colon, cut at that line. -/
theorem split_at_lastLine {ls : List Bytes} {l : Bytes}
    (h : ls.find? (fun l => (58 : UInt8) ∉ l) = some l) :
    ∃ hs left, ls = hs ++ l :: left ∧ (∀ h ∈ hs, (58 : UInt8) ∈ h) ∧ (58 : UInt8) ∉ l := by
  obtain ⟨hl, hs, left, hls, hhs⟩ := List.find?_eq_some_iff_append.1 h
  refine ⟨hs, left, hls, ?_, by simpa using hl⟩
  intro h' hh'
  simpa using hhs h' hh'

/-- In a content that begins with a request, the line that ends the headers is empty. -/
theorem BeginsRequest.lastLine_eq (h : BeginsRequest content line hs rest) :
    lastLine content = some [] := by
  have hskip : hs.find? (fun l => (58 : UInt8) ∉ l) = none := by
    refine List.find?_eq_none.2 fun l hl => ?_
    simpa using h.headerLines_colon l hl
  rw [lastLine, h.splitLines_eq, List.tail_cons, List.find?_append, hskip]
  rfl

/-- All header lines have a colon: the context waits for more. -/
theorem readHeaders_of_find_none {ls : List Bytes} (request : HttpRequest)
    (h : ls.find? (fun l => (58 : UInt8) ∉ l) = none) :
    (readHeaders request ls).1.isGotAll = false := by
  have hcolon : ∀ l ∈ ls, (58 : UInt8) ∈ l := by
    intro l hl
    simpa using List.find?_eq_none.1 h l hl
  rw [← List.append_nil ls, readHeaders_headerLines hcolon]
  rfl

/-- The header section ends at the first line without a colon. -/
theorem readHeaders_of_split {l : Bytes} (left : List Bytes) (request : HttpRequest)
    (hcolon : ∀ h ∈ hs, (58 : UInt8) ∈ h) (hl : (58 : UInt8) ∉ l) :
    (readHeaders request (hs ++ l :: left)).1.isGotAll = true ∧
      (readHeaders request (hs ++ l :: left)).2 = left := by
  rw [readHeaders_headerLines hcolon]
  simp [readHeaders, cutAt_eq_none_iff.2 hl, isGotAll]

/-- A call that returns found no line at all, or an accepted request line and read the headers. -/
theorem parseRequest_cases {b b' : Buffer} (hb : b.Inv) {receiveTime : Int} {ok : Bool}
    {ctx : HttpContext} (hparse : new.parseRequest b receiveTime = .ok (ok, ctx, b')) :
    (b.lines.1 = [] ∧ ctx.isGotAll = false) ∨
      ∃ l ls, b.lines.1 = l :: ls ∧ HttpRequest.acceptable l = true ∧
        ctx = (readHeaders (HttpRequest.ofLines receiveTime l []) ls).1 ∧
        b'.readable =
          joinLines 13 10 (readHeaders (HttpRequest.ofLines receiveTime l []) ls).2 ++ b.lines.2 := by
  have hspec := parseRequest_spec new hb receiveTime
  cases hls : b.lines.1 with
  | nil =>
      left
      rw [hls] at hspec
      obtain ⟨b₁, -, hresult⟩ := hspec
      rw [hresult] at hparse
      cases hparse
      exact ⟨rfl, rfl⟩
  | cons l ls =>
      right
      cases hl : HttpRequest.acceptable l with
      | true =>
          have haccept : new.parseLines receiveTime (l :: ([] ++ ls)) =
              .ok (true, readHeaders (HttpRequest.ofLines receiveTime l []) ls) :=
            parseLines_accepted receiveTime hl (List.forall_mem_nil _)
          rw [hls, ← List.nil_append ls, haccept] at hspec
          obtain ⟨b₁, hleaves, hresult⟩ := hspec
          rw [hresult] at hparse
          cases hparse
          exact ⟨l, ls, rfl, hl, rfl, hleaves.readable_eq⟩
      | false =>
          -- The loop does not return on a line that is no request line.
          have hreject : new.parseLines receiveTime (l :: ls) = .error .diverges := by
            have hfst : (HttpRequest.new.processRequestLine l).1 = false := hl
            simp [parseLines, new, hfst]
          rw [hls, hreject] at hspec
          rw [hspec.2.1] at hparse
          cases hparse

/-- Where no line ends the headers there is no request, and nothing was got. -/
theorem FollowsGrammar.of_none {ctx : HttpContext} {b' : Buffer} (hnone : lastLine content = none)
    (hgot : ctx.isGotAll = false) : FollowsGrammar content ctx b' := by
  have hno : ∀ line hs rest, ¬ BeginsRequest content line hs rest := by
    intro line hs rest h
    have hsome := h.lastLine_eq
    rw [hnone] at hsome
    cases hsome
  refine ⟨?_, fun line hs rest h => absurd h (hno line hs rest)⟩
  rw [hgot]
  exact ⟨fun h => (nomatch h), fun ⟨line, hs, rest, h⟩ => absurd h (hno line hs rest)⟩

/-- The lines of a request, and the bytes behind them. -/
theorem beginsRequest_of_lines {l : Bytes} {left : List Bytes} {t : Bytes}
    (hlines : splitLines 13 10 content = (l :: (hs ++ [] :: left), t))
    (hl : HttpRequest.acceptable l = true) (hcolon : ∀ h ∈ hs, (58 : UInt8) ∈ h) :
    BeginsRequest content l hs (joinLines 13 10 left ++ t) := by
  have hwhole := splitLines_whole content
  rw [hlines] at hwhole
  refine ⟨?_, hwhole l (by simp), hl, fun h hh => hwhole h (by simp [hh]), hcolon⟩
  have hjoin := join_splitLines (a := 13) (b := 10) content
  rw [hlines] at hjoin
  rw [← hjoin]
  simp

/-- On every content on which it returns, `parseRequest` follows the grammar exactly when the first line
without a colon behind the request line, if there is one, is empty. -/
theorem followsGrammar_iff {b b' : Buffer} (hb : b.Inv) {receiveTime : Int} {ok : Bool}
    {ctx : HttpContext} (hparse : new.parseRequest b receiveTime = .ok (ok, ctx, b')) :
    FollowsGrammar b.readable ctx b' ↔ ∀ l, lastLine b.readable = some l → l = [] := by
  rcases parseRequest_cases hb hparse with ⟨hnil, hgot⟩ | ⟨l, ls, hls, hl, rfl, hread⟩
  · have hnone : lastLine b.readable = none := by
      unfold Buffer.lines at hnil
      rw [lastLine, hnil]
      rfl
    simp [hnone, FollowsGrammar.of_none hnone hgot]
  · have hlast : lastLine b.readable = ls.find? fun l => (58 : UInt8) ∉ l := by
      unfold Buffer.lines at hls
      rw [lastLine, hls]
      rfl
    generalize HttpRequest.ofLines receiveTime l [] = request at hread ⊢
    cases hfind : ls.find? fun l => (58 : UInt8) ∉ l with
    | none =>
        rw [hfind] at hlast
        simp [hlast, FollowsGrammar.of_none hlast (readHeaders_of_find_none request hfind)]
    | some l' =>
        obtain ⟨hs, left, rfl, hcolon, hl'⟩ := split_at_lastLine hfind
        obtain ⟨hgot, hleft⟩ := readHeaders_of_split left request hcolon hl'
        rw [hleft] at hread
        rw [hfind] at hlast
        constructor
        · intro hfollows l₁ hl₁
          obtain ⟨line, hs₁, rest, h⟩ := hfollows.gotAll.1 hgot
          have hempty := h.lastLine_eq
          rw [hl₁] at hempty
          exact Option.some.inj hempty
        · intro hempty
          obtain rfl : l' = [] := hempty l' hlast
          have hlines : splitLines 13 10 b.readable = (l :: (hs ++ [] :: left), b.lines.2) :=
            Prod.ext hls rfl
          refine ⟨⟨fun _ => ⟨l, hs, _, beginsRequest_of_lines hlines hl hcolon⟩, fun _ => hgot⟩, ?_⟩
          intro line hs₁ rest h
          -- Two ways to cut the same lines at the first one without a colon.
          have hsame := h.splitLines_eq
          rw [hlines, Prod.mk.injEq, List.cons.injEq] at hsame
          obtain ⟨⟨-, hcut⟩, htail⟩ := hsame
          have hleft₁ := (readHeaders_of_split (splitLines 13 10 rest).1 request
            h.headerLines_colon hl').2
          rw [← hcut, hleft] at hleft₁
          rw [hread, hleft₁, htail]
          exact join_splitLines rest

/-- A request with one header, and bytes behind it. -/
theorem followsGrammar_request :
    ∃ ok ctx b',
      new.parseRequest (Buffer.holding (ascii "GET / HTTP/1.1\r\nHost: a\r\n\r\nGET")) 0 =
        .ok (ok, ctx, b') ∧
      FollowsGrammar (Buffer.holding (ascii "GET / HTTP/1.1\r\nHost: a\r\n\r\nGET")).readable ctx
        b' := by
  obtain ⟨hinv, hread⟩ :=
    Buffer.holding_spec (ascii "GET / HTTP/1.1\r\nHost: a\r\n\r\nGET") (by decide)
  obtain ⟨ok, ctx, b', hparse⟩ : ∃ ok ctx b',
      new.parseRequest (Buffer.holding (ascii "GET / HTTP/1.1\r\nHost: a\r\n\r\nGET")) 0 =
        .ok (ok, ctx, b') := ⟨_, _, _, rfl⟩
  refine ⟨ok, ctx, b', hparse, (followsGrammar_iff hinv hparse).2 ?_⟩
  have hlast : lastLine (ascii "GET / HTTP/1.1\r\nHost: a\r\n\r\nGET") = some [] := by decide
  intro l hl
  rw [hread, hlast] at hl
  exact (Option.some.inj hl).symm

/-- A line that is neither a header nor empty ends the headers: the request is taken for complete. -/
theorem not_followsGrammar_colonless :
    ∃ ok ctx b',
      new.parseRequest (Buffer.holding (ascii "GET / HTTP/1.1\r\nfoo\r\n")) 0 =
        .ok (ok, ctx, b') ∧
      ctx.isGotAll = true ∧
      ¬ FollowsGrammar (Buffer.holding (ascii "GET / HTTP/1.1\r\nfoo\r\n")).readable ctx b' := by
  obtain ⟨hinv, hread⟩ := Buffer.holding_spec (ascii "GET / HTTP/1.1\r\nfoo\r\n") (by decide)
  refine ⟨_, _, _, rfl, rfl, fun hfollows => ?_⟩
  have hlast : lastLine (ascii "GET / HTTP/1.1\r\nfoo\r\n") = some (ascii "foo") := by decide
  obtain ⟨line, hs, rest, h⟩ := hfollows.gotAll.1 rfl
  have hempty := h.lastLine_eq
  rw [hread, hlast] at hempty
  cases hempty

/-! ## A request written out -/

/-- There is no white space at either end. -/
def Trimmed (value : Bytes) : Prop :=
  (∀ c ∈ value.head?, isspace c = false) ∧ ∀ c ∈ value.getLast?, isspace c = false

instance (value : Bytes) : Decidable (Trimmed value) :=
  inferInstanceAs (Decidable (_ ∧ _))

/-- The parts of a request that a client may write. -/
structure WrittenRequest where
  method : Method
  path : Bytes
  query : Bytes
  version : Version
  headers : List (Bytes × Bytes)
  method_known : method ≠ .Invalid
  version_known : version ≠ .Unknown
  path_clean : (32 : UInt8) ∉ path ∧ (63 : UInt8) ∉ path ∧ Unterminated 13 10 path
  query_mark : query = [] ∨ query.head? = some 63
  query_clean : (32 : UInt8) ∉ query ∧ Unterminated 13 10 query
  names_clean : ∀ h ∈ headers, (58 : UInt8) ∉ h.1 ∧ Unterminated 13 10 h.1
  values_clean : ∀ h ∈ headers, Unterminated 13 10 h.2 ∧ Trimmed h.2

namespace WrittenRequest

/-- The fields of the request line. -/
def request (r : WrittenRequest) : HttpRequest :=
  { HttpRequest.new with
    method := r.method
    path := r.path
    query := r.query
    version := r.version }

/-- The request as it goes over the wire. -/
def text (r : WrittenRequest) : Bytes :=
  joinLines 13 10 (r.request.requestLine :: r.headers.map headerLine ++ [[]])

/-- The value of the last header of the name. -/
def lastValue (headers : List (Bytes × Bytes)) (name : Bytes) : Option Bytes :=
  (headers.reverse.find? (fun h => h.1 = name)).map Prod.snd

variable (r : WrittenRequest)

theorem methodString_clean {req : HttpRequest} (h : req.method ≠ .Invalid) :
    HttpRequest.methodOf req.methodString = req.method ∧ Unterminated 13 10 req.methodString := by
  unfold HttpRequest.methodString
  cases hm : req.method with
  | Invalid => exact absurd hm h
  | GET => decide
  | POST => decide
  | HEAD => decide
  | PUT => decide
  | DELETE => decide

theorem target_clean : (32 : UInt8) ∉ r.path ++ r.query ∧ Unterminated 13 10 (r.path ++ r.query) := by
  refine ⟨?_, ?_⟩
  · rw [List.mem_append, not_or]
    exact ⟨r.path_clean.1, r.query_clean.1⟩
  · rcases r.query_mark with hq | hq
    · rw [hq, List.append_nil]
      exact r.path_clean.2.2
    · -- The question mark keeps a carriage return of the path away from the query.
      obtain ⟨q, hq⟩ := List.head?_eq_some_iff.1 hq
      have hclean := r.query_clean.2
      rw [hq] at hclean ⊢
      exact Unterminated.append_cons (by decide) (by decide) r.path_clean.2.2 hclean.tail

theorem setTarget_target {req : HttpRequest} (hreq : req.query = []) :
    req.setTarget (r.path ++ r.query) = { req with path := r.path, query := r.query } := by
  unfold HttpRequest.setTarget
  rcases r.query_mark with hq | hq
  · rw [hq, List.append_nil, cutAt_eq_none_iff.2 r.path_clean.2.1, ← hreq]
  · obtain ⟨q, hq⟩ := List.head?_eq_some_iff.1 hq
    rw [hq, cutAt_append r.path_clean.2.1]

/-- The request line is accepted, and read back. -/
theorem processRequestLine_text :
    HttpRequest.new.processRequestLine r.request.requestLine = (true, r.request) := by
  have hreq : r.request.method ≠ .Invalid := r.method_known
  obtain ⟨hmethod, -⟩ := methodString_clean hreq
  have hknown : HttpRequest.methodOf r.request.methodString ≠ .Invalid := by
    rw [hmethod]
    exact hreq
  have hset : (HttpRequest.new.setMethod r.request.methodString).2.setTarget (r.path ++ r.query) =
      { HttpRequest.new with method := r.method, path := r.path, query := r.query } := by
    rw [setTarget_target r rfl, HttpRequest.setMethod, hmethod]
    rfl
  have htarget : (32 : UInt8) ∉ r.request.path ++ r.request.query := r.target_clean.1
  have hversion : r.request.version ≠ .Unknown := r.version_known
  unfold HttpRequest.requestLine
  rw [HttpRequest.processRequestLine_of_parts hknown htarget hversion]
  exact congrArg (fun req : HttpRequest => (true, { req with version := r.version })) hset

theorem requestLine_whole : Unterminated 13 10 r.request.requestLine := by
  have hversion : Unterminated (13 : UInt8) 10 (ascii "HTTP/1." ++ r.request.version.digit) := by
    cases r.request.version <;> decide
  have htail := Unterminated.append_cons (c := 32) (by decide) (by decide) r.target_clean.2 hversion
  exact Unterminated.append_cons (by decide) (by decide) (methodString_clean r.method_known).2 htail

/-! ### The headers -/

theorem headerLine_whole {h : Bytes × Bytes} (hh : h ∈ r.headers) :
    Unterminated 13 10 (headerLine h) := by
  have hvalue : Unterminated (13 : UInt8) 10 ([] ++ 32 :: h.2) :=
    Unterminated.append_cons (by decide) (by decide) unterminated_nil (r.values_clean h hh).1
  exact Unterminated.append_cons (by decide) (by decide) (r.names_clean h hh).2 hvalue

theorem dropWhile_isspace_of_head {value : Bytes} (h : ∀ c ∈ value.head?, isspace c = false) :
    value.dropWhile isspace = value := by
  cases value with
  | nil => rfl
  | cons c value => simp [h c rfl]

/-- The one space that is written in front of a value is all that is skipped. -/
theorem trim_space {value : Bytes} (h : Trimmed value) : trim (32 :: value) = value := by
  have hfront : (32 :: value).dropWhile isspace = value := by
    rw [List.dropWhile_cons_of_pos (by decide), dropWhile_isspace_of_head h.1]
  have hback : value.reverse.dropWhile isspace = value.reverse :=
    dropWhile_isspace_of_head fun c hc => h.2 c (by simpa using hc)
  rw [trim, hfront, hback, List.reverse_reverse]

/-- A header line stores its value under its name. -/
theorem addLine_headerLine {h : Bytes × Bytes} (hname : (58 : UInt8) ∉ h.1) (hvalue : Trimmed h.2)
    (req : HttpRequest) :
    (req.addLine (headerLine h)).headers = Function.update req.headers h.1 (some h.2) := by
  unfold HttpRequest.addLine headerLine
  rw [cutAt_append hname]
  simp only [HttpRequest.addHeader, trim_space hvalue]

/-- The header lines store the last value of each name. -/
theorem foldl_addLine_headerLines {hs : List (Bytes × Bytes)}
    (hnames : ∀ h ∈ hs, (58 : UInt8) ∉ h.1) (hvalues : ∀ h ∈ hs, Trimmed h.2) {req : HttpRequest}
    (hreq : ∀ name, req.headers name = none) (name : Bytes) :
    ((hs.map headerLine).foldl HttpRequest.addLine req).headers name = lastValue hs name := by
  -- The induction is from the last line, which decides about its own name.
  induction hs using List.reverseRecOn with
  | nil => exact hreq name
  | append_singleton hs h ih =>
      have ih := ih (fun h' hh' => hnames h' (by simp [hh'])) fun h' hh' => hvalues h' (by simp [hh'])
      rw [List.map_append, List.foldl_append, List.map_singleton, List.foldl_cons, List.foldl_nil,
        addLine_headerLine (hnames h (by simp)) (hvalues h (by simp))]
      unfold lastValue at ih ⊢
      rw [List.reverse_append, List.reverse_singleton, List.singleton_append]
      by_cases hname : h.1 = name
      · rw [List.find?_cons_of_pos (by simpa using hname), ← hname, Function.update_self]
        rfl
      · rw [List.find?_cons_of_neg (by simpa using hname), ← ih,
          Function.update_of_ne (Ne.symm hname)]

/-! ### The round trip -/

/-- The request that the lines of the text make. -/
theorem ofLines_text (receiveTime : Int) :
    HttpRequest.ofLines receiveTime r.request.requestLine (r.headers.map headerLine) =
      { r.request with receiveTime := receiveTime, headers := lastValue r.headers } := by
  have hheaders : ∀ name, ((r.headers.map headerLine).foldl HttpRequest.addLine
      { r.request with receiveTime := receiveTime }).headers name = lastValue r.headers name :=
    foldl_addLine_headerLines (fun h hh => (r.names_clean h hh).1)
      (fun h hh => (r.values_clean h hh).2) fun _ => rfl
  unfold HttpRequest.ofLines
  rw [processRequestLine_text, HttpRequest.foldl_addLine_eq, funext hheaders]

/-- A request with bytes behind it, in lines. -/
theorem beginsRequest_text (rest : Bytes) :
    BeginsRequest (r.text ++ rest) r.request.requestLine (r.headers.map headerLine) rest where
  content_eq := rfl
  line_whole := r.requestLine_whole
  line_accepted := by
    rw [HttpRequest.acceptable, processRequestLine_text]
  headerLines_whole := by
    intro l hl
    obtain ⟨h, hh, rfl⟩ := List.mem_map.1 hl
    exact r.headerLine_whole hh
  headerLines_colon := by
    intro l hl
    obtain ⟨h, -, rfl⟩ := List.mem_map.1 hl
    exact headerLine_colon h

end WrittenRequest

/-- A fresh context reads a written request back, every field of it, and leaves what follows. -/
theorem parseRequest_text (r : WrittenRequest) {b : Buffer} (hb : b.Inv) {rest : Bytes}
    (hread : b.readable = r.text ++ rest) (receiveTime : Int) :
    ∃ ctx b',
      new.parseRequest b receiveTime = .ok (true, ctx, b') ∧
      ctx.isGotAll = true ∧
      ctx.request =
        { r.request with
          receiveTime := receiveTime
          headers := WrittenRequest.lastValue r.headers } ∧
      b'.readable = rest := by
  have hbegins := r.beginsRequest_text rest
  have hlines := hbegins.splitLines_eq
  rw [← hread] at hlines
  change b.lines = _ at hlines
  have hparse : new.parseLines receiveTime (r.request.requestLine ::
      (r.headers.map headerLine ++ [] :: (splitLines 13 10 rest).1)) = .ok (true, _) :=
    parseLines_accepted receiveTime hbegins.line_accepted hbegins.headerLines_colon
  have hspec := parseRequest_spec new hb receiveTime
  rw [hlines, hparse, r.ofLines_text] at hspec
  obtain ⟨b', hleaves, hresult⟩ := hspec
  refine ⟨_, b', hresult, rfl, rfl, ?_⟩
  rw [hleaves.readable_eq]
  exact join_splitLines rest

set_option maxRecDepth 20000 in
/-- `DELETE /a?b HTTP/1.0` with a header given twice, and bytes behind it. -/
theorem parseRequest_text_repeated :
    ∃ r : WrittenRequest,
      r.text = ascii "DELETE /a?b HTTP/1.0\r\nX: 1\r\n: \r\nX: 2 3\r\n\r\n" ∧
      ∃ ctx b',
        new.parseRequest (Buffer.holding (r.text ++ ascii "GET")) 7 = .ok (true, ctx, b') ∧
        ctx.isGotAll = true ∧
        ctx.request.getHeader (ascii "X") = ascii "2 3" ∧
        b'.readable = ascii "GET" := by
  let r : WrittenRequest :=
    { method := .DELETE
      path := ascii "/a"
      query := ascii "?b"
      version := .Http10
      headers := [(ascii "X", ascii "1"), ([], []), (ascii "X", ascii "2 3")]
      method_known := by decide
      version_known := by decide
      path_clean := by decide
      query_mark := by decide
      query_clean := by decide
      names_clean := by decide
      values_clean := by decide }
  obtain ⟨hinv, hread⟩ := Buffer.holding_spec (r.text ++ ascii "GET") (by decide)
  obtain ⟨ctx, b', hparse, hgot, hrequest, hrest⟩ := parseRequest_text r hinv hread 7
  refine ⟨r, by decide, ctx, b', hparse, hgot, ?_, hrest⟩
  rw [hrequest]
  decide

end HttpContext

end MyServer
end MyCppCode
