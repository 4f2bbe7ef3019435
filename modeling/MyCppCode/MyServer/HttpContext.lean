import MyCppCode.Foundation.Lines
import MyCppCode.MyServer.BufferFifo
import MyCppCode.MyServer.HttpRequest

/-!
# HttpContext — parsing a request from a buffer

The loop of `parseRequest` as the source has it: on a buffer with its indices, one iteration after the
other.  A loop that goes on for ever is `Halt.diverges`.

`parseLines` says the same about the lines of the content alone; `parseRequest_spec` relates the two.
-/

namespace MyCppCode
namespace MyServer

open Foundation

/-- The bytes of a buffer between two pointers. -/
def Buffer.range (b : Buffer) (first last : Nat) : Bytes :=
  (b.buffer.drop first).take (last - first)

/-! ## The context -/

inductive HttpRequestParseState
  | kExpectRequestLine
  | kExpectHeaders
  | kExpectBody
  | kGotAll
  deriving DecidableEq, Repr

structure HttpContext where
  state : HttpRequestParseState
  request : HttpRequest

namespace HttpContext

def new : HttpContext :=
  { state := .kExpectRequestLine
    request := HttpRequest.new }

def isGotAll (ctx : HttpContext) : Bool :=
  ctx.state == .kGotAll

/-- The variables of the loop of `parseRequest`. -/
structure Progress where
  context : HttpContext
  buffer : Buffer
  ok : Bool
  hasMore : Bool

/-- One iteration of the loop of `parseRequest`. -/
def parseIteration (receiveTime : Int) (p : Progress) : Progress :=
  match p.context.state with
  | .kExpectRequestLine =>
      match p.buffer.findCRLF with
      | some crlf =>
          let (ok, request) :=
            p.context.request.processRequestLine (p.buffer.range p.buffer.readerIndex crlf)
          if ok then
            { p with
              context :=
                { state := .kExpectHeaders
                  request := { request with receiveTime := receiveTime } }
              buffer := p.buffer.retrieveUntil (crlf + 2)
              ok := true }
          else
            { p with context := { p.context with request := request }, ok := false }
      | none => { p with hasMore := false }
  | .kExpectHeaders =>
      match p.buffer.findCRLF with
      | some crlf =>
          let buffer := p.buffer.retrieveUntil (crlf + 2)
          match cutAt 58 (p.buffer.range p.buffer.readerIndex crlf) with
          | some (field, value) =>
              { p with
                context := { p.context with request := p.context.request.addHeader field value }
                buffer := buffer }
          | none =>
              { p with
                context := { p.context with state := .kGotAll }
                buffer := buffer
                hasMore := false }
      | none => { p with hasMore := false }
  | .kExpectBody => p
  | .kGotAll => p

/-- At most `fuel` iterations; `none` if the loop goes on after them. -/
def parseLoop (receiveTime : Int) : Nat → Progress → Option Progress
  | 0, p => if p.hasMore then none else some p
  | fuel + 1, p =>
      if p.hasMore then parseLoop receiveTime fuel (parseIteration receiveTime p) else some p

/-- `parseRequest`: the result, the context and the buffer.  A loop that has not ended after one
iteration for each byte, and two more, does not end. -/
def parseRequest (ctx : HttpContext) (buf : Buffer) (receiveTime : Int) :
    Except Halt (Bool × HttpContext × Buffer) :=
  let start : Progress :=
    { context := ctx
      buffer := buf
      ok := false
      hasMore := true }
  match parseLoop receiveTime (buf.readableBytes + 2) start with
  | some p => .ok (p.ok, p.context, p.buffer)
  | none => .error .diverges

end HttpContext

/-! ## Lines in a buffer -/

namespace Buffer

variable {b : Buffer}

/-- The lines of the content, and what follows the last of them. -/
def lines (b : Buffer) : List Bytes × Bytes :=
  splitLines 13 10 b.readable

theorem searchCRLF_eq (u : Bytes) :
    searchCRLF u = (splitLines 13 10 u).1.head?.map List.length := by
  fun_induction splitLines 13 10 u with
  | case1 => rfl
  | case2 c => simp [searchCRLF, kCRLF, List.isPrefixOf]
  | case3 c d rest h ih =>
      obtain ⟨rfl, rfl⟩ := h
      rfl
  | case4 c d rest h l ls t heq ih =>
      have hnot : ¬ (13 = c ∧ 10 = d) := fun hcd => h ⟨hcd.1.symm, hcd.2.symm⟩
      rw [searchCRLF, ih, heq]
      simp [kCRLF, List.isPrefixOf, hnot]
  | case5 c d rest h t heq ih =>
      have hnot : ¬ (13 = c ∧ 10 = d) := fun hcd => h ⟨hcd.1.symm, hcd.2.symm⟩
      rw [searchCRLF, ih, heq]
      simp [kCRLF, List.isPrefixOf, hnot]

theorem findCRLF_eq_none (h : b.lines.1 = []) : b.findCRLF = none := by
  unfold lines at h
  rw [findCRLF, searchCRLF_eq, h]
  rfl

/-- What is left of `b` when `content` is: a buffer in order, whose writer index has not moved up. -/
structure Leaves (b : Buffer) (content : Bytes) (b' : Buffer) : Prop where
  inv : Inv b'
  readable_eq : b'.readable = content
  writer_le : b'.writerIndex ≤ b.writerIndex

theorem retrieveUntil_writerIndex_le (h : Inv b) (endPos : Nat) :
    (b.retrieveUntil endPos).writerIndex ≤ b.writerIndex := by
  unfold retrieveUntil retrieve
  split
  · exact le_refl _
  · exact le_trans h.cheapPrepend_le h.reader_le

/-- The first line of the content: `findCRLF` points at its end, and `retrieveUntil(crlf + 2)` takes
it and its terminator away. -/
theorem lines_eq_cons (h : Inv b) {l : Bytes} {ls : List Bytes} {t : Bytes}
    (hlines : b.lines = (l :: ls, t)) :
    ∃ crlf, b.findCRLF = some crlf ∧ range b b.readerIndex crlf = l ∧
      Leaves b (joinLines 13 10 ls ++ t) (b.retrieveUntil (crlf + 2)) ∧
      (b.retrieveUntil (crlf + 2)).lines = (ls, t) := by
  obtain ⟨-, rest, hcontent, hrest⟩ := splitLines_eq_cons hlines
  have hlen := h.length_readable
  rw [h.readableBytes_eq, hcontent] at hlen
  simp only [List.length_append, List.length_cons] at hlen
  have hle : b.readerIndex + l.length + 2 ≤ b.writerIndex := by
    have := h.reader_le
    omega
  refine ⟨b.readerIndex + l.length, ?_, ?_, ?_⟩
  · unfold lines at hlines
    rw [findCRLF, searchCRLF_eq, hlines]
    rfl
  -- The bytes between the reader index and the CRLF are the first line.
  · have htake : l = b.readable.take l.length := by rw [hcontent]; simp
    rw [range, Nat.add_sub_cancel_left]
    conv_rhs => rw [htake, readable, List.take_take]
    congr 1
    omega
  · obtain ⟨hinv, hread⟩ := retrieveUntil_spec h
      (le_trans (Nat.le_add_right _ _) (Nat.le_add_right _ 2)) hle
    have hdrop : b.readerIndex + l.length + 2 - b.readerIndex = l.length + 2 := by omega
    have hread' : (b.retrieveUntil (b.readerIndex + l.length + 2)).readable = rest := by
      rw [hread, hdrop, hcontent, ← List.drop_drop, List.drop_left]
      rfl
    have hjoin := join_splitLines (a := 13) (b := 10) rest
    rw [hrest] at hjoin
    refine ⟨⟨hinv, ?_, retrieveUntil_writerIndex_le h _⟩, ?_⟩
    · rw [hread', hjoin]
    · rw [lines, hread', hrest]

end Buffer

/-! ## Parsing lines -/

namespace HttpContext

/-- The header lines up to the first line without a colon: the context, and the lines behind it. -/
def readHeaders (request : HttpRequest) : List Bytes → HttpContext × List Bytes
  | [] => ({ state := .kExpectHeaders, request := request }, [])
  | l :: ls =>
      match cutAt 58 l with
      | some (field, value) => readHeaders (request.addHeader field value) ls
      | none => ({ state := .kGotAll, request := request }, ls)

/-- Lines with a colon are headers, all of them. -/
theorem readHeaders_headerLines {hs : List Bytes} (h : ∀ l ∈ hs, (58 : UInt8) ∈ l)
    (request : HttpRequest) (ls : List Bytes) :
    readHeaders request (hs ++ ls) = readHeaders (hs.foldl HttpRequest.addLine request) ls := by
  induction hs generalizing request with
  | nil => rfl
  | cons l hs ih =>
      have hl : (58 : UInt8) ∈ l := h l (by simp)
      have ih := ih fun l' hl' => h l' (by simp [hl'])
      cases hcut : cutAt 58 l with
      | none => exact absurd hl (cutAt_eq_none_iff.1 hcut)
      | some r => simp [readHeaders, HttpRequest.addLine, hcut, ih]

/-- What `parseRequest` makes of the complete lines of the content: the result, the context and the
lines that stay. -/
def parseLines (ctx : HttpContext) (receiveTime : Int) (ls : List Bytes) :
    Except Halt (Bool × HttpContext × List Bytes) :=
  match ctx.state with
  | .kExpectRequestLine =>
      match ls with
      | [] => .ok (false, ctx, [])
      | l :: ls =>
          let (ok, request) := ctx.request.processRequestLine l
          if ok then .ok (true, readHeaders { request with receiveTime := receiveTime } ls)
          else .error .diverges
  | .kExpectHeaders => .ok (false, readHeaders ctx.request ls)
  | .kExpectBody => .error .diverges
  | .kGotAll => .error .diverges

/-- A request line and header lines are taken, whatever follows them. -/
theorem parseLines_accepted (receiveTime : Int) {l : Bytes} {hs ls : List Bytes}
    (hl : HttpRequest.acceptable l = true) (hcolon : ∀ h ∈ hs, (58 : UInt8) ∈ h) :
    new.parseLines receiveTime (l :: (hs ++ ls)) =
      .ok (true, readHeaders (HttpRequest.ofLines receiveTime l hs) ls) := by
  have hfst : (HttpRequest.new.processRequestLine l).1 = true := hl
  simp only [parseLines, new, hfst, if_true,
    readHeaders_headerLines hcolon]
  rfl

variable {b : Buffer}

theorem parseLoop_succ (receiveTime : Int) (fuel : Nat) (ctx : HttpContext) (b : Buffer) (ok : Bool) :
    parseLoop receiveTime (fuel + 1) { context := ctx, buffer := b, ok := ok, hasMore := true } =
      parseLoop receiveTime fuel
        (parseIteration receiveTime { context := ctx, buffer := b, ok := ok, hasMore := true }) :=
  rfl

/-- The loop from the headers on takes one iteration for each line and one more. -/
theorem parseLoop_headers (receiveTime : Int) {ls : List Bytes} {t : Bytes} (h : b.Inv) (hlines : b.lines = (ls, t))
    (request : HttpRequest) (ok : Bool) {fuel : Nat} (hfuel : ls.length < fuel) :
    ∃ b', b.Leaves (joinLines 13 10 (readHeaders request ls).2 ++ t) b' ∧
      parseLoop receiveTime fuel
          { context := { state := .kExpectHeaders, request := request }
            buffer := b
            ok := ok
            hasMore := true } =
        some
          { context := (readHeaders request ls).1
            buffer := b'
            ok := ok
            hasMore := false } := by
  induction ls generalizing b request fuel with
  | nil =>
      have hnone : b.findCRLF = none := Buffer.findCRLF_eq_none (by rw [hlines])
      have hjoin := join_splitLines (a := 13) (b := 10) b.readable
      -- The last iteration finds no further CRLF and stops.
      obtain ⟨fuel, rfl⟩ : ∃ n, fuel = n + 1 := ⟨fuel - 1, by simp at hfuel; omega⟩
      refine ⟨b, ⟨h, ?_, le_refl _⟩, ?_⟩
      · unfold Buffer.lines at hlines
        rw [hlines] at hjoin
        exact hjoin.symm
      · cases fuel <;> simp [parseLoop, parseIteration, hnone, readHeaders]
  | cons l ls ih =>
      obtain ⟨crlf, hfind, hrange, hleaves, hlines'⟩ := Buffer.lines_eq_cons h hlines
      obtain ⟨fuel, rfl⟩ : ∃ n, fuel = n + 1 := ⟨fuel - 1, by omega⟩
      have hfuel' : ls.length < fuel := by simpa using hfuel
      cases hcut : cutAt 58 l with
      | some r =>
          -- A line with a colon is a header, and the loop goes on behind it.
          obtain ⟨b', hb', hloop⟩ := ih hleaves.inv hlines' (request.addHeader r.1 r.2) hfuel'
          refine ⟨b', ⟨hb'.inv, ?_, le_trans hb'.writer_le hleaves.writer_le⟩, ?_⟩
          · simpa [readHeaders, hcut] using hb'.readable_eq
          · simpa [parseLoop, parseIteration, hfind, hrange, hcut, readHeaders] using hloop
      | none =>
          -- A line without a colon ends the request, empty or not.
          refine ⟨b.retrieveUntil (crlf + 2), ?_, ?_⟩
          · simpa [readHeaders, hcut] using hleaves
          · cases fuel <;>
              simp [parseLoop, parseIteration, hfind, hrange, hcut, readHeaders]

/-- A complete first line that is no request line is looked at for ever. -/
theorem parseLoop_rejected (receiveTime : Int) {l : Bytes} {ls : List Bytes} {t : Bytes}
    (h : b.Inv) (hlines : b.lines = (l :: ls, t)) (hl : HttpRequest.acceptable l = false)
    (request : HttpRequest) (ok : Bool) (fuel : Nat) :
    parseLoop receiveTime fuel
      { context := { state := .kExpectRequestLine, request := request }
        buffer := b
        ok := ok
        hasMore := true } = none := by
  obtain ⟨crlf, hfind, hrange, -, -⟩ := Buffer.lines_eq_cons h hlines
  induction fuel generalizing request ok with
  | zero => rfl
  | succ fuel ih =>
      -- The rejected line stays in the buffer, and the next iteration meets it again.
      have hfst := HttpRequest.processRequestLine_fst request l
      simpa [parseLoop, parseIteration, hfind, hrange, hfst, hl] using
        ih (request.processRequestLine l).2 false

/-- The loop does nothing in the two states that it has no code for. -/
theorem parseLoop_stuck (b : Buffer) (receiveTime : Int) {ctx : HttpContext}
    (hctx : ctx.state = .kExpectBody ∨ ctx.state = .kGotAll) (ok : Bool) (fuel : Nat) :
    parseLoop receiveTime fuel { context := ctx, buffer := b, ok := ok, hasMore := true } = none := by
  induction fuel with
  | zero => rfl
  | succ fuel ih =>
      rcases hctx with hctx | hctx <;> simpa [parseLoop, parseIteration, hctx] using ih

theorem length_lines_le (h : b.Inv) : b.lines.1.length ≤ b.readableBytes := by
  have hjoin := join_splitLines (a := 13) (b := 10) b.readable
  have hle : ∀ ls : List Bytes, ls.length ≤ (joinLines 13 10 ls).length := by
    intro ls
    induction ls with
    | nil => simp
    | cons l ls ih => simp; omega
  rw [← h.length_readable]
  conv_rhs => rw [← hjoin, List.length_append]
  exact le_trans (hle _) (Nat.le_add_right _ _)

/-- `parseRequest` on a buffer in order is `parseLines` on the lines of its content; the bytes behind
the lines stay where they are. -/
theorem parseRequest_spec (ctx : HttpContext) (h : b.Inv) (receiveTime : Int) :
    match ctx.parseLines receiveTime b.lines.1 with
    | .ok (ok, ctx', left) =>
        ∃ b', b.Leaves (joinLines 13 10 left ++ b.lines.2) b' ∧
          ctx.parseRequest b receiveTime = .ok (ok, ctx', b')
    | .error e =>
        e = .diverges ∧ ctx.parseRequest b receiveTime = .error .diverges ∧
          ∀ fuel,
            parseLoop receiveTime fuel
              { context := ctx, buffer := b, ok := false, hasMore := true } = none := by
  obtain ⟨state, request⟩ := ctx
  have hlen := length_lines_le h
  cases hls : b.lines with
  | mk ls t =>
      rw [hls] at hlen
      cases state with
      | kExpectRequestLine =>
          cases ls with
          | nil =>
              have hnone : b.findCRLF = none := Buffer.findCRLF_eq_none (by rw [hls])
              have hjoin := join_splitLines (a := 13) (b := 10) b.readable
              unfold Buffer.lines at hls
              rw [hls] at hjoin
              refine ⟨b, ⟨h, hjoin.symm, le_refl _⟩, ?_⟩
              simp [parseRequest, parseLoop, parseIteration, hnone]
          | cons l ls =>
              obtain ⟨crlf, hfind, hrange, hleaves, hlines'⟩ := Buffer.lines_eq_cons h hls
              have hfst := HttpRequest.processRequestLine_fst request l
              cases hl : HttpRequest.acceptable l with
              | true =>
                  -- Every line has two bytes of its own, so the fuel lasts for all of them.
                  have hfuel : ls.length < b.readableBytes + 1 := by
                    simp only [List.length_cons] at hlen
                    omega
                  obtain ⟨b', hb', hloop⟩ := parseLoop_headers receiveTime hleaves.inv hlines'
                    { (request.processRequestLine l).2 with receiveTime := receiveTime } true hfuel
                  simp only [parseLines, hfst, hl, if_true]
                  refine ⟨b', ⟨hb'.inv, hb'.readable_eq, le_trans hb'.writer_le hleaves.writer_le⟩, ?_⟩
                  -- The first iteration takes the request line; the rest is `parseLoop_headers`.
                  have hfirst : parseIteration receiveTime
                      { context := { state := .kExpectRequestLine, request := request }
                        buffer := b
                        ok := false
                        hasMore := true } =
                      { context :=
                          { state := .kExpectHeaders
                            request :=
                              { (request.processRequestLine l).2 with receiveTime := receiveTime } }
                        buffer := b.retrieveUntil (crlf + 2)
                        ok := true
                        hasMore := true } := by
                    simp [parseIteration, hfind, hrange, hfst, hl]
                  simp only [parseRequest, parseLoop_succ, hfirst, hloop]
              | false =>
                  have hloop := parseLoop_rejected receiveTime h hls hl request false
                  simp [parseLines, hfst, hl, parseRequest, hloop]
      | kExpectHeaders =>
          have hfuel : ls.length < b.readableBytes + 2 := lt_of_le_of_lt hlen (by omega)
          obtain ⟨b', hb', hloop⟩ := parseLoop_headers receiveTime h hls request false hfuel
          refine ⟨b', hb', ?_⟩
          simp [parseRequest, hloop]
      | kExpectBody =>
          have hloop := parseLoop_stuck b receiveTime
            (show (HttpContext.mk .kExpectBody request).state = _ ∨ _ from Or.inl rfl) false
          simp [parseLines, parseRequest, hloop]
      | kGotAll =>
          have hloop := parseLoop_stuck b receiveTime
            (show (HttpContext.mk .kGotAll request).state = _ ∨ _ from Or.inr rfl) false
          simp [parseLines, parseRequest, hloop]

end HttpContext

end MyServer
end MyCppCode
