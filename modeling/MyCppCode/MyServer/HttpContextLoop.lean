import MyCppCode.MyServer.HttpContext

/-!
# HttpContextLoop — the loop of `parseRequest`: when it ends, and where it may be interrupted

The loop has no counter.  An iteration makes progress if it takes bytes from the buffer, goes on to
another state or clears `hasMore`; the one iteration that does none of these is the one that meets a
complete line it does not accept as a request line.

What the parser remembers between two calls is its state, the request so far and the bytes left in the
buffer.  When a request line was accepted this is enough: parsing in two parts ends where parsing in
one part ends, wherever the cut is.
-/

namespace MyCppCode
namespace MyServer

open Foundation

namespace HttpContext

variable {b : Buffer}

/-! ## Iterations -/

/-- The loop variables when `parseRequest` is called. -/
def start (ctx : HttpContext) (b : Buffer) : Progress :=
  { context := ctx
    buffer := b
    ok := false
    hasMore := true }

/-- `Iterates receiveTime p q`: the loop, begun with the variables `p`, comes to `q`. -/
inductive Iterates (receiveTime : Int) : Progress → Progress → Prop where
  | refl (p : Progress) : Iterates receiveTime p p
  | step {p q : Progress} : p.hasMore = true →
      Iterates receiveTime (parseIteration receiveTime p) q → Iterates receiveTime p q

/-- The iteration takes bytes from the buffer, goes on to another state, or is the last one. -/
def Advances (receiveTime : Int) (p : Progress) : Prop :=
  (parseIteration receiveTime p).buffer.readable.length < p.buffer.readable.length ∨
    (parseIteration receiveTime p).context.state ≠ p.context.state ∨
    (parseIteration receiveTime p).hasMore = false

/-- The loop ends after finitely many iterations, and each of them makes progress. -/
def LoopEnds (receiveTime : Int) (p : Progress) : Prop :=
  (∃ fuel q, parseLoop receiveTime fuel p = some q) ∧
    ∀ q, Iterates receiveTime p q → q.hasMore = true → Advances receiveTime q

/-- A request line is expected, and the first complete line of the buffer is none. -/
def FacesRejected (ctx : HttpContext) (b : Buffer) : Prop :=
  ctx.state = .kExpectRequestLine ∧ ∃ l ∈ b.lines.1.head?, HttpRequest.acceptable l = false

theorem length_of_leaves {l : Bytes} {ls : List Bytes} {t : Bytes} {b' : Buffer}
    (hlines : b.lines = (l :: ls, t)) (hleaves : b.Leaves (joinLines 13 10 ls ++ t) b') :
    b'.readable.length < b.readable.length := by
  have hjoin := join_splitLines (a := 13) (b := 10) b.readable
  unfold Buffer.lines at hlines
  rw [hlines] at hjoin
  rw [hleaves.readable_eq, ← hjoin]
  simp
  omega

/-- An iteration on the headers makes progress, and leaves a buffer in order. -/
theorem parseIteration_headers (receiveTime : Int) {p : Progress} (h : p.buffer.Inv)
    (hstate : p.context.state = .kExpectHeaders) :
    Advances receiveTime p ∧ (parseIteration receiveTime p).buffer.Inv ∧
      ((parseIteration receiveTime p).hasMore = true →
        (parseIteration receiveTime p).context.state = .kExpectHeaders) := by
  obtain ⟨⟨state, request⟩, b, ok, hasMore⟩ := p
  obtain rfl : state = .kExpectHeaders := hstate
  unfold Advances
  cases hls : b.lines with
  | mk ls t =>
      cases ls with
      | nil =>
          have hnone : b.findCRLF = none := Buffer.findCRLF_eq_none (by rw [hls])
          simp only [parseIteration, hnone]
          exact ⟨Or.inr (Or.inr trivial), h, fun _ => trivial⟩
      | cons l ls =>
          obtain ⟨crlf, hfind, hrange, hleaves, -⟩ := Buffer.lines_eq_cons h hls
          have hshort := length_of_leaves hls hleaves
          cases hcut : cutAt 58 l with
          | some r =>
              simp only [parseIteration, hfind, hrange, hcut]
              exact ⟨Or.inl hshort, hleaves.inv, fun _ => trivial⟩
          | none =>
              simp only [parseIteration, hfind, hrange, hcut]
              exact ⟨Or.inl hshort, hleaves.inv, fun hmore => absurd hmore (by simp)⟩

/-- An iteration on an acceptable request line, or on no complete line, makes progress too, and goes on
to the headers or ends the loop. -/
theorem parseIteration_requestLine (receiveTime : Int) {p : Progress} (h : p.buffer.Inv)
    (hstate : p.context.state = .kExpectRequestLine) (hface : ¬ FacesRejected p.context p.buffer) :
    Advances receiveTime p ∧ (parseIteration receiveTime p).buffer.Inv ∧
      ((parseIteration receiveTime p).hasMore = true →
        (parseIteration receiveTime p).context.state = .kExpectHeaders) := by
  obtain ⟨⟨state, request⟩, b, ok, hasMore⟩ := p
  obtain rfl : state = .kExpectRequestLine := hstate
  unfold Advances
  cases hls : b.lines with
  | mk ls t =>
      cases ls with
      | nil =>
          have hnone : b.findCRLF = none := Buffer.findCRLF_eq_none (by rw [hls])
          simp only [parseIteration, hnone]
          exact ⟨Or.inr (Or.inr trivial), h, fun hmore => absurd hmore (by simp)⟩
      | cons l ls =>
          obtain ⟨crlf, hfind, hrange, hleaves, -⟩ := Buffer.lines_eq_cons h hls
          have hshort := length_of_leaves hls hleaves
          -- the first line is complete, so it is acceptable or the parser faces a rejected one
          have hl : HttpRequest.acceptable l = true := by
            by_contra hl
            exact hface ⟨rfl, l, by simp [hls], by simpa using hl⟩
          have hfst := HttpRequest.processRequestLine_fst request l
          simp only [parseIteration, hfind, hrange, hfst, hl, if_true]
          exact ⟨Or.inl hshort, hleaves.inv, fun _ => trivial⟩

/-- Where the loop is before an iteration that makes progress. -/
def OnTrack (p : Progress) : Prop :=
  p.buffer.Inv ∧
    (p.hasMore = true →
      p.context.state = .kExpectHeaders ∨
        p.context.state = .kExpectRequestLine ∧ ¬ FacesRejected p.context p.buffer)

theorem OnTrack.advances {receiveTime : Int} {p : Progress} (h : OnTrack p)
    (hmore : p.hasMore = true) :
    Advances receiveTime p ∧ OnTrack (parseIteration receiveTime p) := by
  obtain ⟨hinv, hstate⟩ := h
  rcases hstate hmore with hstate | ⟨hstate, hface⟩
  · obtain ⟨hadv, hinv', hnext⟩ := parseIteration_headers receiveTime hinv hstate
    exact ⟨hadv, hinv', fun hm => Or.inl (hnext hm)⟩
  · obtain ⟨hadv, hinv', hnext⟩ := parseIteration_requestLine receiveTime hinv hstate hface
    exact ⟨hadv, hinv', fun hm => Or.inl (hnext hm)⟩

theorem Iterates.onTrack {receiveTime : Int} {p q : Progress} (h : Iterates receiveTime p q)
    (hp : OnTrack p) : OnTrack q := by
  induction h with
  | refl p =>
      exact hp
  | step hmore _ ih =>
      exact ih (hp.advances hmore).2

/-! ## The end of the loop -/

theorem parseLoop_ends_of_next {receiveTime : Int} {p : Progress}
    (h : ∃ fuel q, parseLoop receiveTime fuel (parseIteration receiveTime p) = some q) :
    ∃ fuel q, parseLoop receiveTime fuel p = some q := by
  obtain ⟨fuel, q, hloop⟩ := h
  cases hmore : p.hasMore with
  | false => exact ⟨0, p, by simp [parseLoop, hmore]⟩
  | true => exact ⟨fuel + 1, q, by simpa [parseLoop, hmore] using hloop⟩

theorem parseLoop_ends_headers (receiveTime : Int) {p : Progress} (h : p.buffer.Inv)
    (hstate : p.hasMore = true → p.context.state = .kExpectHeaders) :
    ∃ fuel q, parseLoop receiveTime fuel p = some q := by
  obtain ⟨⟨state, request⟩, b, ok, hasMore⟩ := p
  cases hasMore with
  | false =>
      exact ⟨0, _, rfl⟩
  | true =>
      obtain rfl : state = .kExpectHeaders := hstate rfl
      obtain ⟨b', -, hloop⟩ :=
        parseLoop_headers receiveTime h (Prod.eta b.lines).symm request ok
          (Nat.lt_succ_self b.lines.1.length)
      exact ⟨_, _, hloop⟩

theorem OnTrack.parseLoop_ends (receiveTime : Int) {p : Progress} (h : OnTrack p) :
    ∃ fuel q, parseLoop receiveTime fuel p = some q := by
  obtain ⟨hinv, hstate⟩ := h
  cases hmore : p.hasMore with
  | false =>
      exact ⟨0, p, by simp [parseLoop, hmore]⟩
  | true =>
      rcases hstate hmore with hheaders | ⟨hline, hface⟩
      · exact parseLoop_ends_headers receiveTime hinv fun _ => hheaders
      · -- One iteration takes the request line; behind it there are headers only.
        obtain ⟨-, hinv', hnext⟩ := parseIteration_requestLine receiveTime hinv hline hface
        exact parseLoop_ends_of_next (parseLoop_ends_headers receiveTime hinv' hnext)

/-- The loop of `parseRequest` ends, each of its iterations making progress, exactly if it is not
called for a request line with a complete line that is none. -/
theorem parseRequest_loopEnds_iff (ctx : HttpContext) (b : Buffer) (receiveTime : Int)
    (hctx : ctx.state = .kExpectRequestLine ∨ ctx.state = .kExpectHeaders) (h : b.Inv) :
    LoopEnds receiveTime (start ctx b) ↔ ¬ FacesRejected ctx b := by
  constructor
  · -- a rejected line is met again in every iteration, whatever the fuel
    rintro ⟨⟨fuel, q, hloop⟩, -⟩ ⟨hstate, l, hl, hreject⟩
    obtain ⟨state, request⟩ := ctx
    obtain rfl : state = .kExpectRequestLine := hstate
    obtain ⟨ls, hls⟩ : ∃ ls, b.lines.1 = l :: ls := by
      cases hlines : b.lines.1 with
      | nil => simp [hlines] at hl
      | cons l' ls => exact ⟨ls, by simpa [hlines] using hl⟩
    have hnone := parseLoop_rejected receiveTime h (Prod.ext hls rfl : b.lines = (l :: ls, b.lines.2))
      hreject request false fuel
    have hsome := hnone.symm.trans hloop
    cases hsome
  · intro hface
    have htrack : OnTrack (start ctx b) := by
      refine ⟨h, fun _ => ?_⟩
      rcases hctx with hctx | hctx
      · exact Or.inr ⟨hctx, hface⟩
      · exact Or.inl hctx
    refine ⟨htrack.parseLoop_ends receiveTime, ?_⟩
    intro q hq hmore
    exact ((hq.onTrack htrack).advances hmore).1

/-- A request line and a header in a buffer that holds nothing else. -/
theorem parseRequest_loopEnds_get :
    LoopEnds 0 (start new (Buffer.holding (ascii "GET / HTTP/1.1\r\nHost: a\r\n\r\n"))) := by
  have hhead : (Buffer.holding (ascii "GET / HTTP/1.1\r\nHost: a\r\n\r\n")).lines.1.head? =
      some (ascii "GET / HTTP/1.1") := by decide
  have haccept : HttpRequest.acceptable (ascii "GET / HTTP/1.1") = true := by decide
  have hface : ¬ FacesRejected new
      (Buffer.holding (ascii "GET / HTTP/1.1\r\nHost: a\r\n\r\n")) := by
    rintro ⟨-, l, hl, hreject⟩
    rw [hhead] at hl
    cases hl
    rw [haccept] at hreject
    cases hreject
  exact (parseRequest_loopEnds_iff new _ 0 (Or.inl rfl)
    (Buffer.holding_spec _ (by decide)).1).2 hface

/-- `BAD` and a CRLF: `ok` is false, the line stays, and `hasMore` is true for ever. -/
theorem not_loopEnds_bad :
    ¬ ∀ (ctx : HttpContext) (b : Buffer) (receiveTime : Int),
      ctx.state = .kExpectRequestLine ∨ ctx.state = .kExpectHeaders → b.Inv →
        LoopEnds receiveTime (start ctx b) := by
  intro hall
  have hinv := (Buffer.holding_spec (ascii "BAD\r\n") (by decide)).1
  obtain ⟨⟨fuel, q, hloop⟩, -⟩ := hall new (Buffer.holding (ascii "BAD\r\n")) 0 (Or.inl rfl) hinv
  have hlines : (Buffer.holding (ascii "BAD\r\n")).lines = ([ascii "BAD"], []) := by decide
  have hnone := parseLoop_rejected 0 hinv hlines (by decide) HttpRequest.new false fuel
  have hsome := hnone.symm.trans hloop
  cases hsome

/-! ## Parsing in two parts -/

theorem sameFields_of_times (line : Bytes) (t t' : Int) :
    HttpRequest.SameFields (HttpRequest.ofLines t line []) (HttpRequest.ofLines t' line []) :=
  ⟨rfl, rfl, rfl, rfl, rfl⟩

theorem sameFields_addHeader {r r' : HttpRequest} (h : r.SameFields r') (field value : Bytes) :
    (r.addHeader field value).SameFields (r'.addHeader field value) := by
  refine ⟨h.method, h.path, h.query, h.version, ?_⟩
  simp only [HttpRequest.addHeader, h.headers]

/-- The same state, the same request fields and the same lines left over. -/
structure Agree (r r' : HttpContext × List Bytes) : Prop where
  state_eq : r.1.state = r'.1.state
  fields : r.1.request.SameFields r'.1.request
  left_eq : r.2 = r'.2

/-- Header lines are read alike whenever the request line was received. -/
theorem readHeaders_agree {r r' : HttpRequest} (h : r.SameFields r') (ls : List Bytes) :
    Agree (readHeaders r ls) (readHeaders r' ls) := by
  induction ls generalizing r r' with
  | nil =>
      exact ⟨rfl, h, rfl⟩
  | cons l ls ih =>
      cases hcut : cutAt 58 l with
      | none =>
          simp only [readHeaders, hcut]
          exact ⟨rfl, h, rfl⟩
      | some line =>
          simp only [readHeaders, hcut]
          exact ih (sameFields_addHeader h line.1 line.2)

/-- Header lines that do not end the request are all taken, and the next lines are read as if they had
come with them. -/
theorem readHeaders_append {r : HttpRequest} {hs : List Bytes}
    (hstate : (readHeaders r hs).1.state ≠ .kGotAll) :
    readHeaders r hs =
        ({ state := .kExpectHeaders, request := (readHeaders r hs).1.request }, []) ∧
      ∀ ls, readHeaders r (hs ++ ls) = readHeaders (readHeaders r hs).1.request ls := by
  induction hs generalizing r with
  | nil =>
      exact ⟨rfl, fun _ => rfl⟩
  | cons l hs ih =>
      cases hcut : cutAt 58 l with
      | none =>
          simp only [readHeaders, hcut] at hstate
          exact absurd rfl hstate
      | some line =>
          simp only [readHeaders, hcut, List.cons_append] at hstate ⊢
          exact ih hstate

theorem parseLines_request (time : Int) {l : Bytes} (ls : List Bytes)
    (hl : HttpRequest.acceptable l = true) :
    new.parseLines time (l :: ls) = .ok (true, readHeaders (HttpRequest.ofLines time l []) ls) :=
  parseLines_accepted time hl (List.forall_mem_nil _)

/-- The lines of the first part and the lines completed by the second, parsed in two calls and in
one. -/
theorem parseLines_resume (t₁ t₂ t : Int) {ls₁ ls₂ : List Bytes}
    (hfirst : ∀ l ∈ (ls₁ ++ ls₂).head?, HttpRequest.acceptable l = true) {ok₁ : Bool}
    {ctx₁ : HttpContext} {left : List Bytes}
    (hparse : new.parseLines t₁ ls₁ = .ok (ok₁, ctx₁, left)) (hstopped : ctx₁.state ≠ .kGotAll) :
    left = [] ∧ ∃ ok₂ r₂ ok r,
      ctx₁.parseLines t₂ ls₂ = .ok (ok₂, r₂) ∧
        new.parseLines t (ls₁ ++ ls₂) = .ok (ok, r) ∧ Agree r₂ r := by
  cases ls₁ with
  | nil =>
      -- No complete line yet: the second call starts from the same context.
      obtain ⟨rfl, rfl, rfl⟩ : false = ok₁ ∧ new = ctx₁ ∧ [] = left := by
        simpa [parseLines, new] using hparse
      refine ⟨rfl, ?_⟩
      cases ls₂ with
      | nil =>
          exact ⟨_, _, _, _, rfl, rfl, rfl, ⟨rfl, rfl, rfl, rfl, rfl⟩, rfl⟩
      | cons l ls =>
          have hl : HttpRequest.acceptable l = true := hfirst l rfl
          exact ⟨_, _, _, _, parseLines_request t₂ ls hl, parseLines_request t ls hl,
            readHeaders_agree (sameFields_of_times l t₂ t) ls⟩
  | cons l hs =>
      have hl : HttpRequest.acceptable l = true := hfirst l rfl
      have hctx₁ : readHeaders (HttpRequest.ofLines t₁ l []) hs = (ctx₁, left) := by
        have := (parseLines_request t₁ hs hl).symm.trans hparse
        simp only [Except.ok.injEq, Prod.mk.injEq] at this
        exact this.2
      -- The headers so far did not end the request, in one call as little as in two.
      have hstate₁ : (readHeaders (HttpRequest.ofLines t₁ l []) hs).1.state ≠ .kGotAll := by
        rw [hctx₁]
        exact hstopped
      have hagree := readHeaders_agree (sameFields_of_times l t₁ t) hs
      have hstate : (readHeaders (HttpRequest.ofLines t l []) hs).1.state ≠ .kGotAll := by
        intro hgot
        exact hstate₁ (hagree.state_eq.trans hgot)
      obtain ⟨hall, -⟩ := readHeaders_append hstate₁
      obtain ⟨-, happend⟩ := readHeaders_append hstate
      rw [hctx₁] at hall
      obtain ⟨hctx, rfl⟩ := Prod.mk.inj hall
      have hfields := hagree.fields
      rw [hctx₁] at hfields
      refine ⟨rfl, false, readHeaders ctx₁.request ls₂, true,
        readHeaders (HttpRequest.ofLines t l []) (hs ++ ls₂), ?_, parseLines_request t _ hl, ?_⟩
      · rw [hctx]
        rfl
      · rw [happend]
        exact readHeaders_agree hfields ls₂

theorem parseLines_new_ok (time : Int) {ls : List Bytes}
    (hfirst : ∀ l ∈ ls.head?, HttpRequest.acceptable l = true) :
    ∃ ok r, new.parseLines time ls = .ok (ok, r) := by
  cases ls with
  | nil => exact ⟨_, _, rfl⟩
  | cons l ls => exact ⟨_, _, parseLines_request time ls (hfirst l rfl)⟩

theorem parseRequest_of_parseLines {ctx : HttpContext} {time : Int} (h : b.Inv) {ok : Bool}
    {r : HttpContext × List Bytes} (hlines : ctx.parseLines time b.lines.1 = .ok (ok, r)) :
    ∃ b', b.Leaves (joinLines 13 10 r.2 ++ b.lines.2) b' ∧
      ctx.parseRequest b time = .ok (ok, r.1, b') := by
  have hspec := parseRequest_spec ctx h time
  rw [hlines] at hspec
  exact hspec

/-- Two calls with the same context, the bytes `c₂` appended in between, end as one call with all the
bytes: in the same state, with the same request fields, and with the same bytes in the buffer.  The
`append` returns whenever its length fits into an `int` and the vector below `max_size()`. -/
theorem parseRequest_resume {c₁ c₂ : Bytes} {b₁ b : Buffer} (h₁ : b₁.Inv) (hc₁ : b₁.readable = c₁)
    (h : b.Inv) (hc : b.readable = c₁ ++ c₂) (t₁ t₂ t : Int)
    (hfirst : ∀ l ∈ (splitLines 13 10 (c₁ ++ c₂)).1.head?, HttpRequest.acceptable l = true)
    (hstopped : ∀ ok ctx b', new.parseRequest b₁ t₁ = .ok (ok, ctx, b') → ctx.state ≠ .kGotAll) :
    ∃ ok₁ ctx₁ b₁', new.parseRequest b₁ t₁ = .ok (ok₁, ctx₁, b₁') ∧
      (b₁'.FitsInt c₂.length → b₁'.writerIndex + c₂.length ≤ maxSize →
        ∃ b₂, b₁'.append c₂ = .ok b₂) ∧
      ∀ b₂, b₁'.append c₂ = .ok b₂ →
        ∃ ok₂ ctx₂ b₂' ok ctx b', ctx₁.parseRequest b₂ t₂ = .ok (ok₂, ctx₂, b₂') ∧
          new.parseRequest b t = .ok (ok, ctx, b') ∧ ctx₂.state = ctx.state ∧
          ctx₂.request.SameFields ctx.request ∧ b₂'.readable = b'.readable := by
  have hlines₁ : b₁.lines = splitLines 13 10 c₁ := by rw [Buffer.lines, hc₁]
  have hlines : b.lines = splitLines 13 10 (c₁ ++ c₂) := by rw [Buffer.lines, hc]
  -- The lines of all the bytes are those of `c₁` and those that `c₂` completes.
  rw [splitLines_append] at hlines hfirst
  set ls₁ := (splitLines 13 10 c₁).1
  set tail := (splitLines 13 10 c₁).2
  set ls₂ := (splitLines 13 10 (tail ++ c₂)).1
  have hfirst₁ : ∀ l ∈ ls₁.head?, HttpRequest.acceptable l = true := by
    intro l hl
    refine hfirst l ?_
    cases hls : ls₁ with
    | nil => simp [hls] at hl
    | cons l' ls => simpa [hls] using hl
  obtain ⟨ok₁, ⟨ctx₁, left⟩, hparse₁⟩ := parseLines_new_ok t₁ hfirst₁
  obtain ⟨b₁', hleaves₁, hcall₁⟩ :=
    parseRequest_of_parseLines h₁ (show new.parseLines t₁ b₁.lines.1 = _ by rw [hlines₁]; exact hparse₁)
  obtain ⟨rfl, ok₂, r₂, ok, r, hparse₂, hparse, hagree⟩ :=
    parseLines_resume t₁ t₂ t hfirst hparse₁ (hstopped _ _ _ hcall₁)
  have hread₁ : b₁'.readable = tail := by
    rw [hleaves₁.readable_eq, hlines₁]
    rfl
  refine ⟨ok₁, ctx₁, b₁', hcall₁, ?_, ?_⟩
  · intro hint hmax
    obtain ⟨b₂, hb₂, -⟩ :=
      (Buffer.append_spec hleaves₁.inv hint).exists_ok (Nat.not_lt.2 hmax)
    exact ⟨b₂, hb₂⟩
  · intro b₂ happend
    obtain ⟨hinv₂, hread₂, -⟩ := Buffer.append_of_ok hleaves₁.inv happend
    have hlines₂ : b₂.lines = splitLines 13 10 (tail ++ c₂) := by
      rw [Buffer.lines, hread₂, hread₁]
    obtain ⟨b₂', hleaves₂, hcall₂⟩ :=
      parseRequest_of_parseLines hinv₂ (show ctx₁.parseLines t₂ b₂.lines.1 = _ by
        rw [hlines₂]; exact hparse₂)
    obtain ⟨b', hleaves, hcall⟩ :=
      parseRequest_of_parseLines h (show new.parseLines t b.lines.1 = _ by rw [hlines]; exact hparse)
    refine ⟨ok₂, r₂.1, b₂', ok, r.1, b', hcall₂, hcall, hagree.state_eq, hagree.fields, ?_⟩
    rw [hleaves₂.readable_eq, hleaves.readable_eq, hagree.left_eq, hlines₂, hlines]

/-- A request cut between the CR and the LF of its request line. -/
theorem parseRequest_resume_cut :
    ∃ ok₁ ctx₁ b₁' b₂ ok₂ ctx₂ b₂' ok ctx b',
      new.parseRequest (Buffer.holding (ascii "GET / HTTP/1.1\r")) 1 = .ok (ok₁, ctx₁, b₁') ∧
        b₁'.append (ascii "\nHost: a\r\n\r\nX") = .ok b₂ ∧
        ctx₁.parseRequest b₂ 2 = .ok (ok₂, ctx₂, b₂') ∧
        new.parseRequest (Buffer.holding (ascii "GET / HTTP/1.1\r\nHost: a\r\n\r\nX")) 3 =
          .ok (ok, ctx, b') ∧
        ctx₂.state = ctx.state ∧ ctx₂.request.SameFields ctx.request ∧
        b₂'.readable = b'.readable := by
  obtain ⟨h₁, hc₁⟩ := Buffer.holding_spec (ascii "GET / HTTP/1.1\r") (by decide)
  obtain ⟨h, hc⟩ :=
    Buffer.holding_spec (ascii "GET / HTTP/1.1\r\nHost: a\r\n\r\nX") (by decide)
  have hcall : new.parseRequest (Buffer.holding (ascii "GET / HTTP/1.1\r")) 1 =
      .ok (false, new, Buffer.holding (ascii "GET / HTTP/1.1\r")) := rfl
  have hfirst : ∀ l ∈ (splitLines 13 10 (ascii "GET / HTTP/1.1\r" ++
      ascii "\nHost: a\r\n\r\nX")).1.head?, HttpRequest.acceptable l = true := by decide
  obtain ⟨ok₁, ctx₁, b₁', hfirstCall, hreturns, hresume⟩ :=
    parseRequest_resume h₁ hc₁ h hc 1 2 3 hfirst
      (fun ok ctx b' hparse => by
        rw [hcall] at hparse
        cases hparse
        decide)
  rw [hcall] at hfirstCall
  cases hfirstCall
  obtain ⟨b₂, hb₂⟩ := hreturns (by decide) (by decide)
  obtain ⟨ok₂, ctx₂, b₂', ok, ctx, b', hcall₂, hcall', hsame⟩ := hresume b₂ hb₂
  exact ⟨_, _, _, b₂, ok₂, ctx₂, b₂', ok, ctx, b', hcall, hb₂, hcall₂, hcall', hsame⟩

end HttpContext

end MyServer
end MyCppCode
