import Mathlib.Logic.Function.Basic
import MyCppCode.MyServer.Buffer

/-!
# HttpRequest — the request and its request line

The request object, the acceptance of a request line, and the headers.  The accepted lines are exactly
those of `IsRequestLine`.  An accepted line is determined by the fields that were read from it
(`requestLine_processRequestLine`), and the headers of a request by the last line of each name.
-/

namespace MyCppCode
namespace MyServer

/-- The bytes of a formatted text. -/
def bytesOf (text : List Char) : Bytes :=
  text.map fun c => UInt8.ofNat c.toNat

/-- The bytes of a string literal. -/
def ascii (s : String) : Bytes := bytesOf s.toList

/-- `std::find(first, last, sep)`: the bytes before the first `sep` and the bytes behind it. -/
def cutAt (sep : UInt8) : Bytes → Option (Bytes × Bytes)
  | [] => none
  | c :: rest =>
      if c = sep then some ([], rest)
      else (cutAt sep rest).map fun r => (c :: r.1, r.2)

/-- What is cut off has no separator, and the separator stands between the two parts. -/
theorem of_cutAt {sep : UInt8} {l x y : Bytes} (h : cutAt sep l = some (x, y)) :
    sep ∉ x ∧ l = x ++ sep :: y := by
  induction l generalizing x with
  | nil => simp [cutAt] at h
  | cons c rest ih =>
      simp only [cutAt] at h
      split at h
      · rename_i hc
        simp only [Option.some.injEq, Prod.mk.injEq] at h
        obtain ⟨rfl, rfl⟩ := h
        simp [hc]
      · rename_i hc
        obtain ⟨⟨x', y'⟩, hcut, heq⟩ := Option.map_eq_some_iff.1 h
        simp only [Prod.mk.injEq] at heq
        obtain ⟨rfl, rfl⟩ := heq
        obtain ⟨hnot, hrest⟩ := ih hcut
        refine ⟨?_, by rw [hrest, List.cons_append]⟩
        rw [List.mem_cons, not_or]
        exact ⟨fun heq => hc heq.symm, hnot⟩

theorem cutAt_eq_none_iff {sep : UInt8} {l : Bytes} : cutAt sep l = none ↔ sep ∉ l := by
  induction l with
  | nil => simp [cutAt]
  | cons c rest ih =>
      by_cases hc : c = sep
      · simp [cutAt, hc]
      · have hc' : ¬ sep = c := fun h => hc h.symm
        simp [cutAt, hc, hc', ih]

theorem cutAt_append {sep : UInt8} {x : Bytes} (h : sep ∉ x) (y : Bytes) :
    cutAt sep (x ++ sep :: y) = some (x, y) := by
  induction x with
  | nil => simp [cutAt]
  | cons c x ih =>
      have hc : c ≠ sep := fun heq => h (by simp [heq])
      have hx : sep ∉ x := fun hmem => h (List.mem_cons_of_mem _ hmem)
      simp [cutAt, hc, ih hx]

/-- `name ": " value`. -/
def headerLine (h : Bytes × Bytes) : Bytes :=
  h.1 ++ 58 :: 32 :: h.2

theorem headerLine_colon (h : Bytes × Bytes) : (58 : UInt8) ∈ headerLine h := by
  simp [headerLine]

/-- `isspace` in the C locale. -/
def isspace (c : UInt8) : Bool :=
  c == 32 || (9 ≤ c && c ≤ 13)

/-- The two loops of `addHeader` that skip the white space on either side of a value. -/
def trim (value : Bytes) : Bytes :=
  ((value.dropWhile isspace).reverse.dropWhile isspace).reverse

/-! ## The request -/

inductive Method
  | Invalid
  | GET
  | POST
  | HEAD
  | PUT
  | DELETE
  deriving DecidableEq, Repr

inductive Version
  | Unknown
  | Http10
  | Http11
  deriving DecidableEq, Repr

/-- The last byte of a request line of the version. -/
def Version.digit : Version → Bytes
  | .Http11 => [49]
  | .Http10 => [48]
  | .Unknown => []

/-- `HttpRequest`.  Of `m_headers` only the mapping is kept, not the order of its buckets. -/
structure HttpRequest where
  method : Method
  version : Version
  path : Bytes
  query : Bytes
  receiveTime : Int
  headers : Bytes → Option Bytes

namespace HttpRequest

def new : HttpRequest :=
  { method := .Invalid
    version := .Unknown
    path := []
    query := []
    receiveTime := 0
    headers := fun _ => none }

def methodOf (m : Bytes) : Method :=
  if m = ascii "GET" then .GET
  else if m = ascii "POST" then .POST
  else if m = ascii "HEAD" then .HEAD
  else if m = ascii "PUT" then .PUT
  else if m = ascii "DELETE" then .DELETE
  else .Invalid

def setMethod (req : HttpRequest) (m : Bytes) : Bool × HttpRequest :=
  (methodOf m != .Invalid, { req with method := methodOf m })

def methodString (req : HttpRequest) : Bytes :=
  match req.method with
  | .GET => ascii "GET"
  | .POST => ascii "POST"
  | .HEAD => ascii "HEAD"
  | .PUT => ascii "PUT"
  | .DELETE => ascii "DELETE"
  | .Invalid => ascii "UNKNOWN"

/-- `addHeader(start, colon, end)`: `value` is what stands behind the colon. -/
def addHeader (req : HttpRequest) (field value : Bytes) : HttpRequest :=
  { req with headers := Function.update req.headers field (some (trim value)) }

def getHeader (req : HttpRequest) (field : Bytes) : Bytes :=
  (req.headers field).getD []

/-- `setPath` and `setQuery` as `processRequestLine` calls them: the query keeps its question mark. -/
def setTarget (req : HttpRequest) (target : Bytes) : HttpRequest :=
  match cutAt 63 target with
  | some (path, query) => { req with path := path, query := 63 :: query }
  | none => { req with path := target }

/-- `HttpContext::processRequestLine`, on the request of the context. -/
def processRequestLine (req : HttpRequest) (line : Bytes) : Bool × HttpRequest :=
  match cutAt 32 line with
  | none => (false, req)
  | some (m, afterMethod) =>
      let req₁ := (req.setMethod m).2
      if (req.setMethod m).1 then
        match cutAt 32 afterMethod with
        | none => (false, req₁)
        | some (target, version) =>
            let req₂ := req₁.setTarget target
            if version.length = 8 ∧ version.take 7 = ascii "HTTP/1." then
              if version.getLast? = some 49 then (true, { req₂ with version := .Http11 })
              else if version.getLast? = some 48 then (true, { req₂ with version := .Http10 })
              else (false, req₂)
            else
              (false, req₂)
      else
        (false, req₁)

/-- The line is accepted as a request line. -/
def acceptable (line : Bytes) : Bool :=
  (HttpRequest.new.processRequestLine line).1

/-- Whether a request line is accepted does not depend on the request it is stored in. -/
theorem processRequestLine_fst (req : HttpRequest) (line : Bytes) :
    (req.processRequestLine line).1 = acceptable line := by
  unfold acceptable processRequestLine
  cases cutAt 32 line with
  | none => rfl
  | some r =>
      by_cases hm : (req.setMethod r.1).1 = true
      · have hm' : (HttpRequest.new.setMethod r.1).1 = true := hm
        simp only [if_pos hm, if_pos hm']
        cases cutAt 32 r.2 with
        | none => rfl
        | some q =>
            by_cases hv : q.2.length = 8 ∧ q.2.take 7 = ascii "HTTP/1."
            · by_cases h₁ : q.2.getLast? = some 49
              · simp only [if_pos hv, if_pos h₁]
              · by_cases h₀ : q.2.getLast? = some 48
                · simp only [if_pos hv, if_neg h₁, if_pos h₀]
                · simp only [if_pos hv, if_neg h₁, if_neg h₀]
            · simp only [if_neg hv]
      · have hm' : ¬ (HttpRequest.new.setMethod r.1).1 = true := hm
        simp only [if_neg hm, if_neg hm']

/-! ## The request line -/

/-- The request line that the fields of a request were read from. -/
def requestLine (req : HttpRequest) : Bytes :=
  req.methodString ++ 32 :: (req.path ++ req.query ++ 32 :: (ascii "HTTP/1." ++ req.version.digit))

theorem methodString_setMethod {m : Bytes} (h : methodOf m ≠ .Invalid) (req : HttpRequest) :
    (req.setMethod m).2.methodString = m := by
  unfold methodOf at h
  unfold setMethod methodOf methodString
  split_ifs at h ⊢ <;> simp_all

theorem setTarget_path_query {req : HttpRequest} (h : req.query = []) (target : Bytes) :
    (req.setTarget target).path ++ (req.setTarget target).query = target := by
  unfold setTarget
  split
  · rename_i path query hcut
    exact (of_cutAt hcut).2.symm
  · simp [h]

theorem setTarget_method (req : HttpRequest) (target : Bytes) :
    (req.setTarget target).method = req.method := by
  unfold setTarget
  split <;> rfl

theorem setTarget_headers (req : HttpRequest) (target : Bytes) :
    (req.setTarget target).headers = req.headers := by
  unfold setTarget
  split <;> rfl

/-- Eight bytes of which seven are known, and the last. -/
theorem version_eq {v : Bytes} {d : UInt8} (h : v.length = 8 ∧ v.take 7 = ascii "HTTP/1.")
    (hd : v.getLast? = some d) : v = ascii "HTTP/1." ++ [d] := by
  obtain ⟨hlen, htake⟩ := h
  have hlast : v.dropLast ++ [d] = v := List.dropLast_append_getLast? d hd
  rw [List.dropLast_eq_take, hlen, htake] at hlast
  exact hlast.symm

/-- The parts of an accepted line, and the request it leaves. -/
theorem processRequestLine_of_acceptable {line : Bytes} (h : acceptable line = true) :
    ∃ m target v, methodOf m ≠ .Invalid ∧ (32 : UInt8) ∉ target ∧ v ≠ Version.Unknown ∧
      line = m ++ 32 :: (target ++ 32 :: (ascii "HTTP/1." ++ Version.digit v)) ∧
      ∀ req : HttpRequest, req.processRequestLine line =
        (true, { (req.setMethod m).2.setTarget target with version := v }) := by
  unfold acceptable processRequestLine at h
  unfold processRequestLine
  cases hline : cutAt 32 line with
  | none => simp [hline] at h
  | some r =>
      obtain ⟨m, rest⟩ := r
      simp only [hline] at h
      by_cases hm : methodOf m ≠ .Invalid
      · have hknown : ∀ req : HttpRequest, (req.setMethod m).1 = true := by
          simp [setMethod, hm]
        simp only [if_pos (hknown _)] at h ⊢
        cases hrest : cutAt 32 rest with
        | none => simp [hrest] at h
        | some q =>
            obtain ⟨target, version⟩ := q
            simp only [hrest] at h
            have htarget : (32 : UInt8) ∉ target := (of_cutAt hrest).1
            have hsplit : line = m ++ 32 :: (target ++ 32 :: version) := by
              rw [(of_cutAt hline).2, (of_cutAt hrest).2]
            by_cases hv : version.length = 8 ∧ version.take 7 = ascii "HTTP/1."
            · by_cases h₁ : version.getLast? = some 49
              · refine ⟨m, target, .Http11, hm, htarget, by decide, ?_, ?_⟩
                · rw [hsplit, version_eq hv h₁]
                  rfl
                · intro req
                  simp only [if_pos hv, if_pos h₁]
              · by_cases h₀ : version.getLast? = some 48
                · refine ⟨m, target, .Http10, hm, htarget, by decide, ?_, ?_⟩
                  · rw [hsplit, version_eq hv h₀]
                    rfl
                  · intro req
                    simp only [if_pos hv, if_neg h₁, if_pos h₀]
                · simp [hv, h₁, h₀] at h
            · simp [hv] at h
      · simp [setMethod, hm] at h

/-- An accepted line can be read off the request. -/
theorem requestLine_processRequestLine {req : HttpRequest} (hreq : req.query = []) {line : Bytes}
    (h : acceptable line = true) : (req.processRequestLine line).2.requestLine = line := by
  obtain ⟨m, target, v, hm, -, -, hline, hprocess⟩ := processRequestLine_of_acceptable h
  have hquery : (req.setMethod m).2.query = [] := hreq
  have htarget := setTarget_path_query hquery target
  have hmethod : ((req.setMethod m).2.setTarget target).methodString = m := by
    rw [methodString, setTarget_method]
    exact methodString_setMethod hm req
  rw [hprocess, hline, requestLine]
  simp only [methodString] at hmethod ⊢
  rw [hmethod, htarget]

/-! ## The lines that are accepted -/

/-- The methods, as they stand in a request line. -/
def methods : List (Bytes × Method) :=
  [(ascii "GET", .GET), (ascii "POST", .POST), (ascii "HEAD", .HEAD), (ascii "PUT", .PUT),
    (ascii "DELETE", .DELETE)]

/-- The digits behind `HTTP/1.`. -/
def versions : List (UInt8 × Version) :=
  [(48, .Http10), (49, .Http11)]

/-- The line is a method, a target without a space and a version, with one space between them. -/
def IsRequestLine (line : Bytes) (method : Method) (target : Bytes) (version : Version) : Prop :=
  ∃ m d, (m, method) ∈ methods ∧ (32 : UInt8) ∉ target ∧ (d, version) ∈ versions ∧
    line = m ++ 32 :: (target ++ 32 :: (ascii "HTTP/1." ++ [d]))

/-- The fields of the request are those of a request line; the target is cut at its first question
mark. -/
structure HasLine (req : HttpRequest) (method : Method) (target : Bytes) (version : Version) : Prop where
  method_eq : req.method = method
  version_eq : req.version = version
  target_eq : req.path ++ req.query = target
  path_clean : (63 : UInt8) ∉ req.path
  query_mark : req.query = [] ∨ req.query.head? = some 63

theorem mem_methods_iff {m : Bytes} {method : Method} :
    (m, method) ∈ methods ↔ methodOf m = method ∧ method ≠ .Invalid := by
  constructor
  · intro h
    simp only [methods, List.mem_cons, Prod.mk.injEq, List.not_mem_nil, or_false] at h
    rcases h with ⟨rfl, rfl⟩ | ⟨rfl, rfl⟩ | ⟨rfl, rfl⟩ | ⟨rfl, rfl⟩ | ⟨rfl, rfl⟩
    all_goals decide
  · rintro ⟨rfl, h⟩
    unfold methodOf at h ⊢
    split_ifs at h ⊢
    case neg => exact absurd rfl h
    all_goals
      subst m
      decide

/-- A method has no space in it. -/
theorem not_mem_of_methodOf {m : Bytes} (h : methodOf m ≠ .Invalid) : (32 : UInt8) ∉ m := by
  have hall : ∀ r ∈ methods, (32 : UInt8) ∉ r.1 := by decide
  exact hall (m, methodOf m) (mem_methods_iff.2 ⟨rfl, h⟩)

/-- A line of a method, a target without a space and a version is accepted. -/
theorem processRequestLine_of_parts {m target : Bytes} {v : Version} (hm : methodOf m ≠ .Invalid)
    (htarget : (32 : UInt8) ∉ target) (hv : v ≠ .Unknown) (req : HttpRequest) :
    req.processRequestLine (m ++ 32 :: (target ++ 32 :: (ascii "HTTP/1." ++ v.digit))) =
      (true, { (req.setMethod m).2.setTarget target with version := v }) := by
  have hknown : (req.setMethod m).1 = true := by
    simpa [setMethod] using hm
  unfold processRequestLine
  rw [cutAt_append (not_mem_of_methodOf hm)]
  simp only [if_pos hknown, cutAt_append htarget]
  -- The two digits that end a version line.
  cases v with
  | Unknown => exact absurd rfl hv
  | Http10 =>
      have h8 : (ascii "HTTP/1." ++ Version.digit .Http10).length = 8 ∧
          (ascii "HTTP/1." ++ Version.digit .Http10).take 7 = ascii "HTTP/1." := by decide
      have h1 : ¬ (ascii "HTTP/1." ++ Version.digit .Http10).getLast? = some 49 := by decide
      have h0 : (ascii "HTTP/1." ++ Version.digit .Http10).getLast? = some 48 := by decide
      rw [if_pos h8, if_neg h1, if_pos h0]
  | Http11 =>
      have h8 : (ascii "HTTP/1." ++ Version.digit .Http11).length = 8 ∧
          (ascii "HTTP/1." ++ Version.digit .Http11).take 7 = ascii "HTTP/1." := by decide
      have h1 : (ascii "HTTP/1." ++ Version.digit .Http11).getLast? = some 49 := by decide
      rw [if_pos h8, if_pos h1]

theorem mem_versions_iff {d : UInt8} {version : Version} :
    (d, version) ∈ versions ↔ version.digit = [d] := by
  cases version with
  | Unknown => simp [versions, Version.digit]
  | Http10 => simp [versions, Version.digit, eq_comm]
  | Http11 => simp [versions, Version.digit, eq_comm]

theorem exists_digit {version : Version} (h : version ≠ .Unknown) : ∃ d, version.digit = [d] := by
  cases version with
  | Unknown => exact absurd rfl h
  | Http10 => exact ⟨48, rfl⟩
  | Http11 => exact ⟨49, rfl⟩

theorem isRequestLine_iff {line target : Bytes} {method : Method} {version : Version} :
    IsRequestLine line method target version ↔
      ∃ m, methodOf m = method ∧ method ≠ .Invalid ∧ (32 : UInt8) ∉ target ∧ version ≠ .Unknown ∧
        line = m ++ 32 :: (target ++ 32 :: (ascii "HTTP/1." ++ version.digit)) := by
  constructor
  · rintro ⟨m, d, hm, htarget, hd, rfl⟩
    obtain ⟨hmethod, hknown⟩ := mem_methods_iff.1 hm
    rw [mem_versions_iff] at hd
    refine ⟨m, hmethod, hknown, htarget, ?_, by rw [hd]⟩
    rintro rfl
    cases hd
  · rintro ⟨m, hmethod, hknown, htarget, hversion, rfl⟩
    obtain ⟨d, hd⟩ := exists_digit hversion
    exact ⟨m, d, mem_methods_iff.2 ⟨hmethod, hknown⟩, htarget, mem_versions_iff.2 hd, by rw [hd]⟩

/-- Cutting the target, where no query was there before. -/
theorem setTarget_cut {req : HttpRequest} (h : req.query = []) (target : Bytes) :
    (63 : UInt8) ∉ (req.setTarget target).path ∧
      ((req.setTarget target).query = [] ∨ (req.setTarget target).query.head? = some 63) := by
  unfold setTarget
  split
  · rename_i path query hcut
    exact ⟨(of_cutAt hcut).1, Or.inr rfl⟩
  · rename_i hcut
    exact ⟨cutAt_eq_none_iff.1 hcut, Or.inl h⟩

/-- On every line: a fresh request accepts it exactly when it is a request line, and has its fields
then. -/
theorem processRequestLine_accepts (line : Bytes) :
    ((HttpRequest.new.processRequestLine line).1 = true ↔
        ∃ method target version, IsRequestLine line method target version) ∧
      ∀ method target version, IsRequestLine line method target version →
        HasLine (HttpRequest.new.processRequestLine line).2 method target version := by
  refine ⟨⟨?_, ?_⟩, ?_⟩
  · intro h
    obtain ⟨m, target, v, hm, htarget, hv, hline, -⟩ := processRequestLine_of_acceptable h
    exact ⟨methodOf m, target, v, isRequestLine_iff.2 ⟨m, rfl, hm, htarget, hv, hline⟩⟩
  · rintro ⟨method, target, v, h⟩
    obtain ⟨m, rfl, hm, htarget, hv, rfl⟩ := isRequestLine_iff.1 h
    rw [processRequestLine_of_parts hm htarget hv]
  · intro method target v h
    obtain ⟨m, rfl, hm, htarget, hv, rfl⟩ := isRequestLine_iff.1 h
    rw [processRequestLine_of_parts hm htarget hv]
    have hquery : (HttpRequest.new.setMethod m).2.query = [] := rfl
    obtain ⟨hpath, hmark⟩ := setTarget_cut hquery target
    exact
      { method_eq := setTarget_method _ target
        version_eq := rfl
        target_eq := setTarget_path_query hquery target
        path_clean := hpath
        query_mark := hmark }

/-- The target may be empty, and a space more is a space too many. -/
example : acceptable (ascii "GET  HTTP/1.0") = true ∧ acceptable (ascii "GET / HTTP/1.0 ") = false := by
  decide

/-! ## The headers -/

/-- One header line. -/
def addLine (req : HttpRequest) (line : Bytes) : HttpRequest :=
  match cutAt 58 line with
  | some (field, value) => req.addHeader field value
  | none => req

/-- The names of the header lines. -/
def fieldNames (ls : List Bytes) : List Bytes :=
  ls.filterMap fun l => (cutAt 58 l).map Prod.fst

/-- The request of a request line and of header lines. -/
def ofLines (receiveTime : Int) (line : Bytes) (headerLines : List Bytes) : HttpRequest :=
  headerLines.foldl addLine
    { (HttpRequest.new.processRequestLine line).2 with receiveTime := receiveTime }

/-- The fields that a client determines. -/
structure SameFields (req req' : HttpRequest) : Prop where
  method : req.method = req'.method
  path : req.path = req'.path
  query : req.query = req'.query
  version : req.version = req'.version
  headers : req.headers = req'.headers

theorem SameFields.requestLine_eq {req req' : HttpRequest} (h : SameFields req req') :
    req.requestLine = req'.requestLine := by
  unfold requestLine methodString
  rw [h.method, h.path, h.query, h.version]

/-- With the receive time, the fields are all there is. -/
theorem SameFields.eq {req req' : HttpRequest} (h : SameFields req req')
    (ht : req.receiveTime = req'.receiveTime) : req = req' := by
  obtain ⟨h₁, h₂, h₃, h₄, h₅⟩ := h
  cases req
  cases req'
  simp_all

/-- Header lines change nothing but the headers. -/
theorem foldl_addLine_eq (ls : List Bytes) (req : HttpRequest) :
    ls.foldl addLine req = { req with headers := (ls.foldl addLine req).headers } := by
  induction ls generalizing req with
  | nil => rfl
  | cons l ls ih =>
      have hl : req.addLine l = { req with headers := (req.addLine l).headers } := by
        unfold addLine
        split <;> rfl
      rw [List.foldl_cons, hl]
      exact ih _

theorem requestLine_ofLines {line : Bytes} (h : acceptable line = true) (receiveTime : Int)
    (ls : List Bytes) : (ofLines receiveTime line ls).requestLine = line := by
  rw [ofLines, foldl_addLine_eq]
  exact requestLine_processRequestLine rfl h

theorem ofLines_receiveTime (receiveTime : Int) (line : Bytes) (ls : List Bytes) :
    (ofLines receiveTime line ls).receiveTime = receiveTime := by
  rw [ofLines, foldl_addLine_eq]

/-- A header line decides about its own name. -/
theorem addLine_headers (req : HttpRequest) (line : Bytes) (f : Bytes) :
    (f ∈ fieldNames [line] → ∃ v, ∀ req' : HttpRequest, (req'.addLine line).headers f = some v) ∧
      (f ∉ fieldNames [line] → (req.addLine line).headers f = req.headers f) := by
  cases hcut : cutAt 58 line with
  | none => simp [fieldNames, addLine, hcut]
  | some r =>
      refine ⟨?_, ?_⟩
      · intro hf
        obtain rfl : f = r.1 := by simpa [fieldNames, hcut] using hf
        refine ⟨trim r.2, fun req' => ?_⟩
        simp [addLine, hcut, addHeader]
      · intro hf
        have hne : f ≠ r.1 := by simpa [fieldNames, hcut] using hf
        simp [addLine, hcut, addHeader, hne]

theorem fieldNames_append (ls ls' : List Bytes) :
    fieldNames (ls ++ ls') = fieldNames ls ++ fieldNames ls' :=
  List.filterMap_append

theorem fieldNames_cons (l : Bytes) (ls : List Bytes) :
    fieldNames (l :: ls) = fieldNames [l] ++ fieldNames ls :=
  fieldNames_append [l] ls

/-- A name that does not occur keeps its value. -/
theorem foldl_addLine_headers_of_not_mem {ls : List Bytes} {f : Bytes} (h : f ∉ fieldNames ls)
    (req : HttpRequest) : (ls.foldl addLine req).headers f = req.headers f := by
  induction ls generalizing req with
  | nil => rfl
  | cons l ls ih =>
      rw [fieldNames_cons, List.mem_append, not_or] at h
      rw [List.foldl_cons, ih h.2, (addLine_headers req l f).2 h.1]

/-- The last line of a name decides, whatever was there before. -/
theorem foldl_addLine_headers_of_mem {ls : List Bytes} {f : Bytes} (h : f ∈ fieldNames ls) :
    ∃ v, ∀ req : HttpRequest, (ls.foldl addLine req).headers f = some v := by
  induction ls with
  | nil => simp [fieldNames] at h
  | cons l ls ih =>
      by_cases hls : f ∈ fieldNames ls
      · obtain ⟨v, hv⟩ := ih hls
        exact ⟨v, fun req => hv (req.addLine l)⟩
      · rw [fieldNames_cons, List.mem_append] at h
        obtain ⟨v, hv⟩ := (addLine_headers HttpRequest.new l f).1 (h.resolve_right hls)
        refine ⟨v, fun req => ?_⟩
        rw [List.foldl_cons, foldl_addLine_headers_of_not_mem hls, hv]

theorem ofLines_headers_of_not_mem {ls : List Bytes} {f line : Bytes} (h : f ∉ fieldNames ls)
    (hline : acceptable line = true) (receiveTime : Int) :
    (ofLines receiveTime line ls).headers f = none := by
  obtain ⟨m, target, v, -, -, -, -, hprocess⟩ := processRequestLine_of_acceptable hline
  rw [ofLines, foldl_addLine_headers_of_not_mem h, hprocess]
  change ((HttpRequest.new.setMethod m).2.setTarget target).headers f = none
  rw [setTarget_headers]
  rfl

/-- Two requests, the header lines of one being the last header lines of the other, have the same
fields exactly when they have the same request line and no name occurs only in the lines in front. -/
theorem sameFields_ofLines_iff {line line' : Bytes} (hline : acceptable line = true)
    (hline' : acceptable line' = true) (receiveTime receiveTime' : Int) (front ls : List Bytes) :
    SameFields (ofLines receiveTime line ls) (ofLines receiveTime' line' (front ++ ls)) ↔
      line = line' ∧ fieldNames front ⊆ fieldNames ls := by
  constructor
  · intro h
    refine ⟨?_, ?_⟩
    · have := h.requestLine_eq
      rwa [requestLine_ofLines hline, requestLine_ofLines hline'] at this
    · intro f hf
      by_contra hls
      have hnone := ofLines_headers_of_not_mem hls hline receiveTime
      obtain ⟨v, hv⟩ := foldl_addLine_headers_of_mem hf
      rw [h.headers, ofLines, List.foldl_append, foldl_addLine_headers_of_not_mem hls, hv] at hnone
      cases hnone
  · rintro ⟨rfl, hsub⟩
    have hheaders : (ofLines receiveTime line ls).headers =
        (ofLines receiveTime' line (front ++ ls)).headers := by
      funext f
      by_cases hf : f ∈ fieldNames ls
      · obtain ⟨v, hv⟩ := foldl_addLine_headers_of_mem hf
        rw [ofLines, hv, ofLines, List.foldl_append, hv]
      · have hall : f ∉ fieldNames (front ++ ls) := by
          rw [fieldNames_append, List.mem_append, not_or]
          exact ⟨fun h => hf (hsub h), hf⟩
        rw [ofLines_headers_of_not_mem hf hline, ofLines_headers_of_not_mem hall hline]
    unfold ofLines at hheaders ⊢
    rw [List.foldl_append] at hheaders ⊢
    refine ⟨?_, ?_, ?_, ?_, hheaders⟩ <;>
      rw [foldl_addLine_eq, foldl_addLine_eq ls (List.foldl _ _ front), foldl_addLine_eq front]

end HttpRequest

end MyServer
end MyCppCode
