import Mathlib.Algebra.Order.Group.Nat
import Mathlib.Data.List.Basic
import Mathlib.Tactic.Linarith

/-!
# SqlLexer — the tokens of a statement, and the texts that a string literal means as they stand

A lexer for the statements of MySQL that reads one character after the other: words, punctuation,
comments, and string literals with their two ways to write a quote, doubled or behind a backslash.
Adjacent string literals are one.

* `tokens cs`: the tokens of the characters `cs`, if they do not end inside a literal or a comment;
* `Literal text`: between quotes `text` means itself;
* `foldl_step_literal`: how the lexer reads such a text;
* `cost`: no character adds more than one to the size of what has been read.  A run of characters in
  which none adds less (`Lossless`) leaves no room for a quote or a backslash that means something
  else: `literal_of_lossless`.
-/

namespace MyCppCode
namespace Foundation
namespace Sql

/-! ## The lexer -/

inductive Token
  | word (text : List Char)
  | punct (c : Char)
  | string (text : List Char)
  deriving DecidableEq, Repr

/-- Where the lexer is.  `quote` is behind a quote that ends the literal, or is the first of two. -/
inductive Mode
  | blank
  | word (text : List Char)
  | string (q : Char) (text : List Char)
  | escape (q : Char) (text : List Char)
  | quote (q : Char) (text : List Char)
  | dash
  | dashes
  | slash
  | line
  | block
  | blockStar
  deriving DecidableEq, Repr

structure Lexer where
  tokens : List Token
  mode : Mode
  deriving DecidableEq, Repr

def isWordChar (c : Char) : Bool := c.isAlphanum || c = '_' || c = '$' || decide (128 ≤ c.toNat)

/-- What a backslash and `c` stand for. -/
def unescape (c : Char) : List Char :=
  if c = '0' then ['\x00']
  else if c = 'b' then ['\x08']
  else if c = 'n' then ['\n']
  else if c = 'r' then ['\r']
  else if c = 't' then ['\t']
  else if c = 'Z' then ['\x1a']
  else if c = '%' ∨ c = '_' then ['\\', c]
  else [c]

/-- A character between two tokens. -/
def start (tokens : List Token) (c : Char) : Lexer :=
  if c.isWhitespace then ⟨tokens, .blank⟩
  else if c = '\'' ∨ c = '"' then ⟨tokens, .string c []⟩
  else if c = '#' then ⟨tokens, .line⟩
  else if c = '-' then ⟨tokens, .dash⟩
  else if c = '/' then ⟨tokens, .slash⟩
  else if isWordChar c then ⟨tokens, .word [c]⟩
  else ⟨tokens ++ [.punct c], .blank⟩

def step (l : Lexer) (c : Char) : Lexer :=
  match l.mode with
  | .blank => start l.tokens c
  | .word text =>
      if isWordChar c then ⟨l.tokens, .word (text ++ [c])⟩ else start (l.tokens ++ [.word text]) c
  | .string q text =>
      if c = q then ⟨l.tokens, .quote q text⟩
      else if c = '\\' then ⟨l.tokens, .escape q text⟩
      else ⟨l.tokens, .string q (text ++ [c])⟩
  | .escape q text => ⟨l.tokens, .string q (text ++ unescape c)⟩
  | .quote q text =>
      if c = q then ⟨l.tokens, .string q (text ++ [q])⟩ else start (l.tokens ++ [.string text]) c
  | .dash => if c = '-' then ⟨l.tokens, .dashes⟩ else start (l.tokens ++ [.punct '-']) c
  | .dashes =>
      if c = '\n' then ⟨l.tokens, .blank⟩
      else if c.isWhitespace then ⟨l.tokens, .line⟩
      else start (l.tokens ++ [.punct '-', .punct '-']) c
  | .slash => if c = '*' then ⟨l.tokens, .block⟩ else start (l.tokens ++ [.punct '/']) c
  | .line => if c = '\n' then ⟨l.tokens, .blank⟩ else l
  | .block => if c = '*' then ⟨l.tokens, .blockStar⟩ else l
  | .blockStar =>
      if c = '/' then ⟨l.tokens, .blank⟩
      else if c = '*' then l
      else ⟨l.tokens, .block⟩

/-- The end of the statement. -/
def finish (l : Lexer) : Option (List Token) :=
  match l.mode with
  | .blank | .line => some l.tokens
  | .word text => some (l.tokens ++ [.word text])
  | .quote _ text => some (l.tokens ++ [.string text])
  | .dash => some (l.tokens ++ [.punct '-'])
  | .dashes => some (l.tokens ++ [.punct '-', .punct '-'])
  | .slash => some (l.tokens ++ [.punct '/'])
  | .string .. | .escape .. | .block | .blockStar => none

/-- A string literal in front of another one is joined to it. -/
def join : Token → List Token → List Token
  | .string a, .string b :: ts => .string (a ++ b) :: ts
  | t, ts => t :: ts

def joinStrings (ts : List Token) : List Token := ts.foldr join []

def tokens (cs : List Char) : Option (List Token) :=
  (finish (cs.foldl step ⟨[], .blank⟩)).map joinStrings

/-! ## Literals that mean themselves -/

/-- Between quotes the text means itself: it has neither a quote nor a backslash, except for the
backslashes that are kept, those in front of `%` and `_`. -/
inductive Literal : List Char → Prop where
  | nil : Literal []
  | char {c : Char} {text : List Char} :
      c ≠ '\'' → c ≠ '\\' → Literal text → Literal (c :: text)
  | pair {c : Char} {text : List Char} :
      c = '%' ∨ c = '_' → Literal text → Literal ('\\' :: c :: text)

theorem literal_of_forall {text : List Char} (h : ∀ c ∈ text, c ≠ '\'' ∧ c ≠ '\\') : Literal text := by
  induction text with
  | nil => exact Literal.nil
  | cons c text ih =>
      rw [List.forall_mem_cons] at h
      exact Literal.char h.1.1 h.1.2 (ih h.2)

theorem unescape_pair {c : Char} (h : c = '%' ∨ c = '_') : unescape c = ['\\', c] := by
  rcases h with rfl | rfl <;> rfl

theorem foldl_step_literal {text : List Char} (h : Literal text) (ts : List Token) (d : List Char) :
    text.foldl step ⟨ts, .string '\'' d⟩ = ⟨ts, .string '\'' (d ++ text)⟩ := by
  induction h generalizing d with
  | nil => simp
  | @char c text hq hb _ ih =>
      have hstep : step ⟨ts, .string '\'' d⟩ c = ⟨ts, .string '\'' (d ++ [c])⟩ := by
        simp [step, hq, hb]
      rw [List.foldl_cons, hstep, ih, List.append_assoc, List.singleton_append]
  | @pair c text hc _ ih =>
      have hstep : step (step ⟨ts, .string '\'' d⟩ '\\') c = ⟨ts, .string '\'' (d ++ ['\\', c])⟩ := by
        simp [step, unescape_pair hc]
      rw [List.foldl_cons, List.foldl_cons, hstep, ih, List.append_assoc]
      rfl

/-- A word is read up to the character that ends it. -/
theorem foldl_step_word {w : List Char} (h : ∀ c ∈ w, isWordChar c = true) (ts : List Token)
    (d : List Char) : w.foldl step ⟨ts, .word d⟩ = ⟨ts, .word (d ++ w)⟩ := by
  induction w generalizing d with
  | nil => simp
  | cons c w ih =>
      rw [List.forall_mem_cons] at h
      have hstep : step ⟨ts, .word d⟩ c = ⟨ts, .word (d ++ [c])⟩ := by
        simp [step, h.1]
      rw [List.foldl_cons, hstep, ih h.2, List.append_assoc, List.singleton_append]

/-! ## The size of what has been read -/

/-- The number of characters that a token takes at least. -/
def Token.cost : Token → Nat
  | .word text => text.length
  | .punct _ => 1
  | .string text => text.length + 2

/-- The characters of the token that the lexer is in.  A backslash is taken to be kept. -/
def Mode.cost : Mode → Nat
  | .blank | .line | .block | .blockStar => 0
  | .word text => text.length
  | .string _ text => text.length + 1
  | .escape _ text => text.length + 2
  | .quote _ text => text.length + 2
  | .dash | .slash => 1
  | .dashes => 2

def cost (ts : List Token) : Nat := (ts.map Token.cost).sum

def Lexer.cost (l : Lexer) : Nat := Sql.cost l.tokens + l.mode.cost

@[simp] theorem cost_nil : cost [] = 0 := rfl

@[simp] theorem cost_cons (t : Token) (ts : List Token) : cost (t :: ts) = t.cost + cost ts := by
  simp [cost]

@[simp] theorem cost_append (ts us : List Token) : cost (ts ++ us) = cost ts + cost us := by
  simp [cost]

theorem start_cost_le (ts : List Token) (c : Char) : (start ts c).cost ≤ cost ts + 1 := by
  unfold start
  split_ifs <;> simp [Lexer.cost, Mode.cost, Token.cost]

theorem length_unescape_le (c : Char) : (unescape c).length ≤ 2 := by
  unfold unescape
  split_ifs <;> simp

/-- The character that ends a token begins another one. -/
theorem start_append_cost_le (ts us : List Token) (c : Char) :
    (start (ts ++ us) c).cost ≤ cost ts + cost us + 1 := by
  rw [← cost_append]
  exact start_cost_le (ts ++ us) c

/-- A character adds at most one to the size. -/
theorem step_cost_le (l : Lexer) (c : Char) : (step l c).cost ≤ l.cost + 1 := by
  obtain ⟨ts, mode⟩ := l
  cases mode with
  | blank => exact start_cost_le ts c
  | word text =>
      have hstart := start_append_cost_le ts [.word text] c
      simp only [step]
      split_ifs
      · simp only [Lexer.cost, Mode.cost, List.length_append, List.length_singleton]
        omega
      · simpa [Lexer.cost, Mode.cost, Token.cost] using hstart
  | string q text =>
      simp only [step]
      split_ifs <;> simp [Lexer.cost, Mode.cost] <;> omega
  | escape q text =>
      have hlen := length_unescape_le c
      simp only [step, Lexer.cost, Mode.cost, List.length_append]
      omega
  | quote q text =>
      have hstart := start_append_cost_le ts [.string text] c
      simp only [step]
      split_ifs
      · simp only [Lexer.cost, Mode.cost, List.length_append, List.length_singleton]
        omega
      · simpa [Lexer.cost, Mode.cost, Token.cost] using hstart
  | dash =>
      have hstart := start_append_cost_le ts [.punct '-'] c
      simp only [step]
      split_ifs
      · simp [Lexer.cost, Mode.cost]
      · simpa [Lexer.cost, Mode.cost, Token.cost] using hstart
  | dashes =>
      have hstart := start_append_cost_le ts [.punct '-', .punct '-'] c
      simp only [step]
      split_ifs
      · simp only [Lexer.cost, Mode.cost]
        omega
      · simp only [Lexer.cost, Mode.cost]
        omega
      · simpa [Lexer.cost, Mode.cost, Token.cost] using hstart
  | slash =>
      have hstart := start_append_cost_le ts [.punct '/'] c
      simp only [step]
      split_ifs
      · simp only [Lexer.cost, Mode.cost]
        omega
      · simpa [Lexer.cost, Mode.cost, Token.cost] using hstart
  | line | block | blockStar =>
      simp only [step]
      split_ifs <;> simp [Lexer.cost, Mode.cost]

theorem foldl_step_cost_le (l : Lexer) (cs : List Char) :
    (cs.foldl step l).cost ≤ l.cost + cs.length := by
  induction cs generalizing l with
  | nil => simp
  | cons c cs ih =>
      calc
        ((c :: cs).foldl step l).cost ≤ (step l c).cost + cs.length := ih (step l c)
        _ ≤ l.cost + 1 + cs.length := Nat.add_le_add_right (step_cost_le l c) _
        _ = l.cost + (c :: cs).length := by
              rw [List.length_cons]
              omega

theorem cost_of_finish {l : Lexer} {ts : List Token} (h : finish l = some ts) : cost ts = l.cost := by
  obtain ⟨us, mode⟩ := l
  cases mode <;> simp [finish] at h <;> subst h <;> simp [Lexer.cost, Mode.cost, Token.cost]

theorem cost_join_le (t : Token) (ts : List Token) :
    cost (join t ts) ≤ t.cost + cost ts ∧
      (cost (join t ts) = t.cost + cost ts → join t ts = t :: ts) := by
  unfold join
  split
  · simp [Token.cost]
    omega
  · simp

/-- Joining literals takes from the size, unless there is nothing to join. -/
theorem cost_joinStrings_le (ts : List Token) :
    cost (joinStrings ts) ≤ cost ts ∧ (cost (joinStrings ts) = cost ts → joinStrings ts = ts) := by
  induction ts with
  | nil => simp [joinStrings]
  | cons t ts ih =>
      obtain ⟨hle, heq⟩ := ih
      obtain ⟨hjoin, hjoinEq⟩ := cost_join_le t (joinStrings ts)
      have hfold : joinStrings (t :: ts) = join t (joinStrings ts) := rfl
      rw [hfold, cost_cons]
      refine ⟨by omega, fun hcost => ?_⟩
      rw [hjoinEq (by omega), heq (by omega)]

/-! ## Tokens that have been read stay -/

theorem start_tokens (ts : List Token) (c : Char) : ts <+: (start ts c).tokens := by
  unfold start
  split_ifs <;> simp

theorem prefix_step (l : Lexer) (c : Char) : l.tokens <+: (step l c).tokens := by
  obtain ⟨ts, mode⟩ := l
  have happend : ∀ us, ts <+: (start (ts ++ us) c).tokens := fun us =>
    (List.prefix_append ts us).trans (start_tokens (ts ++ us) c)
  cases mode with
  | blank => exact start_tokens ts c
  | escape q text => exact List.prefix_rfl
  | _ =>
      simp only [step]
      split_ifs <;> first | exact happend _ | exact List.prefix_rfl

theorem prefix_finish {l : Lexer} {cs : List Char} {ts : List Token}
    (h : finish (cs.foldl step l) = some ts) : l.tokens <+: ts := by
  induction cs generalizing l with
  | nil =>
      obtain ⟨us, mode⟩ := l
      cases mode <;> simp [finish] at h <;> subst h <;> simp
  | cons c cs ih => exact (prefix_step l c).trans (ih h)

/-! ## Runs that lose nothing -/

/-- Every character adds one to the size. -/
def Lossless (l : Lexer) (cs : List Char) : Prop := (cs.foldl step l).cost = l.cost + cs.length

theorem Lossless.cons {l : Lexer} {c : Char} {cs : List Char} (h : Lossless l (c :: cs)) :
    (step l c).cost = l.cost + 1 ∧ Lossless (step l c) cs := by
  have hstep := step_cost_le l c
  have hrest := foldl_step_cost_le (step l c) cs
  unfold Lossless at *
  rw [List.foldl_cons, List.length_cons] at h
  omega

theorem Lossless.append {l : Lexer} {cs ds : List Char} (h : Lossless l (cs ++ ds)) :
    Lossless (cs.foldl step l) ds := by
  induction cs generalizing l with
  | nil => exact h
  | cons c cs ih => exact ih h.cons.2

/-- A statement whose tokens are as large as they can be. -/
theorem lossless_of_tokens {pre cs : List Char} {l : Lexer} {ts : List Token}
    (hpre : pre.foldl step ⟨[], .blank⟩ = l) (htokens : tokens (pre ++ cs) = some ts)
    (hcost : cost ts = l.cost + cs.length) :
    Lossless l cs ∧ finish (cs.foldl step l) = some ts := by
  rw [tokens, List.foldl_append, hpre] at htokens
  obtain ⟨us, hus, rfl⟩ := Option.map_eq_some_iff.1 htokens
  obtain ⟨hle, heq⟩ := cost_joinStrings_le us
  have hfinish := cost_of_finish hus
  have hbound := foldl_step_cost_le l cs
  refine ⟨by unfold Lossless; omega, ?_⟩
  rw [heq (by omega)]
  exact hus

/-! ## A literal that is read without loss -/

/-- A second quote, which makes one of two, loses a character. -/
theorem step_quote_cost (ts : List Token) (q : Char) (d : List Char) :
    (step ⟨ts, .quote q d⟩ q).cost = (Lexer.mk ts (.quote q d)).cost := by
  simp only [step, if_true, Lexer.cost, Mode.cost, List.length_append, List.length_singleton]

/-- A backslash that is not kept loses a character. -/
theorem kept_of_step_cost {ts : List Token} {q c : Char} {d : List Char}
    (h : (step ⟨ts, .escape q d⟩ c).cost = (Lexer.mk ts (.escape q d)).cost + 1) :
    c = '%' ∨ c = '_' := by
  by_contra hc
  have hlen : (unescape c).length = 1 := by
    unfold unescape
    split_ifs <;> rfl
  simp only [step, Lexer.cost, Mode.cost, List.length_append, hlen] at h
  omega

/-- Behind the characters `d` of a literal, the lexer reads `text`, a quote and `rest` without loss, and
`text` becomes the rest of the literal. -/
structure ReadsAs (ts : List Token) (d text rest : List Char) (more : List Token) : Prop where
  lossless : Lossless ⟨ts, .string '\'' d⟩ (text ++ '\'' :: rest)
  finish_eq : finish ((text ++ '\'' :: rest).foldl step ⟨ts, .string '\'' d⟩) =
    some (ts ++ .string (d ++ text) :: more)

namespace ReadsAs

variable {ts more : List Token} {d text rest : List Char} {c : Char}

theorem exists_cons (text rest : List Char) : ∃ c cs, text ++ '\'' :: rest = c :: cs := by
  cases text with
  | nil => exact ⟨_, _, rfl⟩
  | cons c text => exact ⟨_, _, rfl⟩

/-- A quote in the text would end the literal too early. -/
theorem ne_quote (h : ReadsAs ts d (c :: text) rest more) : c ≠ '\'' := by
  rintro rfl
  obtain ⟨c', cs, hcs⟩ := exists_cons text rest
  obtain ⟨hloss, hfinish⟩ := h
  have hstep : step ⟨ts, .string '\'' d⟩ '\'' = ⟨ts, .quote '\'' d⟩ := by
    simp [step]
  rw [List.cons_append, hcs] at hloss hfinish
  have hnext := hloss.cons.2.cons.1
  have hprefix := prefix_finish (l := step (step ⟨ts, .string '\'' d⟩ '\'') c') hfinish
  rw [hstep] at hnext hprefix
  have hc' : c' ≠ '\'' := by
    rintro rfl
    rw [step_quote_cost] at hnext
    omega
  have hended : ts ++ [.string d] <+: ts ++ .string (d ++ '\'' :: text) :: more := by
    refine (start_tokens (ts ++ [.string d]) c').trans ?_
    simpa [step, hc'] using hprefix
  rw [List.prefix_append_right_inj] at hended
  simp at hended

theorem char (h : ReadsAs ts d (c :: text) rest more) (hback : c ≠ '\\') :
    ReadsAs ts (d ++ [c]) text rest more := by
  have hstep : step ⟨ts, .string '\'' d⟩ c = ⟨ts, .string '\'' (d ++ [c])⟩ := by
    simp [step, h.ne_quote, hback]
  obtain ⟨hloss, hfinish⟩ := h
  constructor
  · rw [← hstep]
    exact hloss.cons.2
  · rw [← hstep, List.append_assoc, List.singleton_append]
    exact hfinish

/-- A backslash is kept, so it stands in front of another character of the text. -/
theorem pair (h : ReadsAs ts d ('\\' :: text) rest more) :
    ∃ c text', text = c :: text' ∧ (c = '%' ∨ c = '_') ∧
      ReadsAs ts (d ++ ['\\', c]) text' rest more := by
  obtain ⟨hloss, hfinish⟩ := h
  have hback : step ⟨ts, .string '\'' d⟩ '\\' = ⟨ts, .escape '\'' d⟩ := by
    simp [step]
  cases text with
  | nil =>
      -- the closing quote would be the escaped character
      have hcost := hloss.cons.2.cons.1
      rw [hback] at hcost
      exact absurd (kept_of_step_cost hcost) (by decide)
  | cons c text' =>
      have hcost := hloss.cons.2.cons.1
      rw [hback] at hcost
      have hkept := kept_of_step_cost hcost
      have hstep : step (step ⟨ts, .string '\'' d⟩ '\\') c =
          ⟨ts, .string '\'' (d ++ ['\\', c])⟩ := by
        rw [hback]
        simp [step, unescape_pair hkept]
      refine ⟨c, text', rfl, hkept, ?_, ?_⟩
      · rw [← hstep]
        exact hloss.cons.2.cons.2
      · rw [← hstep, List.append_assoc]
        exact hfinish

/-- What is read in this way means itself. -/
theorem literal {ts more : List Token} {d text rest : List Char} (h : ReadsAs ts d text rest more) :
    Literal text := by
  match text, h with
  | [], _ => exact Literal.nil
  | c :: text, h =>
      by_cases hback : c = '\\'
      · subst hback
        obtain ⟨c', text', rfl, hkept, hrest⟩ := h.pair
        exact Literal.pair hkept hrest.literal
      · exact Literal.char h.ne_quote hback (h.char hback).literal
termination_by text.length

end ReadsAs

end Sql
end Foundation
end MyCppCode
