import MyCppCode.Foundation.Machine
import MyCppCode.Foundation.SqlLexer
import MyCppCode.RssB.Main

/-!
# Statement — the statements that `insert_2_db` makes of an entry

The texts of an entry come from a feed, and `insert_2_db` puts them between quotes as they are.  What
the server makes of the statement is what the lexer of `SqlLexer` reads.  The statement is the intended
one exactly when each of the three texts means itself between quotes (`denotes_iff`): a text that does
not changes the tokens behind it as well, and no choice of the other texts makes good for it.
-/

namespace MyCppCode
namespace RssB

open Foundation
open Foundation.Sql (Token tokens Literal isWordChar)

/-! ## The statements -/

def insertHead : Text := "insert into rss.rss_item (sourceid,title,link,pubdate) values (".toList

def insertSql (sourceid : Nat) (title link pubdate : Text) : Text :=
  insertHead ++ decimal sourceid ++ ",'".toList ++ title ++ "','".toList ++ link ++ "','".toList ++
    pubdate ++ "');".toList

def selectHead : Text := "select max(id) from rss.rss_item where link='".toList

def selectSql (link : Text) : Text := selectHead ++ link ++ "'".toList

/-! ## The tokens that they should have -/

def word (text : String) : Token := .word text.toList

def insertHeadTokens : List Token :=
  [word "insert", word "into", word "rss", .punct '.', word "rss_item", .punct '(', word "sourceid",
    .punct ',', word "title", .punct ',', word "link", .punct ',', word "pubdate", .punct ')',
    word "values", .punct '(']

/-- One `insert` with three string literals, which denote the three texts. -/
def insertTokens (sourceid : Nat) (title link pubdate : Text) : List Token :=
  insertHeadTokens ++ [.word (decimal sourceid), .punct ',', .string title, .punct ',', .string link,
    .punct ',', .string pubdate, .punct ')', .punct ';']

def selectHeadTokens : List Token :=
  [word "select", word "max", .punct '(', word "id", .punct ')', word "from", word "rss", .punct '.',
    word "rss_item", word "where", word "link", .punct '=']

/-- The `select`, whose literal denotes the link. -/
def selectTokens (link : Text) : List Token := selectHeadTokens ++ [.string link]

/-- The two statements of an entry mean what they should. -/
structure Denotes (sourceid : Nat) (entry : RssEntry) : Prop where
  insert : tokens (insertSql sourceid entry.getTitle entry.link entry.pubdate) =
    some (insertTokens sourceid entry.getTitle entry.link entry.pubdate)
  select : tokens (selectSql entry.link) = some (selectTokens entry.link)

/-! ## How the lexer reads the parts that are fixed -/

theorem start_digit (ts : List Token) {c : Char} (h : c.isDigit = true) :
    Sql.start ts c = ⟨ts, .word [c]⟩ := by
  have hne : ∀ d : Char, d.isDigit = false → c ≠ d := by
    rintro d hd rfl
    rw [h] at hd
    cases hd
  have hspace : c.isWhitespace = false := by
    simp [Char.isWhitespace, hne ' ' (by decide), hne '\t' (by decide), hne '\r' (by decide),
      hne '\n' (by decide)]
  have hword : isWordChar c = true := by
    simp [isWordChar, Char.isAlphanum, h]
  simp [Sql.start, hspace, hword, hne '\'' (by decide), hne '"' (by decide), hne '#' (by decide),
    hne '-' (by decide), hne '/' (by decide)]

theorem foldl_decimal (ts : List Token) (n : Nat) :
    (decimal n).foldl Sql.step ⟨ts, .blank⟩ = ⟨ts, .word (decimal n)⟩ := by
  have hdigit : ∀ c ∈ decimal n, c.isDigit = true := fun c hc =>
    Nat.isDigit_of_mem_toDigits (by decide) (by decide) hc
  have hne : decimal n ≠ [] := Nat.toDigits_ne_nil
  obtain ⟨c, w, hw⟩ := List.exists_cons_of_ne_nil hne
  rw [hw] at hdigit ⊢
  rw [List.forall_mem_cons] at hdigit
  have hstart : Sql.step ⟨ts, .blank⟩ c = ⟨ts, .word [c]⟩ := start_digit ts hdigit.1
  rw [List.foldl_cons, hstart, Sql.foldl_step_word]
  · rfl
  · intro c' hc'
    simp [isWordChar, Char.isAlphanum, hdigit.2 c' hc']

/-- The state of the lexer behind the opening quote of the title. -/
theorem foldl_insertHead (sourceid : Nat) :
    (insertHead ++ decimal sourceid ++ ",'".toList).foldl Sql.step ⟨[], .blank⟩ =
      ⟨insertHeadTokens ++ [.word (decimal sourceid), .punct ','], .string '\'' []⟩ := by
  have hhead : insertHead.foldl Sql.step ⟨[], .blank⟩ = ⟨insertHeadTokens, .blank⟩ := by
    decide +kernel
  have hquote : ",'".toList.foldl Sql.step ⟨insertHeadTokens, .word (decimal sourceid)⟩ =
      ⟨insertHeadTokens ++ [.word (decimal sourceid)] ++ [.punct ','], .string '\'' []⟩ := rfl
  rw [List.foldl_append, List.foldl_append, hhead, foldl_decimal, hquote, List.append_assoc]
  rfl

theorem foldl_selectHead :
    selectHead.foldl Sql.step ⟨[], .blank⟩ = ⟨selectHeadTokens, .string '\'' []⟩ := by
  decide +kernel

/-- A quote, a comma and a quote lead from one literal to the next. -/
theorem foldl_separator (ts : List Token) (d : Text) :
    "','".toList.foldl Sql.step ⟨ts, .string '\'' d⟩ =
      ⟨ts ++ [.string d, .punct ','], .string '\'' []⟩ := by
  have hquote : "','".toList.foldl Sql.step ⟨ts, .string '\'' d⟩ =
      ⟨ts ++ [.string d] ++ [.punct ','], .string '\'' []⟩ := rfl
  rw [hquote, List.append_assoc]
  rfl

theorem foldl_insertTail (ts : List Token) (d : Text) :
    "');".toList.foldl Sql.step ⟨ts, .string '\'' d⟩ =
      ⟨ts ++ [.string d, .punct ')', .punct ';'], .blank⟩ := by
  have htail : "');".toList.foldl Sql.step ⟨ts, .string '\'' d⟩ =
      ⟨ts ++ [.string d] ++ [.punct ')'] ++ [.punct ';'], .blank⟩ := rfl
  rw [htail, List.append_assoc, List.append_assoc]
  rfl

/-! ## The statements of texts that mean themselves -/

theorem tokens_insertSql {sourceid : Nat} {title link pubdate : Text} (htitle : Literal title)
    (hlink : Literal link) (hpubdate : Literal pubdate) :
    tokens (insertSql sourceid title link pubdate) =
      some (insertTokens sourceid title link pubdate) := by
  unfold tokens insertSql
  rw [List.foldl_append, List.foldl_append, List.foldl_append, List.foldl_append, List.foldl_append,
    List.foldl_append, foldl_insertHead, Sql.foldl_step_literal htitle, List.nil_append,
    foldl_separator, Sql.foldl_step_literal hlink, List.nil_append, foldl_separator,
    Sql.foldl_step_literal hpubdate, List.nil_append, foldl_insertTail]
  rfl

theorem tokens_selectSql {link : Text} (hlink : Literal link) :
    tokens (selectSql link) = some (selectTokens link) := by
  unfold tokens selectSql
  rw [List.foldl_append, List.foldl_append, foldl_selectHead, Sql.foldl_step_literal hlink,
    List.nil_append]
  rfl

/-! ## The statements of all other texts -/

/-- From the literal of one text to that of the next. -/
theorem next_literal {ts more : List Token} {text next rest : Text}
    (h : Sql.ReadsAs ts [] text (",'".toList ++ next ++ '\'' :: rest)
      (.punct ',' :: .string next :: more)) :
    Sql.ReadsAs (ts ++ [.string text, .punct ',']) [] next rest more := by
  have hread : (text ++ "','".toList).foldl Sql.step ⟨ts, .string '\'' []⟩ =
      ⟨ts ++ [.string text, .punct ','], .string '\'' []⟩ := by
    rw [List.foldl_append, Sql.foldl_step_literal h.literal, List.nil_append, foldl_separator]
  have hsplit : text ++ '\'' :: (",'".toList ++ next ++ '\'' :: rest) =
      (text ++ "','".toList) ++ (next ++ '\'' :: rest) := by
    simp
  obtain ⟨hloss, hfinish⟩ := h
  rw [hsplit] at hloss hfinish
  rw [List.foldl_append, hread] at hfinish
  constructor
  · rw [← hread]
    exact hloss.append
  · rw [hfinish]
    simp

/-- The three literals of the first statement, one after the other. -/
theorem literal_of_readsAs {ts : List Token} {title link pubdate : Text}
    (htitle : Sql.ReadsAs ts [] title
      (",'".toList ++ link ++ '\'' :: (",'".toList ++ pubdate ++ '\'' :: ");".toList))
      (.punct ',' :: .string link :: .punct ',' :: .string pubdate :: .punct ')' :: [.punct ';'])) :
    Literal title ∧ Literal link ∧ Literal pubdate := by
  have hlink := next_literal htitle
  have hpubdate := next_literal hlink
  exact ⟨htitle.literal, hlink.literal, hpubdate.literal⟩

theorem literal_of_tokens_insertSql {sourceid : Nat} {title link pubdate : Text}
    (h : tokens (insertSql sourceid title link pubdate) =
      some (insertTokens sourceid title link pubdate)) :
    Literal title ∧ Literal link ∧ Literal pubdate := by
  obtain ⟨ts, hts⟩ : ∃ ts, ts = insertHeadTokens ++ [.word (decimal sourceid), .punct ','] := ⟨_, rfl⟩
  have hhead := foldl_insertHead sourceid
  rw [← hts] at hhead
  have hsql : insertSql sourceid title link pubdate =
      (insertHead ++ decimal sourceid ++ ",'".toList) ++ (title ++ '\'' ::
        (",'".toList ++ link ++ '\'' :: (",'".toList ++ pubdate ++ '\'' :: ");".toList))) := by
    simp [insertSql]
  have htokens : insertTokens sourceid title link pubdate =
      ts ++ .string ([] ++ title) :: .punct ',' :: .string link :: .punct ',' :: .string pubdate ::
        .punct ')' :: [.punct ';'] := by
    simp [insertTokens, hts]
  rw [hsql, htokens] at h
  -- the tokens are as large as the characters allow
  have hcost : Sql.cost (ts ++ .string ([] ++ title) :: .punct ',' :: .string link :: .punct ',' ::
      .string pubdate :: .punct ')' :: [.punct ';']) =
        (Sql.Lexer.mk ts (.string '\'' [])).cost + (title ++ '\'' ::
          (",'".toList ++ link ++ '\'' :: (",'".toList ++ pubdate ++ '\'' :: ");".toList))).length := by
    simp [Sql.Lexer.cost, Sql.Mode.cost, Token.cost]
    omega
  obtain ⟨hloss, hfinish⟩ := Sql.lossless_of_tokens hhead h hcost
  exact literal_of_readsAs ⟨hloss, hfinish⟩

/-! ## An entry -/

/-- The replacement for an empty title changes nothing. -/
theorem literal_getTitle (entry : RssEntry) : Literal entry.getTitle ↔ Literal entry.title := by
  unfold RssEntry.getTitle
  split
  · rename_i hempty
    have hplain : ∀ c ∈ "no title".toList, c ≠ '\'' ∧ c ≠ '\\' := by simp
    rw [List.isEmpty_iff.1 hempty]
    exact iff_of_true (Sql.literal_of_forall hplain) Literal.nil
  · rfl

/-- The statements of an entry mean what they should exactly when its three texts mean themselves between
quotes. -/
theorem denotes_iff (sourceid : Nat) (entry : RssEntry) :
    Denotes sourceid entry ↔
      Literal entry.title ∧ Literal entry.link ∧ Literal entry.pubdate := by
  rw [← literal_getTitle]
  constructor
  · intro h
    exact literal_of_tokens_insertSql h.insert
  · rintro ⟨htitle, hlink, hpubdate⟩
    exact ⟨tokens_insertSql htitle hlink hpubdate, tokens_selectSql hlink⟩

/-! ## What the server reads -/

/-- The title, the link and the date that the server reads in a statement, if it is the `insert` of one row
of this source. -/
def readInsert (sourceid : Nat) (sql : Text) : Option (Text × Text × Text) :=
  match tokens sql with
  | some ts =>
      match ts.drop (insertHeadTokens.length + 2) with
      | [.string title, _, .string link, _, .string pubdate, _, _] =>
          if ts = insertTokens sourceid title link pubdate then some (title, link, pubdate) else none
      | _ => none
  | none => none

/-- The link that the server reads in a statement, if it is a `select` of the id. -/
def readSelect (sql : Text) : Option Text :=
  match tokens sql with
  | some ts =>
      match ts.drop selectHeadTokens.length with
      | [.string link] => if ts = selectTokens link then some link else none
      | _ => none
  | none => none

/-- Of texts that mean themselves the server reads these texts. -/
theorem readInsert_insertSql {sourceid : Nat} {title link pubdate : Text} (htitle : Literal title)
    (hlink : Literal link) (hpubdate : Literal pubdate) :
    readInsert sourceid (insertSql sourceid title link pubdate) = some (title, link, pubdate) := by
  have hrest : (insertTokens sourceid title link pubdate).drop (insertHeadTokens.length + 2) =
      [.string title, .punct ',', .string link, .punct ',', .string pubdate, .punct ')', .punct ';'] := rfl
  rw [readInsert, tokens_insertSql htitle hlink hpubdate]
  dsimp only
  rw [hrest]
  exact if_pos rfl

/-- A feed with a title that ends the literal and the statement. -/
def injection : RssEntry where
  title := "x','y','z'); delete from rss.rss_item; -- ".toList
  link := "https://example.org/1".toList
  description := []
  pubdate := "Mon, 01 Jan 2024".toList

/-- The `insert` of three other texts, and a second statement. -/
theorem injection_not_denotes :
    tokens (insertSql 7 injection.getTitle injection.link injection.pubdate) =
        some (insertTokens 7 ['x'] ['y'] ['z'] ++
          [word "delete", word "from", word "rss", .punct '.', word "rss_item", .punct ';']) ∧
      ¬ Denotes 7 injection := by
  have htokens : tokens (insertSql 7 injection.getTitle injection.link injection.pubdate) =
      some (insertTokens 7 ['x'] ['y'] ['z'] ++
        [word "delete", word "from", word "rss", .punct '.', word "rss_item", .punct ';']) := by
    decide +kernel
  refine ⟨htokens, fun h => ?_⟩
  have heq := congrArg (Option.map List.length) (htokens.symm.trans h.insert)
  simp [insertTokens] at heq

end RssB
end MyCppCode
