import MyCppCode.RssB.MainStores
import MyCppCode.RssB.Statement

/-!
# MainLinks — the links that are stored, over any history of feeds

Two filters keep a link from being stored twice: the links of the last rows of the source, as many as
the feed has entries, and `unique(link)`.  The first is only there to save statements: it hides no link
that is not stored (`LinksInv`).

The second compares by the collation of the column, and the statements have the texts of a feed between
quotes as they are.  So a link may be taken for another one, or be read as another one (`OwnLinks` says
when neither happens).  Where neither does, the table is at any time what comes of inserting the links of
all feeds, those of each feed from last to first, into a list without repetitions: `storeFeeds`.

What is still to be done for a feed that has been fetched is in the program counter; `settled` is the
table as it will be when that is done.  A step changes it only by fetching a feed (`settled_step`).
-/

namespace MyCppCode
namespace RssB

open Foundation

universe u

/-! ## Lists without repetitions -/

section InsertNew

variable {α : Type u} [DecidableEq α]

def insertNew (l : List α) (a : α) : List α := if a ∈ l then l else l ++ [a]

theorem insertNew_of_mem {l : List α} {a : α} (h : a ∈ l) : insertNew l a = l := if_pos h

theorem insertNew_of_notMem {l : List α} {a : α} (h : a ∉ l) : insertNew l a = l ++ [a] := if_neg h

theorem mem_insertNew {l : List α} {a b : α} : b ∈ insertNew l a ↔ b ∈ l ∨ b = a := by
  by_cases ha : a ∈ l
  · rw [insertNew_of_mem ha]
    constructor
    · exact Or.inl
    · rintro (h | rfl)
      · exact h
      · exact ha
  · rw [insertNew_of_notMem ha]
    simp

theorem mem_foldl_insertNew {l as : List α} {b : α} :
    b ∈ as.foldl insertNew l ↔ b ∈ l ∨ b ∈ as := by
  induction as generalizing l with
  | nil => simp
  | cons a as ih =>
      rw [List.foldl_cons, ih, mem_insertNew, List.mem_cons]
      tauto

theorem length_le_foldl_insertNew (l as : List α) : l.length ≤ (as.foldl insertNew l).length := by
  induction as generalizing l with
  | nil => exact le_rfl
  | cons a as ih =>
      refine le_trans ?_ (ih (insertNew l a))
      unfold insertNew
      split <;> simp

/-- The list grows exactly when one of the elements is new. -/
theorem length_lt_foldl_insertNew_iff (l as : List α) :
    l.length < (as.foldl insertNew l).length ↔ ∃ a ∈ as, a ∉ l := by
  induction as generalizing l with
  | nil => simp
  | cons a as ih =>
      rw [List.foldl_cons]
      by_cases ha : a ∈ l
      · rw [insertNew_of_mem ha, ih]
        simp [ha]
      · rw [insertNew_of_notMem ha]
        have hle := length_le_foldl_insertNew (l ++ [a]) as
        rw [List.length_append, List.length_singleton] at hle
        exact iff_of_true (by omega) ⟨a, List.mem_cons_self, ha⟩

end InsertNew

/-! ## Feeds -/

def links (rows : List RssItem) : List Text := rows.map RssItem.link

/-- The links of the table after a feed: from the last entry to the first, each if it is new. -/
def storeFeed (stored : List Text) (vre : List RssEntry) : List Text :=
  (vre.reverse.map RssEntry.link).foldl insertNew stored

def storeFeeds (stored : List Text) (feeds : List (List RssEntry)) : List Text :=
  feeds.foldl storeFeed stored

/-- The feeds that are fetched in the course of a run. -/
def fetched (es : List Event) : List (List RssEntry) :=
  es.filterMap fun
    | .getRSS feed => feed
    | _ => none

theorem mem_storeFeeds {stored : List Text} {feeds : List (List RssEntry)} {link : Text} :
    link ∈ storeFeeds stored feeds ↔
      link ∈ stored ∨ ∃ vre ∈ feeds, ∃ entry ∈ vre, entry.link = link := by
  induction feeds generalizing stored with
  | nil => simp [storeFeeds]
  | cons vre feeds ih =>
      show link ∈ storeFeeds (storeFeed stored vre) feeds ↔ _
      rw [ih, storeFeed, mem_foldl_insertNew, List.mem_map]
      simp only [List.mem_reverse, List.exists_mem_cons_iff, or_assoc]

/-! ## What an `insert` does -/

/-- The row that the `insert` of an entry is meant to add. -/
def RssEntry.row (entry : RssEntry) (sourceid id : Nat) : RssItem :=
  ⟨id, sourceid, entry.getTitle, entry.link, entry.pubdate⟩

/-- The texts that the server reads in the `insert` of an entry. -/
def RssEntry.read (entry : RssEntry) (sourceid : Nat) : Option (Text × Text × Text) :=
  readInsert sourceid (insertSql sourceid entry.getTitle entry.link entry.pubdate)

section Collation

variable {κ : Type} (collate : Text → κ)

/-- The keys by which the collation of the column compares the links of the table. -/
def keys (rows : List RssItem) : List κ := (links rows).map collate

/-- The `insert` of these texts is refused if the link is stored, as the collation compares links;
otherwise it adds the row of these texts, with an id above all others. -/
def Inserts (rows : List RssItem) (sourceid : Nat) (texts : Text × Text × Text) (threw : Bool) :
    Effect → Prop
  | .nothing => threw = true ∧ collate texts.2.1 ∈ keys collate rows
  | .row _ => threw = false ∧ collate texts.2.1 ∉ keys collate rows
  | .other after =>
      threw = false ∧ collate texts.2.1 ∉ keys collate rows ∧
        ∃ row ∈ after.getLast?, after = rows ++ [row] ∧ Fresh rows row.id ∧
          row = ⟨row.id, sourceid, texts.1, texts.2.1, texts.2.2⟩

/-- The server reads the link of the entry in the `insert`, and no other link that is stored counts as the
same. -/
def OwnLink (rows : List RssItem) (sourceid : Nat) (entry : RssEntry) : Prop :=
  (∃ texts ∈ entry.read sourceid, texts.2.1 = entry.link) ∧
    ∀ link ∈ links rows, collate link = collate entry.link → link = entry.link

theorem literal_of_plainText {text : Text} {size : Nat} (h : plainText text size = true) :
    Sql.Literal text := by
  simp only [plainText, Bool.and_eq_true, List.all_eq_true] at h
  refine Sql.literal_of_forall fun c hc => ?_
  simpa using h.1 c hc

theorem read_of_plain {entry : RssEntry} (sourceid : Nat) (h : entry.plain = true) :
    entry.read sourceid = some (entry.getTitle, entry.link, entry.pubdate) := by
  simp only [RssEntry.plain, Bool.and_eq_true] at h
  exact readInsert_insertSql (literal_of_plainText h.1.1) (literal_of_plainText h.1.2)
    (literal_of_plainText h.2)

variable {collate}

/-- What an `insert` does that is refused only where its link counts as stored. -/
theorem insertRow_inserts {rows after : List RssItem} {sourceid : Nat} {entry : RssEntry} {threw : Bool}
    {effect : Effect} {texts : Text × Text × Text} (hread : entry.read sourceid = some texts)
    (hok : Inserts collate rows sourceid texts threw effect)
    (h : insertRow rows sourceid entry threw effect = some after) :
    threw = true ∧ collate texts.2.1 ∈ keys collate rows ∧ after = rows ∨
      ∃ id, threw = false ∧ collate texts.2.1 ∉ keys collate rows ∧ Fresh rows id ∧
        after = rows ++ [⟨id, sourceid, texts.1, texts.2.1, texts.2.2⟩] := by
  cases effect with
  | nothing =>
      obtain ⟨rfl, hmem⟩ := hok
      cases h
      exact Or.inl ⟨rfl, hmem, rfl⟩
  | row id =>
      obtain ⟨rfl, hmem⟩ := hok
      simp only [insertRow] at h
      split at h
      · rename_i hcond
        cases h
        obtain rfl := Option.some.inj (hread.symm.trans (read_of_plain sourceid hcond.1))
        exact Or.inr ⟨id, rfl, hmem, hcond.2.1, rfl⟩
      · cases h
  | other after' =>
      obtain ⟨rfl, hmem, row, -, hafter, hfresh, hrow⟩ := hok
      simp only [insertRow] at h
      split at h
      · cases h
      · cases h
        refine Or.inr ⟨row.id, rfl, hmem, hfresh, ?_⟩
        rw [← hrow]
        exact hafter

theorem links_append_row (rows : List RssItem) (row : RssItem) :
    links (rows ++ [row]) = links rows ++ [row.link] := by
  simp [links]

theorem keys_append_row (rows : List RssItem) (row : RssItem) :
    keys collate (rows ++ [row]) = keys collate rows ++ [collate row.link] := by
  simp [keys, links_append_row]

theorem mem_links_of_ownLink {rows : List RssItem} {sourceid : Nat} {entry : RssEntry}
    (hown : OwnLink collate rows sourceid entry) (h : collate entry.link ∈ keys collate rows) :
    entry.link ∈ links rows := by
  obtain ⟨link, hlink, hkey⟩ := List.mem_map.1 h
  rwa [← hown.2 link hlink hkey]

/-- What an `insert` of an entry's own link does. -/
theorem insertRow_ownLink {s : State} {after : List RssItem} {loop : Loop} {entry : RssEntry}
    {threw : Bool} {effect : Effect}
    (hok : ∀ texts ∈ entry.read loop.source.id,
      Inserts collate s.rows loop.source.id texts threw effect)
    (hown : OwnLink collate s.rows loop.source.id entry)
    (h : insertRow s.rows loop.source.id entry threw effect = some after) :
    threw = true ∧ entry.link ∈ links s.rows ∧ after = s.rows ∨
      ∃ row, threw = false ∧ collate entry.link ∉ keys collate s.rows ∧ Fresh s.rows row.id ∧
        row.link = entry.link ∧ after = s.rows ++ [row] := by
  obtain ⟨texts, htexts, hlink⟩ := hown.1
  rcases insertRow_inserts htexts (hok texts htexts) h with
    ⟨hthrew, hmem, hafter⟩ | ⟨id, hthrew, hmem, hfresh, hafter⟩
  · rw [hlink] at hmem
    exact Or.inl ⟨hthrew, mem_links_of_ownLink hown hmem, hafter⟩
  · rw [hlink] at hmem
    exact Or.inr ⟨_, hthrew, hmem, hfresh, hlink, hafter⟩

/-- A link that is not stored is stored by its `insert` exactly where the server reads it and no other link
counts as the same. -/
theorem insertRow_stores_iff {rows after : List RssItem} {sourceid : Nat} {entry : RssEntry}
    {threw : Bool} {effect : Effect} {texts : Text × Text × Text}
    (hread : entry.read sourceid = some texts)
    (hok : Inserts collate rows sourceid texts threw effect)
    (h : insertRow rows sourceid entry threw effect = some after) (hnew : entry.link ∉ links rows) :
    entry.link ∈ links after ↔ OwnLink collate rows sourceid entry := by
  rcases insertRow_inserts hread hok h with ⟨-, hmem, rfl⟩ | ⟨id, -, hmem, -, rfl⟩
  · refine iff_of_false hnew ?_
    rintro hown
    obtain ⟨texts', htexts', hlink⟩ := hown.1
    obtain rfl := Option.some.inj (hread.symm.trans htexts')
    rw [hlink] at hmem
    exact hnew (mem_links_of_ownLink hown hmem)
  · rw [links_append_row, List.mem_append, List.mem_singleton]
    constructor
    · rintro (hold | hlink)
      · exact absurd hold hnew
      · refine ⟨⟨texts, hread, hlink.symm⟩, ?_⟩
        intro link hmem' hkey
        rw [hlink] at hkey
        exact absurd (hkey ▸ List.mem_map_of_mem hmem') hmem
    · rintro ⟨⟨texts', htexts', hlink⟩, -⟩
      obtain rfl := Option.some.inj (hread.symm.trans htexts')
      exact Or.inr hlink.symm

/-! ## The table as it will be -/

/-- The links of the entries that are still to be dealt with. -/
def pending : Pc → List Text
  | .fetched _ vre _ => vre.reverse.map RssEntry.link
  | .entries loop => loop.rest.map RssEntry.link
  | .inserting loop entry => entry.link :: loop.rest.map RssEntry.link
  | .selecting loop _ => loop.rest.map RssEntry.link
  | .storing loop _ _ => loop.rest.map RssEntry.link
  | _ => []

/-- The links of the table when the current feed has been dealt with. -/
def settled (s : State) : List Text := (pending s.pc).foldl insertNew (links s.rows)

/-- The documents are those of the rows, with the same ids and links. -/
def Mirrors (docs : List RssMongo) (rows : List RssItem) : Prop :=
  (docs.map fun doc => (doc.itemid, doc.link)).Perm (rows.map fun row => (row.id, row.link))

/-- A row of the entry has been added, and it is the one row without its document. -/
def Adding (s : State) (entry : RssEntry) (id : Nat) : Prop :=
  ∃ rows row, s.rows = rows ++ [row] ∧ row.link = entry.link ∧ row.id = id ∧ Mirrors s.docs rows

/-- No link is stored twice, the links taken for known are stored, and the documents are those of the
rows, but for the row that is being added. -/
def LinksInv (collate : Text → κ) (s : State) : Prop :=
  (keys collate s.rows).Nodup ∧
    match s.pc with
    | .entries loop => (∀ link ∈ loop.latest, link ∈ links s.rows) ∧ Mirrors s.docs s.rows
    | .inserting loop _ => (∀ link ∈ loop.latest, link ∈ links s.rows) ∧ Mirrors s.docs s.rows
    | .selecting loop entry =>
        (∀ link ∈ loop.latest, link ∈ links s.rows) ∧ ∃ id, Adding s entry id
    | .storing loop entry itemid =>
        (∀ link ∈ loop.latest, link ∈ links s.rows) ∧ Adding s entry itemid
    | _ => Mirrors s.docs s.rows

/-- A link that `get_latest_links` returns is stored. -/
theorem mem_links_of_mem_getLatestLinks {rows : List RssItem} {sourceid count : Nat} {link : Text}
    (h : link ∈ getLatestLinks rows sourceid count) : link ∈ links rows := by
  obtain ⟨row, hrow, hlink⟩ := List.mem_map.1 h
  have hsorted := List.mem_of_mem_take hrow
  rw [List.mem_insertionSort] at hsorted
  exact List.mem_map.2 ⟨row, List.mem_of_mem_filter hsorted, hlink⟩

/-- The document of the row that is being added. -/
theorem mirrors_of_adding {s : State} {entry : RssEntry} {id : Nat} (h : Adding s entry id) :
    Mirrors (s.docs ++ [entry.doc id]) s.rows := by
  obtain ⟨rows, row, hrows, hlink, rfl, hmirrors⟩ := h
  rw [hrows]
  unfold Mirrors
  simp only [List.map_append, List.map_cons, List.map_nil, RssEntry.doc, hlink]
  exact hmirrors.append_right _

variable {s t : State} {e : Event} {es : List Event}

theorem linksInv_insert {loop : Loop} {entry : RssEntry} {effect : Effect} {threw : Bool}
    {rows : List RssItem} (hnodup : (keys collate s.rows).Nodup)
    (hlatest : ∀ link ∈ loop.latest, link ∈ links s.rows) (hmirrors : Mirrors s.docs s.rows)
    (hok : ∀ texts ∈ entry.read loop.source.id,
      Inserts collate s.rows loop.source.id texts threw effect)
    (hown : OwnLink collate s.rows loop.source.id entry)
    (hrows : insertRow s.rows loop.source.id entry threw effect = some rows) :
    LinksInv collate
      { s with rows := rows, pc := if threw then .entries loop else .selecting loop entry } := by
  rcases insertRow_ownLink hok hown hrows with ⟨rfl, -, rfl⟩ | ⟨row, rfl, hnew, -, hlink, rfl⟩
  · exact ⟨hnodup, hlatest, hmirrors⟩
  · refine ⟨?_, ?_, row.id, s.rows, row, rfl, hlink, rfl, hmirrors⟩
    · show (keys collate (s.rows ++ [row])).Nodup
      rw [keys_append_row, hlink, ← List.concat_eq_append]
      exact hnodup.concat hnew
    · intro link hmem
      show link ∈ links (s.rows ++ [row])
      rw [links_append_row]
      exact List.mem_append_left _ (hlatest link hmem)

/-- The loop over the entries is not running. -/
def Pc.idle : Pc → Prop
  | .passStart | .sources _ | .updating .. => True
  | _ => False

theorem settled_of_idle (h : t.pc.idle) : settled t = links t.rows := by
  unfold settled
  cases hpc : t.pc with
  | passStart | sources | updating => rfl
  | _ =>
      rw [hpc] at h
      exact h.elim

theorem LinksInv.mirrors (h : LinksInv collate t) (hidle : t.pc.idle) : Mirrors t.docs t.rows := by
  obtain ⟨-, hpcinv⟩ := h
  cases hpc : t.pc with
  | passStart | sources | updating =>
      rw [hpc] at hpcinv
      exact hpcinv
  | _ =>
      rw [hpc] at hidle
      exact hidle.elim

/-! ## Runs in which only `unique(link)` refuses an insert -/

section Runs

variable [DecidableEq κ] (collate)

/-- `select max(id) … where link=…` under the collation. -/
def collatedMaxId (rows : List RssItem) (link : Text) : Option Nat :=
  ((rows.filter fun row => collate row.link = collate link).map RssItem.id).max?

instance (rows : List RssItem) (sourceid : Nat) (texts : Text × Text × Text) (threw : Bool) :
    (effect : Effect) → Decidable (Inserts collate rows sourceid texts threw effect)
  | .nothing => inferInstanceAs (Decidable (threw = true ∧ collate texts.2.1 ∈ keys collate rows))
  | .row _ => inferInstanceAs (Decidable (threw = false ∧ collate texts.2.1 ∉ keys collate rows))
  | .other after =>
      inferInstanceAs (Decidable (threw = false ∧ collate texts.2.1 ∉ keys collate rows ∧
        ∃ row ∈ after.getLast?, after = rows ++ [row] ∧ Fresh rows row.id ∧
          row = ⟨row.id, sourceid, texts.1, texts.2.1, texts.2.2⟩))

/-- No call of the two stores fails but an `insert` of a link that is stored, and the process does not end
while a feed has been fetched and not been dealt with.  Of a statement that is not the `insert` of one row
or the `select` of an id nothing is known. -/
def OnlyDuplicates (s : State) (e : Event) : Prop :=
  match s.pc, e with
  | .inserting loop entry, .insert effect threw =>
      ∀ texts ∈ entry.read loop.source.id, Inserts collate s.rows loop.source.id texts threw effect
  | .selecting _ entry, .select found =>
      found ≠ none ∧ ∀ link ∈ readSelect (selectSql entry.link), found = collatedMaxId collate s.rows link
  | .storing .., .insertOne written throws => written = true ∧ throws = none
  | .fetched .., .throws _ => False
  | _, _ => True

instance (s : State) (e : Event) : Decidable (OnlyDuplicates collate s e) := by
  unfold OnlyDuplicates
  split <;> infer_instance

instance (rows : List RssItem) (sourceid : Nat) (entry : RssEntry) :
    Decidable (OwnLink collate rows sourceid entry) :=
  inferInstanceAs (Decidable ((∃ texts ∈ entry.read sourceid, texts.2.1 = entry.link) ∧
    ∀ link ∈ links rows, collate link = collate entry.link → link = entry.link))

/-- The statements of the entries are about their own links. -/
def OwnLinks (s : State) (e : Event) : Prop :=
  match s.pc, e with
  | .inserting loop entry, .insert .. => OwnLink collate s.rows loop.source.id entry
  | .selecting _ entry, .select _ => readSelect (selectSql entry.link) = some entry.link
  | _, _ => True

instance (s : State) (e : Event) : Decidable (OwnLinks collate s e) := by
  unfold OwnLinks
  split <;> infer_instance

/-- Only links that are stored are refused, and every statement is about the link of its entry. -/
def Undisturbed (s : State) (e : Event) : Prop := OnlyDuplicates collate s e ∧ OwnLinks collate s e

instance (s : State) (e : Event) : Decidable (Undisturbed collate s e) :=
  inferInstanceAs (Decidable (_ ∧ _))

variable {collate}

/-! ## What a step keeps -/

/-- The row that `select max(id)` finds is the one that has just been added. -/
theorem adding_of_collatedMaxId {s : State} {entry : RssEntry} {id found : Nat}
    (hnodup : (keys collate s.rows).Nodup) (hadding : Adding s entry id)
    (hfound : collatedMaxId collate s.rows entry.link = some found) : found = id := by
  obtain ⟨rows, row, hrows, hlink, rfl, -⟩ := hadding
  obtain ⟨row', hrow', rfl⟩ := List.mem_map.1 (List.max?_eq_some_iff.1 hfound).1
  obtain ⟨hmem, hkey⟩ := List.mem_filter.1 hrow'
  rw [hrows] at hmem hnodup
  rcases List.mem_append.1 hmem with hold | hnew
  · -- another row whose link counts as the same
    have hmem' : collate entry.link ∈ keys collate rows :=
      List.mem_map.2 ⟨row'.link, List.mem_map_of_mem hold, of_decide_eq_true hkey⟩
    rw [keys_append_row, hlink] at hnodup
    have hne := (List.nodup_append.1 hnodup).2.2 _ hmem' _ (List.mem_singleton_self _)
    exact absurd rfl hne
  · rw [List.mem_singleton.1 hnew]

/-- An exception that ends such a pass comes before a feed is fetched, or after its entries. -/
theorem OnlyDuplicates.pc_of_throws {now : Int} (hok : OnlyDuplicates collate s (.throws now))
    (hpc : s.pc.outside) :
    s.pc = .passStart ∨ ∃ source success hasNew todo, s.pc = .updating source success hasNew todo := by
  unfold OnlyDuplicates at hok
  cases hs : s.pc with
  | passStart => exact Or.inl rfl
  | updating source success hasNew todo => exact Or.inr ⟨source, success, hasNew, todo, rfl⟩
  | fetched =>
      rw [hs] at hok
      exact hok.elim
  | _ =>
      rw [hs] at hpc
      exact hpc.elim

theorem linksInv_step (h : LinksInv collate s) (hok : Undisturbed collate s e)
    (hstep : step s e = some t) : LinksInv collate t := by
  obtain ⟨hnodup, hpcinv⟩ := h
  obtain ⟨hok, hown⟩ := hok
  unfold OnlyDuplicates at hok
  unfold OwnLinks at hown
  cases moves_of_step hstep with
  | throws now hpc hle =>
      refine ⟨hnodup, ?_⟩
      rcases OnlyDuplicates.pc_of_throws hok hpc with hs | ⟨source, success, hasNew, todo, hs⟩
      · rw [hs] at hpcinv
        exact hpcinv
      · rw [hs] at hpcinv
        exact hpcinv
  | getLatestLinks source vre todo hpc =>
      rw [hpc] at hpcinv
      exact ⟨hnodup, fun link hlink => mem_links_of_mem_getLatestLinks hlink, hpcinv⟩
  | finished loop hpc =>
      rw [hpc] at hpcinv
      exact ⟨hnodup, hpcinv.2⟩
  | insert loop entry effect threw rows hpc hrows =>
      rw [hpc] at hpcinv hok hown
      exact linksInv_insert hnodup hpcinv.1 hpcinv.2 hok hown hrows
  | selectThrew loop entry hpc =>
      rw [hpc] at hok
      exact absurd rfl hok.1
  | select loop entry found hpc =>
      rw [hpc] at hpcinv hok hown
      obtain ⟨hlatest, id, hadding⟩ := hpcinv
      obtain rfl := adding_of_collatedMaxId hnodup hadding (hok.2 _ hown).symm
      exact ⟨hnodup, hlatest, hadding⟩
  | stored loop entry itemid hpc =>
      rw [hpc] at hpcinv
      exact ⟨hnodup, hpcinv.1, mirrors_of_adding hpcinv.2⟩
  | storeThrew loop entry itemid written now hpc =>
      rw [hpc] at hok
      cases hok.2
  | getRssSources now hpc | sleep now hpc | failed _ _ hpc | fetched _ _ _ hpc | known _ _ _ hpc
  | new _ _ _ hpc | updated _ _ _ _ _ hpc | updateThrew _ _ _ _ _ _ hpc =>
      rw [hpc] at hpcinv
      exact ⟨hnodup, hpcinv⟩

/-- The table as it will be changes only when a feed is fetched. -/
theorem settled_step (h : LinksInv collate s) (hok : Undisturbed collate s e)
    (hstep : step s e = some t) : settled t = storeFeeds (settled s) (fetched [e]) := by
  obtain ⟨-, hpcinv⟩ := h
  obtain ⟨hok, hown⟩ := hok
  unfold OnlyDuplicates at hok
  unfold OwnLinks at hown
  cases moves_of_step hstep with
  | throws now hpc hle =>
      rcases OnlyDuplicates.pc_of_throws hok hpc with hs | ⟨source, success, hasNew, todo, hs⟩
      · simp [settled, pending, hs, fetched, storeFeeds]
      · simp [settled, pending, hs, fetched, storeFeeds]
  | fetched source todo vre hpc =>
      simp [settled, pending, hpc, fetched, storeFeeds, storeFeed]
  | finished loop hpc hrest =>
      simp [settled, pending, hpc, hrest, fetched, storeFeeds]
  | known loop entry rest hpc hrest hmem =>
      rw [hpc] at hpcinv
      have hstored : insertNew (links s.rows) entry.link = links s.rows :=
        insertNew_of_mem (hpcinv.1 _ hmem)
      simp [settled, pending, hpc, hrest, hstored, fetched, storeFeeds]
  | insert loop entry effect threw rows hpc hrows =>
      rw [hpc] at hok hown
      rcases insertRow_ownLink hok hown hrows with ⟨rfl, hmem, rfl⟩ | ⟨row, rfl, hnew, -, hlink, rfl⟩
      · simp [settled, pending, hpc, insertNew_of_mem hmem, fetched, storeFeeds]
      · have hnew' : entry.link ∉ links s.rows := fun hmem => hnew (List.mem_map_of_mem hmem)
        simp [settled, pending, hpc, insertNew_of_notMem hnew', links_append_row, hlink, fetched,
          storeFeeds]
  | storeThrew loop entry itemid written now hpc =>
      rw [hpc] at hok
      cases hok.2
  | new loop entry rest hpc hrest =>
      simp [settled, pending, hpc, hrest, fetched, storeFeeds]
  | getRssSources _ hpc | sleep _ hpc | failed _ _ hpc | getLatestLinks _ _ _ hpc
  | selectThrew _ _ hpc | select _ _ _ hpc | stored _ _ _ hpc | updated _ _ _ _ _ hpc
  | updateThrew _ _ _ _ _ _ hpc =>
      simp [settled, pending, hpc, fetched, storeFeeds]

/-! ## What a run keeps -/

theorem fetched_cons (e : Event) (es : List Event) : fetched (e :: es) = fetched [e] ++ fetched es := by
  simp [fetched, List.filterMap_cons]
  split <;> rfl

theorem settled_run (hrun : RunWithin step (Undisturbed collate) s es t) (h : LinksInv collate s) :
    LinksInv collate t ∧ settled t = storeFeeds (settled s) (fetched es) := by
  induction hrun with
  | nil s => exact ⟨h, rfl⟩
  | cons hok hstep hrest ih =>
      rename_i s u t e es
      obtain ⟨hinv, hsettled⟩ := ih (linksInv_step h hok hstep)
      refine ⟨hinv, ?_⟩
      calc
        settled t = storeFeeds (settled u) (fetched es) := hsettled
        _ = storeFeeds (storeFeeds (settled s) (fetched [e])) (fetched es) := by
              rw [settled_step h hok hstep]
        _ = storeFeeds (settled s) (fetched [e] ++ fetched es) := (List.foldl_append ..).symm
        _ = storeFeeds (settled s) (fetched (e :: es)) := by
              rw [← fetched_cons]

/-! ## `hasNew` -/

/-- Since there were `n` rows, at the time the feed was fetched, `hasNew` says whether there are more. -/
def Counts (n : Nat) (s : State) : Prop :=
  match s.pc with
  | .fetched .. => s.rows.length = n
  | .entries loop => n ≤ s.rows.length ∧ (loop.hasNew = true ↔ n < s.rows.length)
  | .inserting loop _ => n ≤ s.rows.length ∧ (loop.hasNew = true ↔ n < s.rows.length)
  | .selecting .. => n < s.rows.length
  | .storing .. => n < s.rows.length
  | .updating _ success hasNew _ => success = true → (hasNew = true ↔ n < s.rows.length)
  | _ => True

/-- No feed is fetched. -/
def SameFeed (collate : Text → κ) (s : State) (e : Event) : Prop :=
  Undisturbed collate s e ∧ ∀ feed, e ≠ .getRSS feed

theorem counts_step {n : Nat} (h : Counts n s) (hok : SameFeed collate s e)
    (hstep : step s e = some t) : Counts n t := by
  obtain ⟨⟨hok, hown⟩, hfeed⟩ := hok
  unfold Counts at h
  unfold OnlyDuplicates at hok
  unfold OwnLinks at hown
  cases moves_of_step hstep with
  | failed => exact absurd rfl (hfeed _)
  | fetched => exact absurd rfl (hfeed _)
  | getLatestLinks source vre todo hpc =>
      rw [hpc] at h
      exact ⟨h.ge, by simp [h]⟩
  | finished loop hpc =>
      rw [hpc] at h
      exact fun _ => h.2
  | insert loop entry effect threw rows hpc hrows =>
      rw [hpc] at h hok hown
      rcases insertRow_ownLink hok hown hrows with ⟨rfl, -, rfl⟩ | ⟨row, rfl, -, -, -, rfl⟩
      · exact h
      · show n < (s.rows ++ [_]).length
        rw [List.length_append, List.length_singleton]
        omega
  | selectThrew loop entry hpc =>
      rw [hpc] at hok
      exact absurd rfl hok.1
  | stored loop entry itemid hpc =>
      rw [hpc] at h
      exact ⟨h.le, by simp [h]⟩
  | known _ _ _ hpc | new _ _ _ hpc | select _ _ _ hpc =>
      rw [hpc] at h
      exact h
  | _ => exact True.intro

theorem fetched_eq_nil (h : ∀ feed, .getRSS feed ∉ es) : fetched es = [] := by
  refine List.filterMap_eq_nil_iff.2 fun e he => ?_
  split
  · exact absurd he (h _)
  · rfl

theorem runWithin_sameFeed (hrun : RunWithin step (Undisturbed collate) s es t)
    (h : ∀ feed, .getRSS feed ∉ es) : RunWithin step (SameFeed collate) s es t := by
  induction hrun with
  | nil s => exact RunWithin.nil s
  | cons hok hstep _ ih =>
      simp only [List.mem_cons, not_or] at h
      exact RunWithin.cons ⟨hok, fun feed heq => (h feed).1 heq.symm⟩ hstep (ih fun feed => (h feed).2)

/-- Of a feed that has been dealt with, `hasNew` says whether it had a link that was not stored. -/
theorem hasNew_iff {u : State} {vre : List RssEntry} {source : RssSource} {hasNew : Bool}
    {todo : List RssSource} (hu : LinksInv collate u)
    (hrun : RunWithin step (Undisturbed collate) u (.getRSS (some vre) :: es) t)
    (hfeed : ∀ feed, .getRSS feed ∉ es) (hpc : t.pc = .updating source true hasNew todo) :
    hasNew = true ↔ ∃ entry ∈ vre, entry.link ∉ links u.rows := by
  have hsettled := (settled_run hrun hu).2
  rw [fetched_cons, fetched_eq_nil hfeed] at hsettled
  cases hrun with
  | cons hok hstep hrest =>
      cases moves_of_step hstep with
      | fetched src srcs _ hupc =>
          have hcounts : Counts u.rows.length t :=
            (runWithin_sameFeed hrest hfeed).invariant (fun _ _ _ h hok hstep => counts_step h hok hstep)
              rfl
          have hstored : links t.rows = storeFeed (links u.rows) vre := by
            rw [← settled_of_idle (by rw [hpc]; exact True.intro), hsettled,
              settled_of_idle (by rw [hupc]; exact True.intro)]
            rfl
          have hlength : ∀ rows, rows.length = (links rows).length := fun rows => by
            simp [links]
          unfold Counts at hcounts
          rw [hpc] at hcounts
          rw [hcounts rfl, hlength, hlength, hstored, storeFeed, length_lt_foldl_insertNew_iff]
          simp

/-- Over any history of feeds, while only `unique(link)` refuses an `insert` and the statements of each
entry are about its own link.  Between two feeds the table has the links that were stored before and those
of all feeds so far, in the order in which the entries of each feed are new from last to first, each once,
and the documents are those of the rows.  A link that is taken for known is stored, and `hasNew` says of
each feed whether it had a link that was not.

In any state, a link that is not stored is stored by the `insert` of its entry only where that is so. -/
theorem stored_links (hpc : s.pc = .passStart) (hnodup : (keys collate s.rows).Nodup)
    (hdocs : Mirrors s.docs s.rows) :
    (RunWithin step (Undisturbed collate) s es t →
      (t.pc.idle →
        links t.rows = storeFeeds (links s.rows) (fetched es) ∧
        (∀ link, link ∈ links t.rows ↔
          link ∈ links s.rows ∨ ∃ vre ∈ fetched es, ∃ entry ∈ vre, entry.link = link) ∧
        (links t.rows).Nodup ∧ Mirrors t.docs t.rows) ∧
      (∀ loop, t.pc = .entries loop → ∀ link ∈ loop.latest, link ∈ links t.rows) ∧
      ∀ es₁ vre es₂ u source hasNew todo, es = es₁ ++ .getRSS (some vre) :: es₂ →
        (∀ feed, .getRSS feed ∉ es₂) → Run step s es₁ u → t.pc = .updating source true hasNew todo →
          (hasNew = true ↔ ∃ entry ∈ vre, entry.link ∉ links u.rows)) ∧
    ∀ u v loop entry effect threw, u.pc = .inserting loop entry →
      (entry.read loop.source.id).isSome → OnlyDuplicates collate u (.insert effect threw) →
      step u (.insert effect threw) = some v → entry.link ∉ links u.rows →
        (entry.link ∈ links v.rows ↔ OwnLinks collate u (.insert effect threw)) := by
  refine ⟨?_, ?_⟩
  · intro hrun
    have hinv : LinksInv collate s := by
      refine ⟨hnodup, ?_⟩
      rw [hpc]
      exact hdocs
    obtain ⟨htinv, hsettled⟩ := settled_run hrun hinv
    refine ⟨?_, ?_, ?_⟩
    · intro hidle
      have hs : settled s = links s.rows := settled_of_idle (by rw [hpc]; exact True.intro)
      have hlinks : links t.rows = storeFeeds (links s.rows) (fetched es) := by
        rw [← settled_of_idle hidle, hsettled, hs]
      refine ⟨hlinks, ?_, htinv.1.of_map, htinv.mirrors hidle⟩
      intro link
      rw [hlinks]
      exact mem_storeFeeds
    · intro loop hloop
      obtain ⟨-, hpcinv⟩ := htinv
      rw [hloop] at hpcinv
      exact hpcinv.1
    · rintro es₁ vre es₂ u source hasNew todo rfl hfeed hu hupdating
      obtain ⟨u', hu', hrest⟩ := hrun.split
      obtain rfl := hu.end_eq hu'.toRun
      exact hasNew_iff (settled_run hu' hinv).1 hrest hfeed hupdating
  · intro u v loop entry effect threw hupc hread hok hstep hnew
    obtain ⟨texts, hread⟩ := Option.isSome_iff_exists.1 hread
    unfold OnlyDuplicates at hok
    unfold OwnLinks
    rw [hupc] at hok ⊢
    cases moves_of_step hstep with
    | insert loop' entry' _ _ rows hpc' hrows =>
        cases hupc.symm.trans hpc'
        exact insertRow_stores_iff hread (hok texts hread) hrows hnew

end Runs

end Collation

/-- A feed that has one link twice: the second time it is refused. -/
def twice : List Event :=
  [.getRssSources (5 * second), .getRSS (some [entryA, entryB, entryA]), .getLatestLinks,
    .entry, .insert (.row 1) false, .select (some 1), .insertOne true none,
    .entry, .insert (.row 2) false, .select (some 2), .insertOne true none,
    .entry, .insert .nothing true, .entry]

def afterTwice : State :=
  { firstPass with
    rows := [entryA.row 1 1, entryB.row 1 2]
    docs := [entryA.doc 1, entryB.doc 2]
    pc := .updating (firstPass.sources.headD ⟨0, [], [], 0, 0, 0, 0, false⟩) true true [] }

/-- A collation that takes capitals and small letters for the same. -/
def caseInsensitive (text : Text) : Text := text.map Char.toLower

theorem stored_links_twice :
    RunWithin step (Undisturbed caseInsensitive) firstPass twice afterTwice ∧
      links afterTwice.rows = storeFeeds [] [[entryA, entryB, entryA]] ∧
      Mirrors afterTwice.docs afterTwice.rows := by
  have hrun : RunWithin step (Undisturbed caseInsensitive) firstPass twice afterTwice :=
    runWithin_of_exec (by decide +kernel)
  have hdocs : Mirrors firstPass.docs firstPass.rows := List.Perm.refl _
  obtain ⟨hlinks, -, -, hmirrors⟩ := ((stored_links rfl (by decide) hdocs).1 hrun).1 True.intro
  exact ⟨hrun, hlinks, hmirrors⟩

/-- A link with a backslash, which the server reads without it. -/
def backslashed : RssEntry := ⟨"C".toList, "/a\\c".toList, "third".toList, []⟩

def misread : List Event :=
  [.getRssSources (5 * second), .getRSS (some [backslashed]), .getLatestLinks,
    .entry, .insert (.other [⟨1, 1, "C".toList, "/ac".toList, []⟩]) false, .select (some 1),
    .insertOne true none, .entry, .update (9 * second) none, .sleep (10 * second)]

/-- The link of `entryA` in capitals. -/
def capital : RssEntry := ⟨"A".toList, "/A".toList, "fourth".toList, []⟩

def refused : List Event :=
  [.getRssSources (5 * second), .getRSS (some [entryA, capital]), .getLatestLinks,
    .entry, .insert (.row 1) false, .select (some 1), .insertOne true none,
    .entry, .insert .nothing true, .entry, .update (9 * second) none, .sleep (10 * second)]

/-- Two passes after which a link that was fetched is not stored, although only links that count as stored
are refused: one is read as another, and one is taken for another. -/
theorem not_stored_links :
    (∃ t, RunWithin step (OnlyDuplicates caseInsensitive) firstPass misread t ∧ t.pc = .passStart ∧
      fetched misread = [[backslashed]] ∧ backslashed.link ∉ links t.rows) ∧
    ∃ t, RunWithin step (OnlyDuplicates caseInsensitive) firstPass refused t ∧ t.pc = .passStart ∧
      fetched refused = [[entryA, capital]] ∧ entryA.link ∉ links t.rows := by
  have hends : ∀ es stored,
      (exec (fun s e => if OnlyDuplicates caseInsensitive s e then step s e else none) firstPass es).map
          (fun t => (t.pc, links t.rows)) = some (.passStart, stored) →
        ∃ t, RunWithin step (OnlyDuplicates caseInsensitive) firstPass es t ∧ t.pc = .passStart ∧
          links t.rows = stored := by
    intro es stored h
    obtain ⟨t, hexec, hend⟩ := Option.map_eq_some_iff.1 h
    exact ⟨t, runWithin_of_exec hexec, (Prod.mk.inj hend).1, (Prod.mk.inj hend).2⟩
  obtain ⟨t, hrun, hpc, hlinks⟩ := hends misread ["/ac".toList] (by decide +kernel)
  obtain ⟨u, hrun', hpc', hlinks'⟩ := hends refused ["/A".toList] (by decide +kernel)
  refine ⟨⟨t, hrun, hpc, rfl, ?_⟩, u, hrun', hpc', rfl, ?_⟩
  · rw [hlinks]
    decide
  · rw [hlinks']
    decide

end RssB
end MyCppCode
