import Mathlib.Data.List.Perm.Basic
import MyCppCode.RssB.Main

/-!
# MainStores — the rows of MySQL and the documents of MongoDB

An entry is stored by three calls: the `insert` of its row, the `select` of the id of the row, and the
`insert_one` of its document.  There is no transaction around them.

* `inv_step`, `Inv`: while every `insert` that takes effect is followed by its document, the documents
  are those of the rows;
* `damaged_step`, `Damaged`: a row that is left without its document never gets one, for its link is
  known from then on.
-/

namespace MyCppCode
namespace RssB

open Foundation

/-! ## Consistency -/

/-- Every row has exactly one document with its id. -/
def Consistent (s : State) : Prop :=
  ∀ row ∈ s.rows, (s.docs.map RssMongo.itemid).count row.id = 1

instance (s : State) : Decidable (Consistent s) :=
  inferInstanceAs (Decidable (∀ row ∈ s.rows, (s.docs.map RssMongo.itemid).count row.id = 1))

def ConsistentAtStart (s : State) : Prop := s.pc = .passStart → Consistent s

/-- The id is above those of all rows. -/
def Fresh (rows : List RssItem) (id : Nat) : Prop := ∀ row ∈ rows, row.id < id

instance (rows : List RssItem) (id : Nat) : Decidable (Fresh rows id) :=
  inferInstanceAs (Decidable (∀ row ∈ rows, row.id < id))

/-- No two rows have the same id, and the documents are those of the rows. -/
def Matched (rows : List RssItem) (docs : List RssMongo) : Prop :=
  (rows.map RssItem.id).Nodup ∧ (docs.map RssMongo.itemid).Perm (rows.map RssItem.id)

theorem Matched.consistent {s : State} (h : Matched s.rows s.docs) : Consistent s := by
  intro row hmem
  rw [h.2.count_eq]
  exact List.count_eq_one_of_mem h.1 (List.mem_map_of_mem hmem)

theorem Fresh.not_mem {rows : List RssItem} {id : Nat} (h : Fresh rows id) :
    id ∉ rows.map RssItem.id := by
  intro hmem
  obtain ⟨row, hrow, heq⟩ := List.mem_map.1 hmem
  have hlt := h row hrow
  omega

theorem Matched.not_mem {rows : List RssItem} {docs : List RssMongo} {id : Nat}
    (h : Matched rows docs) (hfresh : Fresh rows id) : id ∉ docs.map RssMongo.itemid := by
  rw [h.2.mem_iff]
  exact hfresh.not_mem

/-- A new row and its document. -/
theorem Matched.append {rows : List RssItem} {docs : List RssMongo} {row : RssItem} {doc : RssMongo}
    (h : Matched rows docs) (hfresh : Fresh rows row.id) (hdoc : doc.itemid = row.id) :
    Matched (rows ++ [row]) (docs ++ [doc]) := by
  refine ⟨?_, ?_⟩
  · rw [List.map_append]
    refine List.nodup_append.2 ⟨h.1, List.nodup_singleton _, ?_⟩
    intro a ha b hb
    obtain rfl : b = row.id := by simpa using hb
    exact fun heq => hfresh.not_mem (heq ▸ ha)
  · simp only [List.map_append, List.map_cons, List.map_nil, hdoc]
    exact h.2.append_right _

/-! ## Runs that store whole items -/

/-- Whenever the `insert` of an item takes effect, it adds one row and does not throw, the `select`
answers with the id of that row, and `insert_one` writes the document. -/
def Whole (s : State) : Event → Prop
  | .insert .nothing _ => True
  | .insert (.row _) threw => threw = false
  | .insert (.other after) threw =>
      threw = true ∧ after = s.rows ∨
        threw = false ∧ ∃ row ∈ after.getLast?, after = s.rows ++ [row] ∧ Fresh s.rows row.id
  | .select found => ∃ row ∈ s.rows.getLast?, found = some row.id
  | .insertOne written _ => written = true
  | _ => True

instance (s : State) : (e : Event) → Decidable (Whole s e)
  | .insert .nothing _ => inferInstanceAs (Decidable True)
  | .insert (.row _) threw => inferInstanceAs (Decidable (threw = false))
  | .insert (.other after) threw =>
      inferInstanceAs (Decidable (threw = true ∧ after = s.rows ∨
        threw = false ∧ ∃ row ∈ after.getLast?, after = s.rows ++ [row] ∧ Fresh s.rows row.id))
  | .select found => inferInstanceAs (Decidable (∃ row ∈ s.rows.getLast?, found = some row.id))
  | .insertOne written _ => inferInstanceAs (Decidable (written = true))
  | .getRssSources _ | .getRSS _ | .getLatestLinks | .entry | .update .. | .sleep _ | .throws _ =>
      inferInstanceAs (Decidable True)

/-- The documents are those of the rows, but for the row that is being stored. -/
def Inv (s : State) : Prop :=
  match s.pc with
  | .selecting _ entry =>
      ∃ rows row, s.rows = rows ++ [row] ∧ Fresh rows row.id ∧ Matched rows s.docs ∧
        (entry.plain → row.link = entry.link)
  | .storing _ _ itemid =>
      ∃ rows row, s.rows = rows ++ [row] ∧ Fresh rows row.id ∧ Matched rows s.docs ∧
        itemid = row.id
  | _ => Matched s.rows s.docs

theorem Inv.matched {s : State} (h : Inv s) (hpc : s.pc.outside) : Matched s.rows s.docs := by
  unfold Inv at h
  cases hs : s.pc with
  | passStart | fetched | updating =>
      rw [hs] at h
      exact h
  | _ =>
      rw [hs] at hpc
      exact hpc.elim

theorem inv_insert {s : State} {loop : Loop} {entry : RssEntry} {effect : Effect} {threw : Bool}
    {rows : List RssItem} (h : Matched s.rows s.docs) (hok : Whole s (.insert effect threw))
    (hrows : insertRow s.rows loop.source.id entry threw effect = some rows) :
    Inv { s with rows := rows, pc := if threw then .entries loop else .selecting loop entry } := by
  cases effect with
  | nothing =>
      cases threw with
      | false =>
          cases hrows
      | true =>
          cases hrows
          exact h
  | row id =>
      obtain rfl : threw = false := hok
      simp only [insertRow] at hrows
      split at hrows
      · rename_i hcond
        cases hrows
        exact ⟨s.rows, _, rfl, hcond.2.1, h, fun _ => rfl⟩
      · cases hrows
  | other after =>
      simp only [insertRow] at hrows
      split at hrows
      · cases hrows
      · rename_i hplain
        cases hrows
        rcases hok with ⟨rfl, rfl⟩ | ⟨rfl, row, -, rfl, hfresh⟩
        · exact h
        · exact ⟨s.rows, row, rfl, hfresh, h, fun hp => absurd hp hplain⟩

theorem inv_step {s t : State} {e : Event} (h : Inv s) (hok : Whole s e) (hstep : step s e = some t) :
    Inv t := by
  have hpc' := h
  unfold Inv at h
  cases moves_of_step hstep with
  | throws now hpc hle =>
      exact hpc'.matched hpc
  | insert loop entry effect threw rows hpc hrows =>
      rw [hpc] at h
      exact inv_insert h hok hrows
  | selectThrew loop entry hpc =>
      obtain ⟨row, -, hnone⟩ := hok
      cases hnone
  | select loop entry id hpc hid =>
      rw [hpc] at h
      obtain ⟨rows, row, hrows, hfresh, hmatched, -⟩ := h
      obtain ⟨last, hlast, hfound⟩ := hok
      -- the last row is the one that the `insert` has just added
      obtain rfl : row = last := by simpa [hrows] using hlast
      obtain rfl : id = row.id := by simpa using hfound
      exact ⟨rows, row, hrows, hfresh, hmatched, rfl⟩
  | stored loop entry itemid hpc =>
      rw [hpc] at h
      obtain ⟨rows, row, hrows, hfresh, hmatched, rfl⟩ := h
      change Matched s.rows (s.docs ++ [entry.doc row.id])
      rw [hrows]
      exact hmatched.append hfresh rfl
  | storeThrew loop entry itemid written now hpc hle =>
      rw [hpc] at h
      obtain ⟨rows, row, hrows, hfresh, hmatched, rfl⟩ := h
      obtain rfl : written = true := hok
      change Matched s.rows (s.docs ++ [entry.doc row.id])
      rw [hrows]
      exact hmatched.append hfresh rfl
  | getRssSources now hpc | sleep now hpc | failed _ _ hpc | fetched _ _ _ hpc
  | getLatestLinks _ _ _ hpc | finished _ hpc | known _ _ _ hpc | new _ _ _ hpc
  | updated _ _ _ _ _ hpc | updateThrew _ _ _ _ _ _ hpc =>
      rw [hpc] at h
      exact h

/-! ## A row without its document -/

/-- The texts of the entry whose row is inserted or looked up are plain. -/
def PlainEntries (s : State) (_ : Event) : Prop :=
  match s.pc with
  | .inserting _ entry | .selecting _ entry => entry.plain
  | _ => True

/-- Some row has no document, and what the program is storing is not that row. -/
def Damaged (s : State) : Prop :=
  ∃ row ∈ s.rows, row.id ∉ s.docs.map RssMongo.itemid ∧
    match s.pc with
    | .selecting _ entry => ∃ later ∈ s.rows, later.link = entry.link ∧ row.id < later.id
    | .storing _ _ itemid => itemid ≠ row.id
    | _ => True

theorem Damaged.not_consistent {s : State} (h : Damaged s) : ¬ Consistent s := by
  obtain ⟨row, hmem, hdoc, -⟩ := h
  intro hall
  have hone := hall row hmem
  rw [List.count_eq_zero_of_not_mem hdoc] at hone
  cases hone

theorem le_of_maxId {rows : List RssItem} {link : Text} {id : Nat} (h : maxId rows link = some id)
    {row : RssItem} (hmem : row ∈ rows) (hlink : row.link = link) : row.id ≤ id := by
  refine (List.max?_eq_some_iff.1 h).2 row.id (List.mem_map_of_mem ?_)
  simp [hmem, hlink]

theorem exists_of_maxId {rows : List RssItem} {link : Text} {id : Nat}
    (h : maxId rows link = some id) : ∃ row ∈ rows, row.link = link ∧ row.id = id := by
  obtain ⟨row, hmem, hid⟩ := List.mem_map.1 (List.max?_eq_some_iff.1 h).1
  obtain ⟨hrow, hlink⟩ := List.mem_filter.1 hmem
  exact ⟨row, hrow, by simpa using hlink, hid⟩

theorem RssEntry.plain_link {entry : RssEntry} (h : entry.plain) : plainText entry.link 256 := by
  simp only [RssEntry.plain, Bool.and_eq_true] at h
  exact h.1.2

/-- What the `insert` of a plain entry does: nothing, and it throws; or one row. -/
theorem insertRow_plain {rows after : List RssItem} {sourceid : Nat} {entry : RssEntry} {threw : Bool}
    {effect : Effect} (hplain : entry.plain)
    (h : insertRow rows sourceid entry threw effect = some after) :
    effect = .nothing ∧ threw = true ∧ after = rows ∨
      ∃ id, effect = .row id ∧ Fresh rows id ∧
        after = rows ++ [⟨id, sourceid, entry.getTitle, entry.link, entry.pubdate⟩] := by
  cases effect with
  | nothing =>
      cases threw with
      | false =>
          cases h
      | true =>
          cases h
          exact Or.inl ⟨rfl, rfl, rfl⟩
  | row id =>
      simp only [insertRow] at h
      split at h
      · rename_i hcond
        cases h
        exact Or.inr ⟨id, rfl, hcond.2.1, rfl⟩
      · cases h
  | other after =>
      simp [insertRow, hplain] at h

theorem damaged_step {s t : State} {e : Event} (h : Damaged s) (hplain : PlainEntries s e)
    (hstep : step s e = some t) : Damaged t := by
  obtain ⟨row, hmem, hdoc, hpending⟩ := h
  unfold PlainEntries at hplain
  cases moves_of_step hstep with
  | insert loop entry effect threw rows hpc hrows =>
      rw [hpc] at hplain
      rcases insertRow_plain hplain hrows with ⟨-, rfl, rfl⟩ | ⟨id, -, hfresh, rfl⟩
      · exact ⟨row, hmem, hdoc, True.intro⟩
      · refine ⟨row, List.mem_append_left _ hmem, hdoc, ?_⟩
        -- the new row has a greater id, whether the program goes on to look it up or not
        cases threw with
        | true =>
            exact True.intro
        | false =>
            exact ⟨_, List.mem_append_right _ (List.mem_singleton_self _), rfl, hfresh row hmem⟩
  | select loop entry id hpc hid =>
      -- `max(id)` is at least the id of the row just inserted, so it is not that of the damaged row
      rw [hpc] at hplain hpending
      obtain ⟨later, hlater, hlink, hlt⟩ := hpending
      have hle := le_of_maxId (hid (RssEntry.plain_link hplain)) hlater hlink
      refine ⟨row, hmem, hdoc, ?_⟩
      change id ≠ row.id
      omega
  | stored loop entry itemid hpc =>
      rw [hpc] at hpending
      refine ⟨row, hmem, ?_, True.intro⟩
      have hne : row.id ≠ (entry.doc itemid).itemid := fun heq => hpending heq.symm
      simpa [hne] using hdoc
  | storeThrew loop entry itemid written now hpc hle =>
      rw [hpc] at hpending
      refine ⟨row, hmem, ?_, True.intro⟩
      have hne : row.id ≠ (entry.doc itemid).itemid := fun heq => hpending heq.symm
      cases written with
      | false =>
          exact hdoc
      | true =>
          simpa [hne] using hdoc
  | _ =>
      exact ⟨row, hmem, hdoc, True.intro⟩

/-- A step of a plain entry that does not store the item whole leaves its row without a document. -/
theorem damaged_of_not_whole {s t : State} {e : Event} (h : Inv s) (hplain : PlainEntries s e)
    (hstep : step s e = some t) (hnot : ¬ Whole s e) : Damaged t := by
  unfold Inv at h
  unfold PlainEntries at hplain
  cases moves_of_step hstep with
  | insert loop entry effect threw rows hpc hrows =>
      rw [hpc] at h hplain
      rcases insertRow_plain hplain hrows with ⟨rfl, -, -⟩ | ⟨id, rfl, hfresh, rfl⟩
      · exact absurd True.intro hnot
      · obtain rfl : threw = true := by simpa [Whole] using hnot
        exact ⟨_, List.mem_append_right _ (List.mem_singleton_self _), h.not_mem hfresh, True.intro⟩
  | selectThrew loop entry hpc =>
      rw [hpc] at h
      obtain ⟨rows, row, hrows, hfresh, hmatched, -⟩ := h
      refine ⟨row, ?_, hmatched.not_mem hfresh, True.intro⟩
      simp [hrows]
  | select loop entry id hpc hid =>
      rw [hpc] at h hplain
      obtain ⟨rows, row, hrows, hfresh, hmatched, hlink⟩ := h
      have hmax := hid (RssEntry.plain_link hplain)
      have hle : row.id ≤ id := le_of_maxId hmax (by simp [hrows]) (hlink hplain)
      obtain ⟨found, hfound, -, rfl⟩ := exists_of_maxId hmax
      -- the row with the greatest id is the last one
      have hrow : found = row := by
        rw [hrows] at hfound
        rcases List.mem_append.1 hfound with hold | hnew
        · have hlt := hfresh found hold
          omega
        · simpa using hnew
      refine absurd ⟨row, ?_, ?_⟩ hnot
      · simp [hrows]
      · rw [hrow]
  | storeThrew loop entry itemid written now hpc hle =>
      rw [hpc] at h
      obtain ⟨rows, row, hrows, hfresh, hmatched, rfl⟩ := h
      obtain rfl : written = false := by simpa [Whole] using hnot
      refine ⟨row, ?_, hmatched.not_mem hfresh, True.intro⟩
      simp [hrows]
  | _ =>
      exact absurd (by trivial) hnot

/-- From a run of plain entries that leaves no row without its document, every step stores its item
whole. -/
theorem runWithin_whole_of_not_damaged {s t : State} {es : List Event} (h : Inv s)
    (hrun : RunWithin step PlainEntries s es t) (hend : ¬ Damaged t) : RunWithin step Whole s es t := by
  -- The first step that is not whole would leave a row without a document, and that stays so.
  induction hrun with
  | nil s =>
      exact RunWithin.nil s
  | cons hplain hstep hrest ih =>
      rename_i s u t e es
      by_cases hok : Whole s e
      · exact RunWithin.cons hok hstep (ih (inv_step h hok hstep) hend)
      · have hdamaged := damaged_of_not_whole h hplain hstep hok
        have hkeep := hrest.invariant (fun _ _ _ hd hp hs => damaged_step hd hp hs) hdamaged
        exact absurd hkeep hend

/-- While items are stored whole, every row has exactly one document at the start of every pass; and if
that is so at the start of a pass, then all items of plain texts were stored whole until then: what a
failure left is not repaired. -/
theorem stores_consistent_whole {s t : State} {es : List Event} (hpc : s.pc = .passStart)
    (hs : Matched s.rows s.docs) :
    (RunWithin step Whole s es t → AllAlong step s es ConsistentAtStart) ∧
      (RunWithin step PlainEntries s es t → t.pc = .passStart → Consistent t →
        RunWithin step Whole s es t) := by
  have hinv : Inv s := by
    unfold Inv
    rw [hpc]
    exact hs
  refine ⟨?_, ?_⟩
  · intro hrun
    refine hrun.allAlong (fun _ _ _ h hok hstep => inv_step h hok hstep) ?_ hinv
    intro u hu hstart
    refine (hu.matched ?_).consistent
    rw [hstart]
    exact True.intro
  · intro hrun _ hcons
    exact runWithin_whole_of_not_damaged hinv hrun fun hdamaged => hdamaged.not_consistent hcons

/-- The backend before its first pass, with one source, which is due. -/
def firstPass : State :=
  { clock := 5 * second
    sources :=
      [{ id := 1, name := "https://36kr.com".toList, path := "/feed".toList, status := 0,
         lastExecute := 0, nextExecute := 0, gap := 1, active := true }]
    rows := []
    docs := []
    pc := .passStart }

def entryA : RssEntry := ⟨"A".toList, "/a".toList, "first".toList, []⟩

def entryB : RssEntry := ⟨"B".toList, "/b".toList, "second".toList, []⟩

/-- In the first pass the row of the second entry is refused.  In the second pass that entry is stored,
and then MongoDB throws and the process is started again. -/
def repaired : List Event :=
  [.getRssSources (5 * second), .getRSS (some [entryB, entryA]), .getLatestLinks,
    .entry, .insert (.row 1) false, .select (some 1), .insertOne true none,
    .entry, .insert .nothing true, .entry, .update (9 * second) none, .sleep (10 * second),
    .getRssSources (hour + 5 * second), .getRSS (some [entryB, entryA]), .getLatestLinks,
    .entry, .entry, .insert (.row 3) false, .select (some 3),
    .insertOne true (some (hour + 10 * second))]

/-- The two entries are stored, and the process is before its third pass. -/
def thirdPass : State :=
  { clock := hour + 10 * second
    sources :=
      [{ id := 1, name := "https://36kr.com".toList, path := "/feed".toList, status := 1,
         lastExecute := 9 * second, nextExecute := hour, gap := 1, active := true }]
    rows := [⟨1, 1, "A".toList, "/a".toList, []⟩, ⟨3, 1, "B".toList, "/b".toList, []⟩]
    docs := [entryA.doc 1, entryB.doc 3]
    pc := .passStart }

theorem stores_consistent_whole_repaired : AllAlong step firstPass repaired ConsistentAtStart := by
  have hrun : RunWithin step Whole firstPass repaired thirdPass := runWithin_of_exec (by decide)
  exact (stores_consistent_whole rfl ⟨by decide, by decide⟩).1 hrun

/-- MongoDB throws before it has written the document of the first entry; the second pass skips the
entry, for its link is among the latest. -/
def lost : List Event :=
  [.getRssSources (5 * second), .getRSS (some [entryA]), .getLatestLinks,
    .entry, .insert (.row 1) false, .select (some 1), .insertOne false (some (10 * second)),
    .getRssSources (10 * second), .getRSS (some [entryA]), .getLatestLinks,
    .entry, .entry, .update (12 * second) none, .sleep (13 * second)]

/-- At the start of the third pass there is the row of the entry, and no document. -/
theorem not_consistent_lost :
    (exec step firstPass lost).map (fun t => (t.rows.map RssItem.id, t.docs)) = some ([1], []) ∧
      ¬ AllAlong step firstPass lost ConsistentAtStart := by
  have hexec : exec step firstPass lost =
      some
        { clock := hour + 5 * second
          sources :=
            [{ id := 1, name := "https://36kr.com".toList, path := "/feed".toList, status := 0,
               lastExecute := 12 * second, nextExecute := hour, gap := 1, active := true }]
          rows := [⟨1, 1, "A".toList, "/a".toList, []⟩]
          docs := []
          pc := .passStart } := by decide
  refine ⟨by rw [hexec]; rfl, ?_⟩
  intro hall
  have hcons := hall lost [] _ (by simp) (run_of_exec hexec)
  exact absurd (hcons rfl) (by decide)

end RssB
end MyCppCode
