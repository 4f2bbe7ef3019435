import Mathlib.Data.List.Sort
import MyCppCode.Foundation.TransitionSystem

/-!
# Main — the loop of the RSS backend

A pass of the loop of `main` selects the sources that are due, fetches the feed of each, stores its new
entries, first as a row of `rss_item` and then as a document of MongoDB, and writes back when the source
is due again.  Then it sleeps to the next hour.

What is outside the program comes with the events: the time, the feeds, and whether a call of MySQL or
MongoDB threw, with its statement executed or not.  An exception that is not caught ends the process,
and it is started again.

Times are nanoseconds since the epoch, as those of `system_clock`.
-/

namespace MyCppCode
namespace RssB

abbrev Text := List Char

/-! ## Hours -/

def second : Int := 1000000000

def hour : Int := 3600 * second

/-- `std::chrono::round<hours>`: to the nearest hour, and to the even one when both are equally near. -/
def roundHours (t : Int) : Int :=
  let t0 := t / hour
  let t1 := t0 + 1
  let diff0 := t - t0 * hour
  let diff1 := t1 * hour - t
  if diff0 = diff1 then
    if t0 % 2 = 1 then t1 else t0
  else if diff0 < diff1 then
    t0
  else
    t1

/-- `system_clock::to_time_t`: `duration_cast` to seconds, which drops the fraction. -/
def toTimeT (t : Int) : Int := t.tdiv second

/-- `sleep_to_next_hour`, called at `now2`: the time it returns at, after `sleep_for`. -/
def sleepToNextHour (now2 : Int) : Int :=
  let next := roundHours (now2 + hour) * hour + 5 * second
  -- `duration_cast<seconds>`
  let snds := (next - now2).tdiv second
  now2 + snds * second

/-! ## Sources -/

/-- A row of `rss_source`, and the object that is made of it. -/
structure RssSource where
  id : Nat
  name : Text
  path : Text
  status : Int
  lastExecute : Int
  nextExecute : Int
  gap : Int
  active : Bool
  deriving DecidableEq, Repr

def MAX_GAP : Int := 7 * 24

/-- The columns that `update_2_db` computes at `now`.  A column holds a time as the text of
`time_point_2_string`, which has no fraction of a second. -/
def RssSource.update (src : RssSource) (success newData : Bool) (now : Int) : RssSource :=
  let status :=
    if success then
      if newData then max 0 src.status + 1 else 0
    else if src.status ≥ 0 then -1 else src.status - 1
  -- four failures in a row double the gap, four passes in a row with new data halve it
  let gap :=
    if status < -3 then
      -- `gap << 1` in 32 bits
      min (Int.bmod (src.gap * 2) 4294967296) MAX_GAP
    else if status > 3 then
      max 1 (src.gap / 2)
    else
      src.gap
  let status := if status < -3 ∨ status > 3 then 0 else status
  { src with
    status := status
    gap := gap
    lastExecute := toTimeT now * second
    nextExecute := roundHours (now + gap * hour) * hour }

/-- The `update` statement of `update_2_db`: it is for the row with the id of the source. -/
def updateSources (sources : List RssSource) (src : RssSource) (success newData : Bool) (now : Int) :
    List RssSource :=
  let new := src.update success newData now
  sources.map fun row =>
    if row.id = src.id then
      { row with
        status := new.status
        gap := new.gap
        lastExecute := new.lastExecute
        nextExecute := new.nextExecute }
    else
      row

/-- `getRssSources` at `now`.  The times are compared as the texts of `time_point_2_string`, to the
second. -/
def getRssSources (sources : List RssSource) (now : Int) : List RssSource :=
  sources.filter fun src => src.active && decide (toTimeT src.nextExecute ≤ toTimeT now)

/-! ## Items -/

structure RssEntry where
  title : Text
  link : Text
  description : Text
  pubdate : Text
  deriving DecidableEq, Repr

def RssEntry.getTitle (entry : RssEntry) : Text :=
  if entry.title.isEmpty then "no title".toList else entry.title

/-- A row of `rss_item`. -/
structure RssItem where
  id : Nat
  sourceid : Nat
  title : Text
  link : Text
  pubdate : Text
  deriving DecidableEq, Repr

/-- A document of the collection `rssitem`. -/
structure RssMongo where
  itemid : Nat
  title : Text
  link : Text
  description : Text
  deriving DecidableEq, Repr

/-- The document that `insert_2_mongo` writes. -/
def RssEntry.doc (entry : RssEntry) (itemid : Nat) : RssMongo :=
  ⟨itemid, entry.getTitle, entry.link, entry.description⟩

/-- The text stands between quotes in the statement and means itself there, and it fits its column. -/
def plainText (text : Text) (size : Nat) : Bool :=
  text.all (fun c => c != '\'' && c != '\\') && decide (text.length ≤ size)

def RssEntry.plain (entry : RssEntry) : Bool :=
  plainText entry.getTitle 256 && plainText entry.link 256 && plainText entry.pubdate 45

/-- `get_latest_links`. -/
def getLatestLinks (rows : List RssItem) (sourceid count : Nat) : List Text :=
  let ofSource := rows.filter fun row => row.sourceid = sourceid
  -- `order by id desc limit count`
  ((ofSource.insertionSort fun a b => b.id ≤ a.id).take count).map RssItem.link

/-- What the server did of an `insert` statement.  A text that is not plain makes another statement of
it, of which nothing is known but that it leaves some table. -/
inductive Effect
  | nothing
  | row (id : Nat)
  | other (after : List RssItem)
  deriving DecidableEq, Repr

/-- The rows after the `insert` statement of `insert_2_db`.  `id` is an `auto_increment`, which is above
all that have been given, and `unique(link)` refuses a link that is there.  A statement without effect
throws. -/
def insertRow (rows : List RssItem) (sourceid : Nat) (entry : RssEntry) (threw : Bool) :
    Effect → Option (List RssItem)
  | .nothing => if threw then some rows else none
  | .row id =>
      if entry.plain ∧ (∀ r ∈ rows, r.id < id) ∧ (∀ r ∈ rows, r.link ≠ entry.link) then
        some (rows ++ [⟨id, sourceid, entry.getTitle, entry.link, entry.pubdate⟩])
      else
        none
  | .other after => if entry.plain then none else some after

/-- `select max(id) … where link=…`; without a row the value is null. -/
def maxId (rows : List RssItem) (link : Text) : Option Nat :=
  ((rows.filter fun row => row.link = link).map RssItem.id).max?

/-! ## The loop of `main` -/

/-- The loop over the entries of one source: `rest` is in the order in which they are dealt with. -/
structure Loop where
  source : RssSource
  latest : List Text
  rest : List RssEntry
  hasNew : Bool
  todo : List RssSource
  deriving DecidableEq, Repr

/-- Before which call the program is. -/
inductive Pc
  | passStart
  | sources (todo : List RssSource)
  | fetched (source : RssSource) (vre : List RssEntry) (todo : List RssSource)
  | entries (loop : Loop)
  | inserting (loop : Loop) (entry : RssEntry)
  | selecting (loop : Loop) (entry : RssEntry)
  | storing (loop : Loop) (entry : RssEntry) (itemid : Nat)
  | updating (source : RssSource) (success hasNew : Bool) (todo : List RssSource)
  deriving DecidableEq, Repr

/-- `clock` is the time that was last read. -/
structure State where
  clock : Int
  sources : List RssSource
  rows : List RssItem
  docs : List RssMongo
  pc : Pc
  deriving DecidableEq, Repr

/-- A call with `throws` throws, nobody catches the exception, and the process is started again at the
time given. -/
inductive Event
  | getRssSources (now : Int)
  | getRSS (feed : Option (List RssEntry))
  | getLatestLinks
  | entry
  | insert (effect : Effect) (threw : Bool)
  | select (found : Option Nat)
  | insertOne (written : Bool) (throws : Option Int)
  | update (now : Int) (throws : Option Int)
  | sleep (now : Int)
  | throws (now : Int)
  deriving DecidableEq, Repr

/-- The process is started again, and with it the pass. -/
def State.restart (s : State) (now : Int) : Option State :=
  if s.clock ≤ now then some { s with clock := now, pc := .passStart } else none

/-- `getRssSources`, and the start of the loop over its sources. -/
def State.getRssSources (s : State) (now : Int) : Option State :=
  if s.clock ≤ now then
    some { s with clock := now, pc := .sources (RssB.getRssSources s.sources now) }
  else
    none

/-- One iteration of the loop over the entries, up to the first call. -/
def State.entry (s : State) (loop : Loop) : State :=
  match loop.rest with
  | [] => { s with pc := .updating loop.source true loop.hasNew loop.todo }
  | entry :: rest =>
      -- an entry whose link is among the latest is taken for known, document or not
      if entry.link ∈ loop.latest then
        { s with pc := .entries { loop with rest := rest } }
      else
        { s with pc := .inserting { loop with rest := rest } entry }

/-- The `insert` of `insert_2_db`; the exception is caught and the loop goes on. -/
def State.insert (s : State) (loop : Loop) (entry : RssEntry) (effect : Effect) (threw : Bool) :
    Option State :=
  (insertRow s.rows loop.source.id entry threw effect).map fun rows =>
    { s with rows := rows, pc := if threw then .entries loop else .selecting loop entry }

/-- The `select` of `insert_2_db`; it throws also where the value is null, and the exception is
caught. -/
def State.select (s : State) (loop : Loop) (entry : RssEntry) : Option Nat → Option State
  | none => some { s with pc := .entries loop }
  | some id =>
      if plainText entry.link 256 ∧ maxId s.rows entry.link ≠ some id then
        none
      else
        some { s with pc := .storing loop entry id }

/-- `insert_2_mongo`; its exception is none that `main` catches. -/
def State.insertOne (s : State) (loop : Loop) (entry : RssEntry) (itemid : Nat) (written : Bool)
    (throws : Option Int) : Option State :=
  let docs := if written then s.docs ++ [entry.doc itemid] else s.docs
  match throws with
  | some now => State.restart { s with docs := docs } now
  | none =>
      if written then
        some { s with docs := docs, pc := .entries { loop with hasNew := true } }
      else
        none

/-- `update_2_db`. -/
def State.update (s : State) (source : RssSource) (success hasNew : Bool) (todo : List RssSource)
    (now : Int) (throws : Option Int) : Option State :=
  if s.clock ≤ now then
    let s :=
      { s with clock := now, sources := updateSources s.sources source success hasNew now }
    match throws with
    | some now => s.restart now
    | none => some { s with pc := .sources todo }
  else
    none

def step (s : State) (e : Event) : Option State :=
  match s.pc, e with
  | .passStart, .getRssSources now => s.getRssSources now
  | .passStart, .throws now => s.restart now
  | .sources [], .sleep now =>
      if s.clock ≤ now then
        some { s with clock := sleepToNextHour now, pc := .passStart }
      else
        none
  | .sources (source :: todo), .getRSS none =>
      some { s with pc := .updating source false false todo }
  | .sources (source :: todo), .getRSS (some vre) =>
      some { s with pc := .fetched source vre todo }
  | .fetched source vre todo, .getLatestLinks =>
      -- the entries are dealt with from the last to the first
      let latest := getLatestLinks s.rows source.id vre.length
      some { s with pc := .entries ⟨source, latest, vre.reverse, false, todo⟩ }
  | .fetched .., .throws now => s.restart now
  | .entries loop, .entry => some (s.entry loop)
  | .inserting loop entry, .insert effect threw => s.insert loop entry effect threw
  | .selecting loop entry, .select found => s.select loop entry found
  | .storing loop entry itemid, .insertOne written throws =>
      s.insertOne loop entry itemid written throws
  | .updating source success hasNew todo, .update now throws =>
      s.update source success hasNew todo now throws
  | .updating .., .throws now => s.restart now
  | _, _ => none

/-! ## What a step does -/

/-- The program is before a call outside the loop over the entries. -/
def Pc.outside : Pc → Prop
  | .passStart | .fetched .. | .updating .. => True
  | _ => False

/-- The moves of the program, each with what it requires and what it changes. -/
inductive Moves (s : State) : Event → State → Prop where
  | getRssSources (now : Int) (hpc : s.pc = .passStart) (hle : s.clock ≤ now) :
      Moves s (.getRssSources now)
        { s with clock := now, pc := .sources (RssB.getRssSources s.sources now) }
  | throws (now : Int) (hpc : s.pc.outside) (hle : s.clock ≤ now) :
      Moves s (.throws now) { s with clock := now, pc := .passStart }
  | sleep (now : Int) (hpc : s.pc = .sources []) (hle : s.clock ≤ now) :
      Moves s (.sleep now) { s with clock := sleepToNextHour now, pc := .passStart }
  | failed (source : RssSource) (todo : List RssSource) (hpc : s.pc = .sources (source :: todo)) :
      Moves s (.getRSS none) { s with pc := .updating source false false todo }
  | fetched (source : RssSource) (todo : List RssSource) (vre : List RssEntry)
      (hpc : s.pc = .sources (source :: todo)) :
      Moves s (.getRSS (some vre)) { s with pc := .fetched source vre todo }
  | getLatestLinks (source : RssSource) (vre : List RssEntry) (todo : List RssSource)
      (hpc : s.pc = .fetched source vre todo) :
      Moves s .getLatestLinks
        { s with
          pc := .entries
            ⟨source, RssB.getLatestLinks s.rows source.id vre.length, vre.reverse, false, todo⟩ }
  | finished (loop : Loop) (hpc : s.pc = .entries loop) (hrest : loop.rest = []) :
      Moves s .entry { s with pc := .updating loop.source true loop.hasNew loop.todo }
  | known (loop : Loop) (entry : RssEntry) (rest : List RssEntry) (hpc : s.pc = .entries loop)
      (hrest : loop.rest = entry :: rest) (hmem : entry.link ∈ loop.latest) :
      Moves s .entry { s with pc := .entries { loop with rest := rest } }
  | new (loop : Loop) (entry : RssEntry) (rest : List RssEntry) (hpc : s.pc = .entries loop)
      (hrest : loop.rest = entry :: rest) (hmem : entry.link ∉ loop.latest) :
      Moves s .entry { s with pc := .inserting { loop with rest := rest } entry }
  | insert (loop : Loop) (entry : RssEntry) (effect : Effect) (threw : Bool) (rows : List RssItem)
      (hpc : s.pc = .inserting loop entry)
      (hrows : insertRow s.rows loop.source.id entry threw effect = some rows) :
      Moves s (.insert effect threw)
        { s with rows := rows, pc := if threw then .entries loop else .selecting loop entry }
  | selectThrew (loop : Loop) (entry : RssEntry) (hpc : s.pc = .selecting loop entry) :
      Moves s (.select none) { s with pc := .entries loop }
  | select (loop : Loop) (entry : RssEntry) (id : Nat) (hpc : s.pc = .selecting loop entry)
      (hid : plainText entry.link 256 → maxId s.rows entry.link = some id) :
      Moves s (.select (some id)) { s with pc := .storing loop entry id }
  | stored (loop : Loop) (entry : RssEntry) (itemid : Nat) (hpc : s.pc = .storing loop entry itemid) :
      Moves s (.insertOne true none)
        { s with docs := s.docs ++ [entry.doc itemid], pc := .entries { loop with hasNew := true } }
  | storeThrew (loop : Loop) (entry : RssEntry) (itemid : Nat) (written : Bool) (now : Int)
      (hpc : s.pc = .storing loop entry itemid) (hle : s.clock ≤ now) :
      Moves s (.insertOne written (some now))
        { s with
          clock := now
          docs := if written then s.docs ++ [entry.doc itemid] else s.docs
          pc := .passStart }
  | updated (source : RssSource) (success hasNew : Bool) (todo : List RssSource) (now : Int)
      (hpc : s.pc = .updating source success hasNew todo) (hle : s.clock ≤ now) :
      Moves s (.update now none)
        { s with
          clock := now
          sources := updateSources s.sources source success hasNew now
          pc := .sources todo }
  | updateThrew (source : RssSource) (success hasNew : Bool) (todo : List RssSource)
      (now restart : Int) (hpc : s.pc = .updating source success hasNew todo) (hle : s.clock ≤ now)
      (hlt : now ≤ restart) :
      Moves s (.update now (some restart))
        { s with
          clock := restart
          sources := updateSources s.sources source success hasNew now
          pc := .passStart }

theorem State.restart_eq {s t : State} {now : Int} (h : s.restart now = some t) :
    s.clock ≤ now ∧ t = { s with clock := now, pc := .passStart } := by
  unfold State.restart at h
  split at h
  · cases h
    exact ⟨‹_›, rfl⟩
  · cases h

theorem moves_throws {s t : State} {now : Int} (hpc : s.pc.outside) (h : s.restart now = some t) :
    Moves s (.throws now) t := by
  obtain ⟨hle, rfl⟩ := State.restart_eq h
  exact Moves.throws now hpc hle

theorem moves_entry {s : State} {loop : Loop} (hpc : s.pc = .entries loop) :
    Moves s .entry (s.entry loop) := by
  unfold State.entry
  split
  · exact Moves.finished loop hpc ‹_›
  · rename_i entry rest hrest
    split
    · exact Moves.known loop entry rest hpc hrest ‹_›
    · exact Moves.new loop entry rest hpc hrest ‹_›

theorem moves_insert {s t : State} {loop : Loop} {entry : RssEntry} {effect : Effect} {threw : Bool}
    (hpc : s.pc = .inserting loop entry) (h : s.insert loop entry effect threw = some t) :
    Moves s (.insert effect threw) t := by
  obtain ⟨rows, hrows, rfl⟩ := Option.map_eq_some_iff.1 h
  exact Moves.insert loop entry effect threw rows hpc hrows

theorem moves_select {s t : State} {loop : Loop} {entry : RssEntry} {found : Option Nat}
    (hpc : s.pc = .selecting loop entry) (h : s.select loop entry found = some t) :
    Moves s (.select found) t := by
  cases found with
  | none =>
      cases h
      exact Moves.selectThrew loop entry hpc
  | some id =>
      simp only [State.select] at h
      split at h
      · cases h
      · rename_i hid
        cases h
        refine Moves.select loop entry id hpc ?_
        intro hplain
        exact Decidable.not_not.1 fun hne => hid ⟨hplain, hne⟩

theorem moves_insertOne {s t : State} {loop : Loop} {entry : RssEntry} {itemid : Nat} {written : Bool}
    {throws : Option Int} (hpc : s.pc = .storing loop entry itemid)
    (h : s.insertOne loop entry itemid written throws = some t) :
    Moves s (.insertOne written throws) t := by
  cases throws with
  | none =>
      cases written with
      | false =>
          cases h
      | true =>
          cases h
          exact Moves.stored loop entry itemid hpc
  | some now =>
      obtain ⟨hle, rfl⟩ := State.restart_eq h
      exact Moves.storeThrew loop entry itemid written now hpc hle

theorem moves_update {s t : State} {source : RssSource} {success hasNew : Bool}
    {todo : List RssSource} {now : Int} {throws : Option Int}
    (hpc : s.pc = .updating source success hasNew todo)
    (h : s.update source success hasNew todo now throws = some t) : Moves s (.update now throws) t := by
  simp only [State.update] at h
  split at h
  · rename_i hle
    cases throws with
    | none =>
        cases h
        exact Moves.updated source success hasNew todo now hpc hle
    | some restart =>
        obtain ⟨hlt, rfl⟩ := State.restart_eq h
        exact Moves.updateThrew source success hasNew todo now restart hpc hle hlt
  · cases h

theorem moves_of_step {s t : State} {e : Event} (h : step s e = some t) : Moves s e t := by
  unfold step at h
  split at h
  next now hpc =>
    simp only [State.getRssSources] at h
    split at h
    · cases h
      exact Moves.getRssSources now hpc ‹_›
    · cases h
  next now hpc =>
    exact moves_throws (by simp [hpc, Pc.outside]) h
  next now hpc =>
    split at h
    · cases h
      exact Moves.sleep now hpc ‹_›
    · cases h
  next source todo hpc =>
    cases h
    exact Moves.failed source todo hpc
  next source todo vre hpc =>
    cases h
    exact Moves.fetched source todo vre hpc
  next source vre todo hpc =>
    cases h
    exact Moves.getLatestLinks source vre todo hpc
  next now hpc =>
    exact moves_throws (by simp [hpc, Pc.outside]) h
  next loop hpc =>
    cases h
    exact moves_entry hpc
  next hpc =>
    exact moves_insert hpc h
  next hpc =>
    exact moves_select hpc h
  next hpc =>
    exact moves_insertOne hpc h
  next hpc =>
    exact moves_update hpc h
  next hpc =>
    exact moves_throws (by simp [hpc, Pc.outside]) h
  next =>
    cases h

end RssB
end MyCppCode
