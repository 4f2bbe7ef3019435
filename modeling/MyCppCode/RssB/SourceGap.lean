import Mathlib.Data.List.Induction
import MyCppCode.RssB.MainSchedule

/-!
# SourceGap — how often a source is fetched, from the history of its fetches

`update_2_db` keeps one signed counter for two things, the fetches in a row that failed and those that
brought something new.  `streak o os` is what it stands for: the number of times that the history `os`
has `o` at its end without anything else between.  The counter is the streak of new data modulo 4 minus
that of failures (`Tracks`), so the gap changes at every fourth of them.
-/

namespace MyCppCode
namespace RssB

/-- What came of a fetch. -/
inductive Fetch
  | failure
  | noNews
  | news
  deriving DecidableEq, Repr

/-- The arguments of `update_2_db`. -/
def Fetch.success : Fetch → Bool
  | .failure => false
  | .noNews => true
  | .news => true

def Fetch.newData : Fetch → Bool
  | .failure => false
  | .noNews => false
  | .news => true

/-- One call of `update_2_db` for each fetch, with the time of the call. -/
def RssSource.updates (src : RssSource) (fetches : List (Fetch × Int)) : RssSource :=
  fetches.foldl (fun src fetch => src.update fetch.1.success fetch.1.newData fetch.2) src

/-- How often the history ends with `o`, without anything else between. -/
def streak (o : Fetch) (os : List Fetch) : Nat := (os.reverse.takeWhile (· = o)).length

theorem streak_concat (o o' : Fetch) (os : List Fetch) :
    streak o (os ++ [o']) = if o' = o then streak o os + 1 else 0 := by
  unfold streak
  rw [List.reverse_append, List.reverse_singleton, List.singleton_append, List.takeWhile_cons]
  by_cases h : o' = o
  · simp [h]
  · simp [h]

/-- The gap after one more fetch: doubled at each fourth failure in a row, halved at each fourth fetch in
a row with new data, within its bounds. -/
def nextGap (gap : Int) (os : List Fetch) (o : Fetch) : Int :=
  if o = .failure ∧ streak .failure (os ++ [o]) % 4 = 0 then
    min (gap * 2) MAX_GAP
  else if o = .news ∧ streak .news (os ++ [o]) % 4 = 0 then
    max 1 (gap / 2)
  else
    gap

/-- The counter of a source with the history `os`, and the bounds of its gap. -/
structure Tracks (src : RssSource) (os : List Fetch) : Prop where
  status : src.status = (streak .news os % 4 : Nat) - (streak .failure os % 4 : Nat)
  one_side : streak .news os = 0 ∨ streak .failure os = 0
  one_le_gap : 1 ≤ src.gap
  gap_le : src.gap ≤ MAX_GAP

theorem tracks_nil {src : RssSource} (hstatus : src.status = 0) (hone : 1 ≤ src.gap)
    (hmax : src.gap ≤ MAX_GAP) : Tracks src [] :=
  ⟨by simpa [streak] using hstatus, Or.inl rfl, hone, hmax⟩

theorem bmod_gap {gap : Int} (hone : 1 ≤ gap) (hmax : gap ≤ MAX_GAP) :
    Int.bmod (gap * 2) 4294967296 = gap * 2 := by
  simp only [MAX_GAP] at hmax
  rw [Int.bmod_def]
  omega

/-! ## What one call does to the counter and the gap -/

section Update

variable {src : RssSource}

theorem update_failure (hlo : -3 ≤ src.status) (hhi : src.status ≤ 3) (hone : 1 ≤ src.gap)
    (hmax : src.gap ≤ MAX_GAP) (now : Int) :
    (src.update false false now).status =
        (if src.status = -3 then 0 else if src.status < 0 then src.status - 1 else -1) ∧
      (src.update false false now).gap =
        if src.status = -3 then min (src.gap * 2) MAX_GAP else src.gap := by
  simp only [RssSource.update, Bool.false_eq_true, if_false, bmod_gap hone hmax]
  constructor
  · split_ifs <;> omega
  · split_ifs <;> omega

theorem update_noNews (now : Int) :
    (src.update true false now).status = 0 ∧ (src.update true false now).gap = src.gap := by
  simp [RssSource.update]

theorem update_news (hlo : -3 ≤ src.status) (hhi : src.status ≤ 3) (now : Int) :
    (src.update true true now).status =
        (if src.status = 3 then 0 else if 0 < src.status then src.status + 1 else 1) ∧
      (src.update true true now).gap =
        if src.status = 3 then max 1 (src.gap / 2) else src.gap := by
  simp only [RssSource.update, if_true]
  constructor
  · split_ifs <;> omega
  · split_ifs <;> omega

end Update

theorem Tracks.status_bounds {src : RssSource} {os : List Fetch} (h : Tracks src os) :
    -3 ≤ src.status ∧ src.status ≤ 3 := by
  have hstatus := h.status
  omega

/-- The counter is at its bound exactly when the next fetch is the fourth of its kind in a row. -/
theorem Tracks.fourth_iff {src : RssSource} {os : List Fetch} (h : Tracks src os) :
    (src.status = -3 ↔ (streak .failure os + 1) % 4 = 0) ∧
      (src.status = 3 ↔ (streak .news os + 1) % 4 = 0) := by
  obtain ⟨hstatus, hside, -, -⟩ := h
  omega

theorem update_gap {src : RssSource} {os : List Fetch} (h : Tracks src os) (o : Fetch) (now : Int) :
    (src.update o.success o.newData now).gap = nextGap src.gap os o := by
  obtain ⟨hlo, hhi⟩ := h.status_bounds
  obtain ⟨hfailures, hnews⟩ := h.fourth_iff
  cases o with
  | failure =>
      have hgap := (update_failure hlo hhi h.one_le_gap h.gap_le now).2
      have hstreak : streak .failure (os ++ [.failure]) = streak .failure os + 1 := streak_concat ..
      simp only [Fetch.success, Fetch.newData, hgap, nextGap, hstreak, hfailures, true_and]
      rfl
  | noNews => simp [Fetch.success, Fetch.newData, update_noNews, nextGap]
  | news =>
      have hgap := (update_news hlo hhi now).2
      have hstreak : streak .news (os ++ [.news]) = streak .news os + 1 := streak_concat ..
      simp only [Fetch.success, Fetch.newData, hgap, nextGap, hstreak, hnews, true_and]
      rfl

theorem update_status {src : RssSource} {os : List Fetch} (h : Tracks src os) (o : Fetch)
    (now : Int) :
    (src.update o.success o.newData now).status =
        (streak .news (os ++ [o]) % 4 : Nat) - (streak .failure (os ++ [o]) % 4 : Nat) ∧
      (streak .news (os ++ [o]) = 0 ∨ streak .failure (os ++ [o]) = 0) := by
  obtain ⟨hlo, hhi⟩ := h.status_bounds
  obtain ⟨hstatus, hside, hone, hmax⟩ := h
  cases o with
  | failure =>
      have hstatus' := (update_failure hlo hhi hone hmax now).1
      have hfailure : streak .failure (os ++ [.failure]) = streak .failure os + 1 := streak_concat ..
      have hnews : streak .news (os ++ [.failure]) = 0 := streak_concat ..
      refine ⟨?_, Or.inl hnews⟩
      simp only [Fetch.success, Fetch.newData]
      rw [hstatus', hfailure, hnews]
      split_ifs <;> omega
  | noNews => simp [Fetch.success, Fetch.newData, update_noNews, streak_concat]
  | news =>
      have hstatus' := (update_news hlo hhi now).1
      have hfailure : streak .failure (os ++ [.news]) = 0 := streak_concat ..
      have hnews : streak .news (os ++ [.news]) = streak .news os + 1 := streak_concat ..
      refine ⟨?_, Or.inr hfailure⟩
      simp only [Fetch.success, Fetch.newData]
      rw [hstatus', hfailure, hnews]
      split_ifs <;> omega

/-- The gap stays within its bounds. -/
theorem nextGap_bounds {gap : Int} (hone : 1 ≤ gap) (hmax : gap ≤ MAX_GAP) (os : List Fetch)
    (o : Fetch) : 1 ≤ nextGap gap os o ∧ nextGap gap os o ≤ MAX_GAP := by
  have hcap : MAX_GAP = 168 := rfl
  unfold nextGap
  split_ifs <;> omega

/-- One more fetch. -/
theorem tracks_update {src : RssSource} {os : List Fetch} (h : Tracks src os) (o : Fetch) (now : Int) :
    Tracks (src.update o.success o.newData now) (os ++ [o]) := by
  obtain ⟨hstatus, hside⟩ := update_status h o now
  obtain ⟨hone, hmax⟩ := nextGap_bounds h.one_le_gap h.gap_le os o
  rw [← update_gap h o now] at hone hmax
  exact ⟨hstatus, hside, hone, hmax⟩

/-! ## Any number of calls -/

theorem tracks_updates {src : RssSource} (hstatus : src.status = 0) (hone : 1 ≤ src.gap)
    (hmax : src.gap ≤ MAX_GAP) (fetches : List (Fetch × Int)) :
    Tracks (src.updates fetches) (fetches.map Prod.fst) := by
  induction fetches using List.reverseRecOn with
  | nil => exact tracks_nil hstatus hone hmax
  | append_singleton fetches fetch ih =>
      rw [RssSource.updates, List.foldl_append, List.map_append]
      exact tracks_update ih fetch.1 fetch.2

/-- Rounding down takes half an hour at most. -/
theorem le_roundHours (t : Int) : 2 * t ≤ 2 * (roundHours t * hour) + hour := by
  simp only [roundHours, hour, second]
  split_ifs <;> omega

theorem toTimeT_mul_lt (now : Int) : toTimeT now * second < now + second := by
  have hsplit := Int.tdiv_mul_add_tmod now second
  have hfrac := Int.lt_tmod_of_pos now (show 0 < second by decide)
  unfold toTimeT
  omega

/-- A gap of an hour or more leads to a full hour after the call, also where it is rounded down. -/
theorem lastExecute_lt_nextExecute {src : RssSource} {success newData : Bool} {now : Int}
    (hone : 1 ≤ (src.update success newData now).gap) :
    (src.update success newData now).lastExecute < (src.update success newData now).nextExecute := by
  let gap := (src.update success newData now).gap
  have hround := le_roundHours (now + gap * hour)
  have hlast := toTimeT_mul_lt now
  have hgap : 1 * hour ≤ gap * hour := Int.mul_le_mul_of_nonneg_right hone (by decide)
  show toTimeT now * second < roundHours (now + gap * hour) * hour
  have hsecond : 2 * second < hour := by decide
  omega

/-- For any history of fetches the gap and the counter keep their bounds, one more fetch changes the gap as
`nextGap` says, and its `next_execute` is a full hour after its `last_execute`. -/
theorem updates_spec {src : RssSource} (hstatus : src.status = 0) (hone : 1 ≤ src.gap)
    (hmax : src.gap ≤ 168) (fetches : List (Fetch × Int)) (o : Fetch) (now : Int) :
    1 ≤ (src.updates fetches).gap ∧ (src.updates fetches).gap ≤ 168 ∧
      -3 ≤ (src.updates fetches).status ∧ (src.updates fetches).status ≤ 3 ∧
      (src.updates (fetches ++ [(o, now)])).gap =
        nextGap (src.updates fetches).gap (fetches.map Prod.fst) o ∧
      (src.updates (fetches ++ [(o, now)])).nextExecute % hour = 0 ∧
      (src.updates (fetches ++ [(o, now)])).lastExecute <
        (src.updates (fetches ++ [(o, now)])).nextExecute := by
  have htracks := tracks_updates hstatus hone hmax fetches
  obtain ⟨hlo, hhi⟩ := htracks.status_bounds
  have hnext := tracks_update htracks o now
  have hgap := update_gap htracks o now
  have hconcat : src.updates (fetches ++ [(o, now)]) =
      (src.updates fetches).update o.success o.newData now := by
    rw [RssSource.updates, List.foldl_append]
    rfl
  rw [hconcat]
  exact ⟨htracks.one_le_gap, htracks.gap_le, hlo, hhi, hgap, Int.mul_emod_left _ _,
    lastExecute_lt_nextExecute hnext.one_le_gap⟩

/-- A gap of one hour after eight failures in a row, the last one at noon of the second day. -/
theorem updates_spec_eight :
    let src : RssSource :=
      { id := 1, name := "https://36kr.com".toList, path := "/feed".toList, status := 0,
        lastExecute := 0, nextExecute := 0, gap := 1, active := true }
    let failures := List.replicate 7 (Fetch.failure, hour)
    (src.updates (failures ++ [(.failure, 36 * hour)])).gap = 4 ∧
      (src.updates (failures ++ [(.failure, 36 * hour)])).nextExecute = 40 * hour := by
  intro src failures
  have hstatus : src.status = 0 := rfl
  obtain ⟨-, -, -, -, hgap, -, -⟩ := updates_spec hstatus (by decide) (by decide) failures .failure
    (36 * hour)
  refine ⟨hgap.trans (by decide), by decide⟩

end RssB
end MyCppCode
