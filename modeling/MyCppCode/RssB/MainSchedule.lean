import MyCppCode.RssB.Main

/-!
# MainSchedule — the hours of the passes

`sleep_to_next_hour` rounds the time one hour from now to the nearest hour.  A pass that ends in the
first half of its hour is followed by the pass of the next hour; one that ends in the second half sleeps
that hour through.

* `atFivePast_sleepToNextHour_iff`: which ends of a pass lead to the next hour;
* `no_hour_skipped_iff`: the runs in which no hour is skipped.
-/

namespace MyCppCode
namespace RssB

open Foundation

/-! ## Sleeping to an hour -/

theorem toTimeT_mono {t u : Int} (h : t ≤ u) : toTimeT t ≤ toTimeT u :=
  Int.tdiv_le_tdiv (by decide) h

/-- From the hour `h`, one hour later is rounded to the hour `h + 1` in its first half, and at its
middle when that hour is even. -/
theorem roundHours_add_hour_eq_iff {h now : Int} (hfrom : h * hour ≤ now) (hto : now < (h + 1) * hour) :
    roundHours (now + hour) = h + 1 ↔
      2 * (now - h * hour) < hour ∨ 2 * (now - h * hour) = hour ∧ h % 2 = 1 := by
  simp only [hour, second] at hfrom hto ⊢
  -- the hour from now is within the hour `h + 1`, so that is what it is rounded down to
  have hfloor : (now + 3600 * 1000000000) / (3600 * 1000000000) = h + 1 := by omega
  simp only [roundHours, hour, second, hfloor]
  split
  · split <;> omega
  · split <;> omega

theorem floor_le_roundHours (t : Int) : t / hour ≤ roundHours t := by
  simp only [roundHours]
  split
  · split <;> omega
  · split <;> omega

/-- `duration_cast` to seconds drops the fraction, so the sleep ends within the second before. -/
theorem sleepToNextHour_bounds (now : Int) :
    roundHours (now + hour) * hour + 4 * second < sleepToNextHour now ∧
      sleepToNextHour now ≤ roundHours (now + hour) * hour + 5 * second := by
  -- the wake-up is not before now, so truncation is towards the past
  have hround := floor_le_roundHours (now + hour)
  simp only [sleepToNextHour]
  simp only [hour, second] at hround ⊢
  rw [Int.tdiv_eq_ediv_of_nonneg (by omega)]
  omega

/-- The time is five seconds past the hour `h`, up to the fraction of a second that the sleep drops. -/
def AtFivePast (h t : Int) : Prop := h * hour + 4 * second < t ∧ t ≤ h * hour + 5 * second

instance (h t : Int) : Decidable (AtFivePast h t) := inferInstanceAs (Decidable (_ ∧ _))

theorem atFivePast_unique {h k t : Int} (hh : AtFivePast h t) (hk : AtFivePast k t) : h = k := by
  simp only [AtFivePast, hour, second] at hh hk
  omega

theorem atFivePast_sleepToNextHour_iff {h now : Int} (hfrom : h * hour ≤ now)
    (hto : now < (h + 1) * hour) :
    AtFivePast (h + 1) (sleepToNextHour now) ↔
      2 * (now - h * hour) < hour ∨ 2 * (now - h * hour) = hour ∧ h % 2 = 1 := by
  rw [← roundHours_add_hour_eq_iff hfrom hto]
  have hround : AtFivePast (roundHours (now + hour)) (sleepToNextHour now) := sleepToNextHour_bounds now
  constructor
  · intro hat
    exact atFivePast_unique hround hat
  · intro heq
    rwa [heq] at hround

/-- The sleep is a number of whole seconds, so a fraction of a second is kept. -/
theorem sleepToNextHour_emod (now : Int) : sleepToNextHour now % second = now % second :=
  Int.add_mul_emod_self_right ..

/-- The wake-up is five seconds past the next hour exactly for the ends of a pass that are whole
seconds. -/
theorem sleepToNextHour_eq_iff {h now : Int} (hfrom : h * hour ≤ now) (hto : now < (h + 1) * hour) :
    sleepToNextHour now = (h + 1) * hour + 5 * second ↔
      (2 * (now - h * hour) < hour ∨ 2 * (now - h * hour) = hour ∧ h % 2 = 1) ∧ now % second = 0 := by
  have hmod := sleepToNextHour_emod now
  rw [← atFivePast_sleepToNextHour_iff hfrom hto]
  constructor
  · intro heq
    rw [heq] at hmod ⊢
    simp only [AtFivePast, hour, second] at hmod ⊢
    omega
  · rintro ⟨hat, hwhole⟩
    simp only [AtFivePast, hour, second] at hat hmod hwhole ⊢
    omega

/-! ## Runs in which every pass is over before the next hour -/

/-- The exception that the event stands for ends the process. -/
def Event.uncaught : Event → Bool
  | .throws _ => true
  | .insertOne _ (some _) => true
  | .update _ (some _) => true
  | _ => false

/-- The state of the program, and the hour whose pass it is in or before. -/
structure Pass where
  hour : Int
  state : State
  deriving DecidableEq, Repr

/-- A step of a run in which no exception ends the process and every pass ends before the next full
hour. -/
def passStep (p : Pass) (e : Event) : Option Pass :=
  if e.uncaught then
    none
  else
    match e with
    | .sleep now =>
        if now < (p.hour + 1) * RssB.hour then
          (step p.state e).map fun s => ⟨p.hour + 1, s⟩
        else
          none
    | _ => (step p.state e).map fun s => ⟨p.hour, s⟩

/-- The pass starts at five past its hour, and it fetches every active source that is due at that
hour. -/
def OnHour (p : Pass) : Prop :=
  p.state.pc = .passStart →
    AtFivePast p.hour p.state.clock ∧
      ∀ source ∈ p.state.sources, source.active → source.nextExecute = p.hour * hour →
        ∀ now, p.state.clock ≤ now → source ∈ getRssSources p.state.sources now

/-- A pass ends in the first half of its hour, or at the middle of an odd one. -/
def EndsInFirstHalf (p : Pass) : Event → Prop
  | .sleep now =>
      2 * (now - p.hour * hour) < hour ∨ 2 * (now - p.hour * hour) = hour ∧ p.hour % 2 = 1
  | _ => True

theorem mem_getRssSources {sources : List RssSource} {source : RssSource} {now : Int}
    (hmem : source ∈ sources) (hactive : source.active) (hle : source.nextExecute ≤ now) :
    source ∈ getRssSources sources now := by
  have hsec := toTimeT_mono hle
  simp [getRssSources, hmem, hactive, hsec]

/-- What is due at the hour is selected at any time from five past it. -/
theorem onHour_of_atFivePast {p : Pass} (hat : AtFivePast p.hour p.state.clock) : OnHour p := by
  intro _
  refine ⟨hat, ?_⟩
  intro source hmem hactive hnext now hle
  refine mem_getRssSources hmem hactive ?_
  have hfrom := hat.1
  simp only [hour, second] at hnext hfrom
  omega

/-- Within a pass time goes on and no other pass starts. -/
theorem step_within {s t : State} {e : Event} (h : step s e = some t) (hcaught : e.uncaught = false)
    (hsleep : ∀ now, e ≠ .sleep now) : t.pc ≠ .passStart ∧ s.clock ≤ t.clock := by
  cases moves_of_step h with
  | throws | storeThrew | updateThrew =>
      cases hcaught
  | sleep now =>
      exact absurd rfl (hsleep now)
  | getRssSources now hpc hle =>
      exact ⟨nofun, hle⟩
  | updated source success hasNew todo now hpc hle =>
      exact ⟨nofun, hle⟩
  | insert loop entry effect threw rows hpc hrows =>
      cases threw with
      | false =>
          exact ⟨nofun, Int.le_refl _⟩
      | true =>
          exact ⟨nofun, Int.le_refl _⟩
  | _ =>
      exact ⟨nofun, Int.le_refl _⟩

theorem step_sleep {s t : State} {now : Int} (h : step s (.sleep now) = some t) :
    s.clock ≤ now ∧ t.pc = .passStart ∧ t.clock = sleepToNextHour now := by
  cases moves_of_step h with
  | sleep now hpc hle =>
      exact ⟨hle, rfl, rfl⟩

/-- What a step does to the hours: the last of a pass starts the next one where `EndsInFirstHalf`
allows it, and the others stay in the pass. -/
theorem passStep_onHour {p q : Pass} {e : Event} (hfrom : p.hour * hour ≤ p.state.clock)
    (h : passStep p e = some q) :
    (OnHour q ↔ EndsInFirstHalf p e) ∧ (OnHour q → q.hour * hour ≤ q.state.clock) := by
  unfold passStep at h
  split at h
  · cases h
  rename_i hcaught
  split at h
  next now =>
    split at h
    · -- the end of the pass: the time read before `sleep_to_next_hour` decides
      rename_i hto
      obtain ⟨t, hstep, rfl⟩ := Option.map_eq_some_iff.1 h
      obtain ⟨hle, hpc, hclock⟩ := step_sleep hstep
      have hiff := atFivePast_sleepToNextHour_iff (Int.le_trans hfrom hle) hto
      have hat : OnHour ⟨p.hour + 1, t⟩ ↔ AtFivePast (p.hour + 1) t.clock :=
        ⟨fun hon => (hon hpc).1, fun hat => onHour_of_atFivePast hat⟩
      refine ⟨?_, ?_⟩
      · rw [hat, hclock]
        exact hiff
      · intro hon
        have hgt := (hat.1 hon).1
        simp only [hour, second] at hgt ⊢
        omega
    · cases h
  next hsleep =>
    obtain ⟨t, hstep, rfl⟩ := Option.map_eq_some_iff.1 h
    obtain ⟨hpc, hclock⟩ := step_within hstep (by simpa using hcaught) hsleep
    have hok : EndsInFirstHalf p e := by
      cases e with
      | sleep now =>
          exact absurd rfl (hsleep now)
      | _ =>
          exact True.intro
    refine ⟨⟨fun _ => hok, fun _ hstart => absurd hstart hpc⟩, ?_⟩
    intro _
    exact Int.le_trans hfrom hclock

/-- From the start of a pass at five past its hour, every pass is at five past its hour and fetches what
is due then exactly when every pass ends in the first half of its hour.  Without any tolerance for the
dropped fraction, the pass also has to end at a whole second. -/
theorem no_hour_skipped_iff {p q : Pass} {es : List Event}
    (hat : AtFivePast p.hour p.state.clock) (hrun : Run passStep p es q) :
    (AllAlong passStep p es OnHour ↔ RunWithin passStep EndsInFirstHalf p es q) ∧
      ∀ now, p.hour * hour ≤ now → now < (p.hour + 1) * hour →
        (sleepToNextHour now = (p.hour + 1) * hour + 5 * second ↔
          EndsInFirstHalf p (.sleep now) ∧ now % second = 0) := by
  have hfrom : p.hour * hour ≤ p.state.clock := by
    have hgt := hat.1
    simp only [hour, second] at hgt ⊢
    omega
  refine ⟨?_, fun now hle hlt => sleepToNextHour_eq_iff hle hlt⟩
  exact allAlong_iff_runWithin (fun s e t hI _ hstep => passStep_onHour hI hstep) hrun hfrom
    (onHour_of_atFivePast hat)

/-- The pass of ten o'clock, with a source that is due at eleven. -/
def passOfTen : Pass :=
  { hour := 10
    state :=
      { clock := 10 * hour + 5 * second
        sources :=
          [{ id := 1, name := "https://36kr.com".toList, path := "/feed".toList, status := 0,
             lastExecute := 9 * hour, nextExecute := 11 * hour, gap := 1, active := true }]
        rows := []
        docs := []
        pc := .passStart } }

/-- Nothing is due at ten, and the pass ends half a second after 10:20; the next pass starts half a second
before 11:00:05. -/
def quickPass : List Event :=
  [.getRssSources (10 * hour + 5 * second), .sleep (10 * hour + 1200 * second + 500000000)]

def passOfEleven : Pass :=
  { passOfTen with
    hour := 11
    state := { passOfTen.state with clock := 11 * hour + 4 * second + 500000000 } }

theorem no_hour_skipped_iff_quick : AllAlong passStep passOfTen quickPass OnHour := by
  have hrun : Run passStep passOfTen quickPass passOfEleven := run_of_exec (by decide)
  refine (no_hour_skipped_iff (by decide) hrun).1.2 ?_
  exact RunWithin.cons True.intro rfl
    (RunWithin.cons (Or.inl (by decide)) (by decide) (RunWithin.nil _))

/-- Nothing is due at ten, and the pass ends at 10:40. -/
def slowPass : List Event :=
  [.getRssSources (10 * hour + 5 * second), .sleep (10 * hour + 2400 * second)]

/-- The loop sleeps from 10:40 to 12:00:05, and the source that is due at eleven is not fetched then. -/
theorem not_onHour_slow :
    (exec passStep passOfTen slowPass).map (fun q => (q.hour, q.state.clock)) =
        some (11, 12 * hour + 5 * second) ∧
      ¬ AllAlong passStep passOfTen slowPass OnHour := by
  have hexec : exec passStep passOfTen slowPass =
      some ⟨11, { passOfTen.state with clock := 12 * hour + 5 * second }⟩ := by decide
  refine ⟨by rw [hexec]; rfl, ?_⟩
  intro hall
  have hon := hall slowPass [] _ (by simp) (run_of_exec hexec)
  exact absurd (hon rfl).1 (by decide)

end RssB
end MyCppCode
