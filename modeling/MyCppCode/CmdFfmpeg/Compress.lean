import Mathlib.Logic.Function.Basic
import MyCppCode.Foundation.TransitionSystem

/-!
# Compress — the batch compressor `ckb_ffmpeg_compress_mp4_and_jpg`

`scan_file_compress` walks a directory tree, runs `ffmpeg` on every `.mp4` and `.jpg` file that is not
itself an output, and removes the file.  The recursion is a stack of open directory iterators.  Files
come and go while a directory is iterated, so which entry an iterator comes to next, and when it ends,
is left to the run.

How a run of `ffmpeg` ends is left to the run as well.  `compress_by_ffmpeg` waits for its end and does
not ask how it was.
-/

namespace MyCppCode
namespace CmdFfmpeg

open Foundation

abbrev Path := List Char

/-! ## Names -/

def endsWith (path suffix : Path) : Bool := suffix.isSuffixOf path

def process (extension : Path) (inPath : Path) : Option Path :=
  if endsWith inPath ("_COMPRESS".toList ++ extension) then
    none
  else
    -- `substr` takes four characters off, for either extension
    some (inPath.take (inPath.length - 4) ++ ("_COMPRESS".toList ++ extension))

/-- `process_mp4`: the output of the `ffmpeg` that it runs, if it does. -/
def processMp4 (inPath : Path) : Option Path := process ".mp4".toList inPath

def processJpg (inPath : Path) : Option Path := process ".jpg".toList inPath

/-- The output of the `ffmpeg` that `scan_file_compress` runs for the file, if it does. -/
def outPath? (inPath : Path) : Option Path :=
  if endsWith inPath ".jpg".toList then
    processJpg inPath
  else if endsWith inPath ".mp4".toList then
    processMp4 inPath
  else
    none

/-- The path of an entry of a directory. -/
def child (dir name : Path) : Path :=
  if dir.getLast? = some '/' then dir ++ name else dir ++ '/' :: name

theorem process_length_lt {extension inPath outPath : Path}
    (h : process extension inPath = some outPath) : inPath.length < outPath.length := by
  have hlen : "_COMPRESS".toList.length = 9 := rfl
  simp only [process] at h
  split at h
  · cases h
  · cases h
    simp only [List.length_append, List.length_take, hlen]
    omega

/-- No output takes the place of its input. -/
theorem outPath?_ne {inPath outPath : Path} (h : outPath? inPath = some outPath) : outPath ≠ inPath := by
  have hlt : inPath.length < outPath.length := by
    simp only [outPath?] at h
    split at h
    · exact process_length_lt h
    · split at h
      · exact process_length_lt h
      · cases h
  intro heq
  subst heq
  omega

/-! ## The scan -/

inductive Node (Content : Type) where
  | directory
  | file (content : Content)
  deriving DecidableEq, Repr

abbrev Tree (Content : Type) := Path → Option (Node Content)

/-- How a run of `ffmpeg` ends: it succeeds; it does not overwrite what is there and leaves it; it fails,
with something at its output that is not what it was to write; or it is not started.

To succeed is to have written the output of this file.  A name with a quote makes another command of the
one that is meant, and such a run does not succeed in this sense, whatever its exit code. -/
inductive Outcome (Content : Type) where
  | success
  | refused
  | failed (left : Option Content)
  | noPipe
  deriving DecidableEq, Repr

inductive Pc where
  | iterating
  | compressing (inPath outPath : Path)
  | removing (inPath : Path)
  | exited
  deriving DecidableEq, Repr

/-- `dirs` are the directories of the open iterators, the innermost first. -/
structure State (Content : Type) where
  tree : Tree Content
  dirs : List Path
  pc : Pc

inductive Event (Content : Type) where
  | next (name : Path)
  | finish
  | ffmpeg (outcome : Outcome Content)
  | remove
  | throws
  deriving DecidableEq, Repr

/-- `scan_file_compress` is called for a directory. -/
def scanFileCompress {Content : Type} (tree : Tree Content) (dir : Path) : State Content :=
  { tree := tree, dirs := [dir], pc := .iterating }

section Steps

variable {Content : Type} [DecidableEq Content] (ffmpeg : Content → Content)

/-- The body of the loop for an entry, up to the run of `ffmpeg`. -/
def State.visit (s : State Content) (path : Path) : Option (State Content) :=
  match s.tree path with
  | none => none
  | some .directory => some { s with dirs := path :: s.dirs }
  | some (.file _) =>
      match outPath? path with
      | some outPath => some { s with pc := .compressing path outPath }
      -- `ok` is false, and the loop goes on
      | none => some s

/-- `compress_by_ffmpeg`.  A successful run writes `ffmpeg content`. -/
def State.compressByFfmpeg (s : State Content) (inPath outPath : Path) :
    Outcome Content → Option (State Content)
  | .success =>
      match s.tree inPath, s.tree outPath with
      | some (.file _), some .directory => none
      | some (.file content), _ =>
          some
            { s with
              tree := Function.update s.tree outPath (some (.file (ffmpeg content)))
              pc := .removing inPath }
      | _, _ => none
  | .refused =>
      match s.tree outPath with
      | none => none
      | some _ => some { s with pc := .removing inPath }
  | .failed left =>
      match s.tree inPath, s.tree outPath with
      | some (.file _), some .directory => none
      | some (.file content), _ =>
          if left = some (ffmpeg content) then
            none
          else
            some
              { s with
                tree := Function.update s.tree outPath (left.map .file)
                pc := .removing inPath }
      | _, _ => none
  -- `exit(1)`
  | .noPipe => some { s with pc := .exited }

def step (s : State Content) : Event Content → Option (State Content)
  | .next name =>
      match s.pc, s.dirs with
      | .iterating, dir :: _ =>
          if name ≠ [] ∧ '/' ∉ name then s.visit (child dir name) else none
      | _, _ => none
  | .finish =>
      match s.pc, s.dirs with
      | .iterating, _ :: dirs => some { s with dirs := dirs }
      | _, _ => none
  | .ffmpeg outcome =>
      match s.pc with
      | .compressing inPath outPath => s.compressByFfmpeg ffmpeg inPath outPath outcome
      | _ => none
  | .remove =>
      match s.pc with
      | .removing inPath =>
          some { s with tree := Function.update s.tree inPath none, pc := .iterating }
      | _ => none
  | .throws =>
      match s.pc with
      | .iterating | .removing _ => some { s with pc := .exited }
      | _ => none

/-! ## What is there when a file is removed -/

/-- The file has its complete compressed counterpart in the tree. -/
def HasCounterpart (tree : Tree Content) (inPath : Path) : Prop :=
  ∃ content outPath, tree inPath = some (.file content) ∧ outPath? inPath = some outPath ∧
    tree outPath = some (.file (ffmpeg content))

/-- A file that is about to be removed has its counterpart. -/
def NoOriginalLost (s : State Content) : Prop :=
  ∀ inPath, s.pc = .removing inPath → HasCounterpart ffmpeg s.tree inPath

/-- Every `ffmpeg` that is started succeeds, or leaves an output that was complete before. -/
def Succeeds (s : State Content) : Event Content → Prop
  | .ffmpeg .refused =>
      ∀ inPath outPath, s.pc = .compressing inPath outPath → HasCounterpart ffmpeg s.tree inPath
  | .ffmpeg (.failed _) => False
  | _ => True

/-- The output of a run is that of its input. -/
def Compressing (s : State Content) : Prop :=
  ∀ inPath outPath, s.pc = .compressing inPath outPath → outPath? inPath = some outPath

omit [DecidableEq Content] in
theorem noOriginalLost_of_ne {s : State Content} (h : ∀ inPath, s.pc ≠ .removing inPath) :
    NoOriginalLost ffmpeg s :=
  fun inPath hpc => absurd hpc (h inPath)

omit [DecidableEq Content] in
theorem compressing_of_ne {s : State Content}
    (h : ∀ inPath outPath, s.pc ≠ .compressing inPath outPath) : Compressing s :=
  fun inPath outPath hpc => absurd hpc (h inPath outPath)

omit [DecidableEq Content] in
/-- Where no file is being compressed or removed there is nothing to show. -/
theorem quiet_spec {s t : State Content} {e : Event Content} (hok : Succeeds ffmpeg s e)
    (hpc : t.pc = .iterating ∨ t.pc = .exited) :
    (NoOriginalLost ffmpeg t ↔ Succeeds ffmpeg s e) ∧ Compressing t := by
  have hlost : NoOriginalLost ffmpeg t := by
    refine noOriginalLost_of_ne ffmpeg ?_
    rcases hpc with hpc | hpc <;> simp [hpc]
  have hcomp : Compressing t := by
    refine compressing_of_ne ?_
    rcases hpc with hpc | hpc <;> simp [hpc]
  exact ⟨⟨fun _ => hok, fun _ => hlost⟩, hcomp⟩

omit [DecidableEq Content] in
/-- An entry leads to no removal without a run of `ffmpeg` before. -/
theorem visit_spec {s t : State Content} {name path : Path} (hpc : s.pc = .iterating)
    (h : s.visit path = some t) :
    (NoOriginalLost ffmpeg t ↔ Succeeds ffmpeg s (.next name)) ∧ Compressing t := by
  simp only [State.visit] at h
  split at h
  · cases h
  · cases h
    exact quiet_spec ffmpeg True.intro (Or.inl hpc)
  · split at h
    · rename_i outPath hout
      cases h
      refine ⟨⟨fun _ => True.intro, fun _ => noOriginalLost_of_ne ffmpeg (by simp)⟩, ?_⟩
      intro p q heq
      cases heq
      exact hout
    · cases h
      exact quiet_spec ffmpeg True.intro (Or.inl hpc)

omit [DecidableEq Content] in
theorem noOriginalLost_removing_iff {tree : Tree Content} {dirs : List Path} {inPath : Path} :
    NoOriginalLost ffmpeg ⟨tree, dirs, .removing inPath⟩ ↔ HasCounterpart ffmpeg tree inPath := by
  constructor
  · intro h
    exact h inPath rfl
  · intro h p hp
    cases hp
    exact h

omit [DecidableEq Content] in
/-- What is written to the output decides whether the input has its counterpart. -/
theorem hasCounterpart_update_iff {tree : Tree Content} {inPath outPath : Path} {content : Content}
    (hin : tree inPath = some (.file content)) (hout : outPath? inPath = some outPath)
    (left : Option (Node Content)) :
    HasCounterpart ffmpeg (Function.update tree outPath left) inPath ↔
      left = some (.file (ffmpeg content)) := by
  -- The output is another path, so the input is still there.
  have hkeep : Function.update tree outPath left inPath = some (.file content) := by
    rw [Function.update_of_ne (outPath?_ne hout).symm]
    exact hin
  constructor
  · rintro ⟨content', outPath', hin', hout', hfile⟩
    obtain rfl : content = content' := by
      have := hkeep.symm.trans hin'
      simpa using this
    obtain rfl : outPath = outPath' := by
      have := hout.symm.trans hout'
      simpa using this
    simpa using hfile
  · intro hleft
    exact ⟨content, outPath, hkeep, hout, by simpa using hleft⟩

/-- A run of `ffmpeg` leaves the counterpart of its input exactly when `Succeeds` allows it. -/
theorem compressByFfmpeg_spec {s t : State Content} {inPath outPath : Path}
    {outcome : Outcome Content} (hpc : s.pc = .compressing inPath outPath)
    (hout : outPath? inPath = some outPath)
    (h : s.compressByFfmpeg ffmpeg inPath outPath outcome = some t) :
    (NoOriginalLost ffmpeg t ↔ Succeeds ffmpeg s (.ffmpeg outcome)) ∧ Compressing t := by
  cases outcome with
  | success =>
      simp only [State.compressByFfmpeg] at h
      split at h
      · cases h
      · rename_i content hin _
        cases h
        refine ⟨?_, compressing_of_ne (by simp)⟩
        rw [noOriginalLost_removing_iff, hasCounterpart_update_iff ffmpeg hin hout]
        exact ⟨fun _ => True.intro, fun _ => rfl⟩
      · cases h
  | refused =>
      simp only [State.compressByFfmpeg] at h
      split at h
      · cases h
      · cases h
        refine ⟨?_, compressing_of_ne (by simp)⟩
        rw [noOriginalLost_removing_iff]
        constructor
        · intro hcomplete p q hpq
          obtain ⟨rfl, rfl⟩ : inPath = p ∧ outPath = q := by simpa [hpc] using hpq
          exact hcomplete
        · intro hok
          exact hok inPath outPath hpc
  | failed left =>
      simp only [State.compressByFfmpeg] at h
      split at h
      · cases h
      · rename_i content hin _
        split at h
        · cases h
        · rename_i hleft
          cases h
          refine ⟨?_, compressing_of_ne (by simp)⟩
          rw [noOriginalLost_removing_iff, hasCounterpart_update_iff ffmpeg hin hout]
          constructor
          · intro hfile
            obtain ⟨content', hcontent', heq⟩ := Option.map_eq_some_iff.1 hfile
            cases heq
            exact hleft hcontent'
          · intro hok
            exact hok.elim
      · cases h
  | noPipe =>
      cases h
      exact quiet_spec ffmpeg True.intro (Or.inr rfl)

theorem step_noOriginalLost {s t : State Content} {e : Event Content} (hcomp : Compressing s)
    (h : step ffmpeg s e = some t) :
    (NoOriginalLost ffmpeg t ↔ Succeeds ffmpeg s e) ∧ Compressing t := by
  cases e with
  | next name =>
      simp only [step] at h
      split at h
      · split at h
        · exact visit_spec ffmpeg ‹_› h
        · cases h
      · cases h
  | finish =>
      simp only [step] at h
      split at h
      · rename_i hpc _
        cases h
        exact quiet_spec ffmpeg True.intro (Or.inl hpc)
      · cases h
  | ffmpeg outcome =>
      simp only [step] at h
      split at h
      · rename_i inPath outPath hpc
        exact compressByFfmpeg_spec ffmpeg hpc (hcomp inPath outPath hpc) h
      · cases h
  | remove =>
      simp only [step] at h
      split at h
      · cases h
        exact quiet_spec ffmpeg True.intro (Or.inl rfl)
      · cases h
  | throws =>
      simp only [step] at h
      split at h
      · cases h
        exact quiet_spec ffmpeg True.intro (Or.inr rfl)
      · cases h
        exact quiet_spec ffmpeg True.intro (Or.inr rfl)
      · cases h

/-- In a scan of any tree, every file has its counterpart when it is removed exactly when every run of
`ffmpeg` that is started succeeds or leaves a complete output. -/
theorem no_original_lost_iff {tree : Tree Content} {dir : Path} {es : List (Event Content)}
    {t : State Content} (hrun : Run (step ffmpeg) (scanFileCompress tree dir) es t) :
    AllAlong (step ffmpeg) (scanFileCompress tree dir) es (NoOriginalLost ffmpeg) ↔
      RunWithin (step ffmpeg) (Succeeds ffmpeg) (scanFileCompress tree dir) es t := by
  have hcomp : Compressing (scanFileCompress tree dir) := compressing_of_ne (by simp [scanFileCompress])
  have hlost : NoOriginalLost ffmpeg (scanFileCompress tree dir) :=
    noOriginalLost_of_ne ffmpeg (by simp [scanFileCompress])
  refine allAlong_iff_runWithin ?_ hrun hcomp hlost
  intro s e u hI _ hstep
  obtain ⟨hiff, hcomp'⟩ := step_noOriginalLost ffmpeg hI hstep
  exact ⟨hiff, fun _ => hcomp'⟩

end Steps

/-- A compressor for the runs below: it keeps the first half of the bytes. -/
def halve (bytes : List Nat) : List Nat := bytes.take (bytes.length / 2)

/-- A directory with one film, and one directory with one picture. -/
def camera : Tree (List Nat) := fun path =>
  if path = "/Camera/a.mp4".toList then
    some (.file [1, 2, 3, 4])
  else if path = "/Camera/2024".toList then
    some .directory
  else if path = "/Camera/2024/b.jpg".toList then
    some (.file [5, 6])
  else
    none

/-- Both are compressed and removed, and the output of the film is passed over. -/
def wholeScan : List (Event (List Nat)) :=
  [.next "a.mp4".toList, .ffmpeg .success, .remove,
    .next "2024".toList, .next "b.jpg".toList, .ffmpeg .success, .remove, .finish,
    .next "a_COMPRESS.mp4".toList, .finish]

theorem no_original_lost_iff_whole :
    AllAlong (step halve) (scanFileCompress camera "/Camera/".toList) wholeScan
      (NoOriginalLost halve) := by
  have hwithin : ∃ t, RunWithin (step halve) (Succeeds halve)
      (scanFileCompress camera "/Camera/".toList) wholeScan t :=
    ⟨_, .cons True.intro rfl <| .cons True.intro rfl <| .cons True.intro rfl <|
      .cons True.intro rfl <| .cons True.intro rfl <| .cons True.intro rfl <|
      .cons True.intro rfl <| .cons True.intro rfl <| .cons True.intro rfl <|
      .cons True.intro rfl <| .nil _⟩
  obtain ⟨t, ht⟩ := hwithin
  exact (no_original_lost_iff halve ht.toRun).2 ht

/-- `ffmpeg` fails and leaves nothing, and the film is removed. -/
def lostScan : List (Event (List Nat)) :=
  [.next "a.mp4".toList, .ffmpeg (.failed none), .remove]

/-- After the failed run there is neither the film nor an output of it. -/
theorem not_noOriginalLost_failed :
    (exec (step halve) (scanFileCompress camera "/Camera/".toList) lostScan).map
        (fun t => (t.tree "/Camera/a.mp4".toList, t.tree "/Camera/a_COMPRESS.mp4".toList)) =
        some (none, none) ∧
      ¬ AllAlong (step halve) (scanFileCompress camera "/Camera/".toList) lostScan
        (NoOriginalLost halve) := by
  refine ⟨by decide, ?_⟩
  intro hall
  have hrun : ∃ t, Run (step halve) (scanFileCompress camera "/Camera/".toList)
      [.next "a.mp4".toList, .ffmpeg (.failed none)] t ∧
        t.pc = .removing "/Camera/a.mp4".toList ∧ t.tree "/Camera/a_COMPRESS.mp4".toList = none :=
    ⟨_, .cons rfl (.cons rfl (.nil _)), rfl, rfl⟩
  obtain ⟨t, ht, hpc, hnone⟩ := hrun
  obtain ⟨content, outPath, -, hout, hfile⟩ := hall _ [.remove] t rfl ht _ hpc
  obtain rfl : "/Camera/a_COMPRESS.mp4".toList = outPath := by
    have hsome : outPath? "/Camera/a.mp4".toList = some "/Camera/a_COMPRESS.mp4".toList := by decide
    exact Option.some.inj (hsome.symm.trans hout)
  rw [hnone] at hfile
  cases hfile

end CmdFfmpeg
end MyCppCode
