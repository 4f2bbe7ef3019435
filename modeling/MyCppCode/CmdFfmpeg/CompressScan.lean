import Mathlib.Data.Set.Insert
import MyCppCode.CmdFfmpeg.CompressNames

/-!
# CompressScan — a scan with what directory iterators promise

`Compress` leaves open which entries an iterator comes to.  Here it comes to an entry at most once, and it
does not end before it has come to every entry that was there when it was opened and still is.  Whether it
comes to a file that has been created since is still open.

* `Frame`, `Scan`: an open iterator, and the state of a scan with its stack of them; a scan is a run of
  `Compress` (`run_toState`);
* `Move`: what a step can do;
* `Shape`: what is in the tree when some of the files have been compressed;
* `Stack`: what the open iterators have done with;
* `Inv`: what holds all along a scan (`inv_of_move`), with what follows while it runs (`exists_move`) and
  when it has ended (`exists_shape_of_end`).
-/

namespace MyCppCode
namespace CmdFfmpeg

open Foundation

/-! ## The scan -/

/-- An open iterator: its directory, the tree when it was opened, and the names it has come to. -/
structure Frame (Content : Type) where
  dir : Path
  opened : Tree Content
  visited : List Path

def Frame.visit {Content : Type} (f : Frame Content) (name : Path) : Frame Content :=
  { f with visited := name :: f.visited }

/-- The state of a scan, with the open iterators in place of their directories. -/
structure Scan (Content : Type) where
  tree : Tree Content
  frames : List (Frame Content)
  pc : Pc

def Scan.toState {Content : Type} (s : Scan Content) : State Content :=
  { tree := s.tree, dirs := s.frames.map Frame.dir, pc := s.pc }

/-- `scan_file_compress` is called for a directory. -/
def Scan.start {Content : Type} (tree : Tree Content) (dir : Path) : Scan Content :=
  { tree := tree, frames := [{ dir := dir, opened := tree, visited := [] }], pc := .iterating }

/-- The open iterators after a step. -/
def Scan.follow {Content : Type} (s : Scan Content) : Event Content → List (Frame Content)
  | .next name =>
      match s.frames with
      | [] => []
      | f :: rest =>
          -- the recursive call opens an iterator of its own
          match s.tree (child f.dir name) with
          | some .directory =>
              { dir := child f.dir name, opened := s.tree, visited := [] } :: f.visit name :: rest
          | _ => f.visit name :: rest
  | .finish => s.frames.tail
  | _ => s.frames

/-- What the iterators promise, in a run where `ffmpeg` succeeds and the file system reports no error. -/
def Scan.Allowed {Content : Type} (s : Scan Content) : Event Content → Prop
  | .next name => ∀ f rest, s.frames = f :: rest → name ∉ f.visited
  | .finish => ∀ f rest, s.frames = f :: rest → ∀ name, IsName name →
      f.opened (child f.dir name) ≠ none → s.tree (child f.dir name) ≠ none → name ∈ f.visited
  | .ffmpeg outcome => outcome = .success
  | .remove => True
  | .throws => False

section Scanning

variable {Content : Type} [DecidableEq Content] (ffmpeg : Content → Content)

def Scan.step (s : Scan Content) (e : Event Content) : Option (Scan Content) :=
  (CmdFfmpeg.step ffmpeg s.toState e).map fun t => { tree := t.tree, frames := s.follow e, pc := t.pc }

/-- What a step can do. -/
inductive Move : Scan Content → Event Content → Scan Content → Prop where
  | enter {tree : Tree Content} {f : Frame Content} {rest : List (Frame Content)} {name : Path} :
      IsName name → tree (child f.dir name) = some .directory →
      Move ⟨tree, f :: rest, .iterating⟩ (.next name)
        ⟨tree, ⟨child f.dir name, tree, []⟩ :: f.visit name :: rest, .iterating⟩
  | compress {tree : Tree Content} {f : Frame Content} {rest : List (Frame Content)} {name outPath : Path}
      {content : Content} :
      IsName name → tree (child f.dir name) = some (.file content) →
      outPath? (child f.dir name) = some outPath →
      Move ⟨tree, f :: rest, .iterating⟩ (.next name)
        ⟨tree, f.visit name :: rest, .compressing (child f.dir name) outPath⟩
  | pass {tree : Tree Content} {f : Frame Content} {rest : List (Frame Content)} {name : Path}
      {content : Content} :
      IsName name → tree (child f.dir name) = some (.file content) → outPath? (child f.dir name) = none →
      Move ⟨tree, f :: rest, .iterating⟩ (.next name) ⟨tree, f.visit name :: rest, .iterating⟩
  | finish {tree : Tree Content} {f : Frame Content} {rest : List (Frame Content)} :
      Move ⟨tree, f :: rest, .iterating⟩ .finish ⟨tree, rest, .iterating⟩
  | success {tree : Tree Content} {frames : List (Frame Content)} {inPath outPath : Path}
      {content : Content} :
      tree inPath = some (.file content) → tree outPath ≠ some .directory →
      Move ⟨tree, frames, .compressing inPath outPath⟩ (.ffmpeg .success)
        ⟨Function.update tree outPath (some (.file (ffmpeg content))), frames, .removing inPath⟩
  | remove {tree : Tree Content} {frames : List (Frame Content)} {inPath : Path} :
      Move ⟨tree, frames, .removing inPath⟩ .remove
        ⟨Function.update tree inPath none, frames, .iterating⟩

/-- A step of the scan is one of `Compress`. -/
theorem toState_of_move {s t : Scan Content} {e : Event Content} (h : Move ffmpeg s e t) :
    CmdFfmpeg.step ffmpeg s.toState e = some t.toState := by
  cases h with
  | enter hname hdir => simp [step, Scan.toState, State.visit, Frame.visit, hname.1, hname.2, hdir]
  | compress hname hfile hout =>
      simp [step, Scan.toState, State.visit, Frame.visit, hname.1, hname.2, hfile, hout]
  | pass hname hfile hout =>
      simp [step, Scan.toState, State.visit, Frame.visit, hname.1, hname.2, hfile, hout]
  | finish => rfl
  | success hin hout => simp only [step, Scan.toState, State.compressByFfmpeg, hin]
  | remove => rfl

theorem step_of_move {s t : Scan Content} {e : Event Content} (h : Move ffmpeg s e t) :
    s.step ffmpeg e = some t := by
  have hfollow : s.follow e = t.frames := by
    cases h with
    | enter _ hdir => simp only [Scan.follow, hdir]
    | compress _ hfile _ => simp only [Scan.follow, hfile]
    | pass _ hfile _ => simp only [Scan.follow, hfile]
    | finish => rfl
    | success _ _ => rfl
    | remove => rfl
  rw [Scan.step, toState_of_move ffmpeg h, Option.map_some, hfollow]
  rfl

theorem move_of_step {s t : Scan Content} {e : Event Content} (hok : s.Allowed e)
    (h : s.step ffmpeg e = some t) : Move ffmpeg s e t := by
  obtain ⟨u, hu, rfl⟩ := Option.map_eq_some_iff.mp h
  obtain ⟨tree, frames, pc⟩ := s
  cases e with
  | next name =>
      cases pc <;> cases frames <;> try cases hu
      rename_i f rest
      simp only [step, Scan.toState, List.map_cons] at hu
      split at hu
      case isFalse => cases hu
      case isTrue hname =>
        simp only [State.visit] at hu
        split at hu
        case h_1 => cases hu
        case h_2 hdir =>
          cases hu
          simp only [Scan.follow, hdir]
          exact Move.enter hname hdir
        case h_3 content hfile =>
          simp only [Scan.follow, hfile]
          split at hu
          case h_1 outPath hout =>
            cases hu
            exact Move.compress hname hfile hout
          case h_2 hout =>
            cases hu
            exact Move.pass hname hfile hout
  | finish =>
      cases pc <;> cases frames <;> cases hu
      exact Move.finish
  | ffmpeg outcome =>
      obtain rfl : outcome = .success := hok
      cases pc <;> try cases hu
      rename_i inPath outPath
      simp only [step, Scan.toState, State.compressByFfmpeg] at hu
      split at hu
      case h_1 => cases hu
      case h_2 content hin hdir =>
        cases hu
        exact Move.success hin hdir
      case h_3 => cases hu
  | remove =>
      cases pc <;> cases hu
      exact Move.remove
  | throws => exact hok.elim

/-- A scan is a run of `Compress`. -/
theorem run_toState {s t : Scan Content} {es : List (Event Content)}
    (h : RunWithin (Scan.step ffmpeg) Scan.Allowed s es t) :
    Run (CmdFfmpeg.step ffmpeg) s.toState es t.toState := by
  induction h with
  | nil s => exact Run.nil s.toState
  | cons hok hstep _ ih => exact Run.cons (toState_of_move ffmpeg (move_of_step ffmpeg hok hstep)) ih

end Scanning

/-! ## Uncompressed files -/

section Files

variable {Content : Type}

/-- The paths of the entries that a directory has, or could have, itself or in a directory in it. -/
inductive Inside (tree : Tree Content) : Path → Path → Prop where
  | entry {dir name : Path} : IsName name → Inside tree dir (child dir name)
  | deeper {dir name path : Path} : IsName name → tree (child dir name) = some .directory →
      Inside tree (child dir name) path → Inside tree dir path

/-- A directory that a scan of `dir` comes to. -/
def Scanned (tree : Tree Content) (dir sub : Path) : Prop :=
  sub = dir ∨ Inside tree dir sub ∧ tree sub = some .directory

theorem Inside.child {tree : Tree Content} {dir sub name : Path} (h : Inside tree dir sub)
    (hdir : tree sub = some .directory) (hname : IsName name) : Inside tree dir (child sub name) := by
  induction h with
  | entry hname' => exact .deeper hname' hdir (.entry hname)
  | deeper hname' hdir' _ ih => exact .deeper hname' hdir' (ih hdir)

theorem Scanned.inside {tree : Tree Content} {dir sub name : Path} (h : Scanned tree dir sub)
    (hname : IsName name) : Inside tree dir (CmdFfmpeg.child sub name) := by
  rcases h with rfl | ⟨hinside, hdir⟩
  · exact .entry hname
  · exact hinside.child hdir hname

theorem Inside.length_lt {tree : Tree Content} {dir path : Path} (h : Inside tree dir path) :
    dir.length < path.length := by
  induction h with
  | entry hname => exact length_lt_child hname
  | deeper hname _ _ ih => exact (length_lt_child hname).trans ih

theorem Scanned.ne_file {tree : Tree Content} {dir sub : Path} (h : Scanned tree dir sub)
    (hinside : Inside tree dir sub) {content : Content} : tree sub ≠ some (.file content) := by
  rcases h with rfl | ⟨-, hdir⟩
  · exact absurd hinside.length_lt (Nat.lt_irrefl _)
  · rw [hdir]
    exact fun heq => by cases heq

/-- A file that a scan of `dir` is to compress, and its output. -/
structure Uncompressed (tree : Tree Content) (dir path : Path) (content : Content) (outPath : Path) :
    Prop where
  inside : Inside tree dir path
  file : tree path = some (.file content)
  out : outPath? path = some outPath

/-- The output is in the directory that the file is in. -/
theorem exists_parent {tree : Tree Content} {dir path outPath : Path} (h : Inside tree dir path)
    (hout : outPath? path = some outPath) :
    ∃ sub name outName, Scanned tree dir sub ∧ path = child sub name ∧ outPath = child sub outName ∧
      IsName name ∧ IsName outName := by
  induction h with
  | @entry dir name hname =>
      obtain ⟨outName, houtName, rfl⟩ := outPath?_child hname hout
      exact ⟨dir, name, outName, Or.inl rfl, rfl, rfl, hname, houtName⟩
  | @deeper dir name path hname hdir _ ih =>
      obtain ⟨sub, n, outName, hsub, hpath, houtPath, hn, houtName⟩ := ih hout
      refine ⟨sub, n, outName, ?_, hpath, houtPath, hn, houtName⟩
      rcases hsub with rfl | ⟨hinside, hsub⟩
      · exact Or.inr ⟨.entry hname, hdir⟩
      · exact Or.inr ⟨.deeper hname hdir hinside, hsub⟩

/-- No output that a scan of `dir` writes is there before. -/
def TargetsFree (tree : Tree Content) (dir : Path) : Prop :=
  ∀ ⦃path content outPath⦄, Uncompressed tree dir path content outPath → tree outPath = none

/-! ## The tree during a scan -/

variable (ffmpeg : Content → Content) (tree₀ : Tree Content) (dir₀ : Path)

/-- The tree when the outputs of the files in `written` have been written, and the files in `removed` have
been removed. -/
structure Shape (written removed : Set Path) (tree : Tree Content) : Prop where
  uncompressed : ∀ path ∈ written, ∃ content outPath, Uncompressed tree₀ dir₀ path content outPath
  subset : removed ⊆ written
  gone : ∀ path ∈ removed, tree path = none
  output : ∀ path content outPath, path ∈ written → tree₀ path = some (.file content) →
    outPath? path = some outPath → tree outPath = some (.file (ffmpeg content))
  same : ∀ path, path ∉ removed → (∀ q ∈ written, outPath? q ≠ some path) → tree path = tree₀ path

variable {ffmpeg tree₀ dir₀}

theorem shape_start : Shape ffmpeg tree₀ dir₀ ∅ ∅ tree₀ where
  uncompressed := fun _ h => h.elim
  subset := Set.Subset.rfl
  gone := fun _ h => h.elim
  output := fun _ _ _ h => h.elim
  same := fun _ _ _ => rfl

variable {written removed : Set Path} {tree : Tree Content}

theorem Shape.outPath?_ne_none (h : Shape ffmpeg tree₀ dir₀ written removed tree) {path : Path}
    (hpath : path ∈ written) : outPath? path ≠ none := by
  obtain ⟨content, outPath, hfile⟩ := h.uncompressed path hpath
  rw [hfile.out]
  exact Option.some_ne_none outPath

/-- An output is written. -/
theorem Shape.write (h : Shape ffmpeg tree₀ dir₀ written removed tree) {inPath outPath : Path}
    {content : Content} (hin : Uncompressed tree₀ dir₀ inPath content outPath) :
    Shape ffmpeg tree₀ dir₀ (insert inPath written) removed
      (Function.update tree outPath (some (.file (ffmpeg content)))) where
  uncompressed := by
    rintro path (rfl | hpath)
    · exact ⟨content, outPath, hin⟩
    · exact h.uncompressed path hpath
  subset := h.subset.trans (Set.subset_insert _ _)
  gone := by
    intro path hpath
    have hne : path ≠ outPath := by
      rintro rfl
      exact h.outPath?_ne_none (h.subset hpath) (outPath?_outPath hin.out)
    rw [Function.update_of_ne hne, h.gone path hpath]
  output := by
    intro path content' outPath' hpath hfile hout
    by_cases heq : path = inPath
    · subst heq
      cases hout.symm.trans hin.out
      cases hfile.symm.trans hin.file
      rw [Function.update_self]
    · have hne : outPath' ≠ outPath := by
        rintro rfl
        exact heq (outPath?_inj hout hin.out)
      rw [Function.update_of_ne hne]
      exact h.output path content' outPath' (hpath.resolve_left heq) hfile hout
  same := by
    intro path hpath hout
    have hne : path ≠ outPath := by
      rintro rfl
      exact hout inPath (Set.mem_insert _ _) hin.out
    rw [Function.update_of_ne hne]
    exact h.same path hpath fun q hq => hout q (Set.mem_insert_of_mem _ hq)

/-- A file whose output has been written is removed. -/
theorem Shape.remove (h : Shape ffmpeg tree₀ dir₀ written removed tree) {inPath : Path}
    (hin : inPath ∈ written) :
    Shape ffmpeg tree₀ dir₀ written (insert inPath removed) (Function.update tree inPath none) where
  uncompressed := h.uncompressed
  subset := Set.insert_subset hin h.subset
  gone := by
    rintro path (rfl | hpath)
    · exact Function.update_self ..
    · by_cases heq : path = inPath
      · rw [heq, Function.update_self]
      · rw [Function.update_of_ne heq, h.gone path hpath]
  output := by
    intro path content outPath hpath hfile hout
    have hne : outPath ≠ inPath := by
      rintro rfl
      exact h.outPath?_ne_none hin (outPath?_outPath hout)
    rw [Function.update_of_ne hne]
    exact h.output path content outPath hpath hfile hout
  same := by
    intro path hpath hout
    rw [Set.mem_insert_iff, not_or] at hpath
    rw [Function.update_of_ne hpath.1]
    exact h.same path hpath.2 hout

/-- What a path has become. -/
theorem Shape.cases (h : Shape ffmpeg tree₀ dir₀ written removed tree) (path : Path) :
    tree path = tree₀ path ∨ (path ∈ removed ∧ tree path = none) ∨
      (∃ content, tree path = some (.file content)) ∧
        ∃ q content, Uncompressed tree₀ dir₀ q content path := by
  by_cases hremoved : path ∈ removed
  · exact Or.inr (Or.inl ⟨hremoved, h.gone path hremoved⟩)
  · by_cases hout : ∃ q ∈ written, outPath? q = some path
    · obtain ⟨q, hq, hout⟩ := hout
      obtain ⟨content, outPath, hfile⟩ := h.uncompressed q hq
      obtain rfl : outPath = path := Option.some.inj (hfile.out.symm.trans hout)
      exact Or.inr (Or.inr ⟨⟨_, h.output q content outPath hq hfile.file hout⟩, q, content, hfile⟩)
    · exact Or.inl (h.same path hremoved fun q hq hq' => hout ⟨q, hq, hq'⟩)

theorem Shape.directory (h : Shape ffmpeg tree₀ dir₀ written removed tree) {path : Path}
    (hpath : tree path = some .directory) : tree₀ path = some .directory := by
  rcases h.cases path with hsame | ⟨-, hnone⟩ | ⟨⟨content, hfile⟩, -⟩
  · rw [← hsame, hpath]
  · rw [hpath] at hnone
    cases hnone
  · rw [hpath] at hfile
    cases hfile

theorem Shape.file (h : Shape ffmpeg tree₀ dir₀ written removed tree) {path outPath : Path}
    {content : Content} (hpath : tree path = some (.file content)) (hout : outPath? path = some outPath) :
    tree₀ path = some (.file content) ∧ path ∉ removed := by
  refine ⟨?_, fun hremoved => ?_⟩
  · rcases h.cases path with hsame | ⟨-, hnone⟩ | ⟨-, q, c, hfile⟩
    · rw [← hsame, hpath]
    · rw [hpath] at hnone
      cases hnone
    · rw [outPath?_outPath hfile.out] at hout
      cases hout
  · rw [h.gone path hremoved] at hpath
    cases hpath

theorem Shape.none (h : Shape ffmpeg tree₀ dir₀ written removed tree) {path : Path}
    (hpath : tree path = none) : tree₀ path = none ∨ path ∈ removed := by
  rcases h.cases path with hsame | ⟨hremoved, -⟩ | ⟨⟨content, hfile⟩, -⟩
  · exact Or.inl (by rw [← hsame, hpath])
  · exact Or.inr hremoved
  · rw [hpath] at hfile
    cases hfile

/-! ## The open iterators during a scan -/

variable (tree₀ dir₀)

/-- A file that is to be compressed has been. -/
def Done (removed : Set Path) (path : Path) : Prop :=
  ∀ content outPath, Uncompressed tree₀ dir₀ path content outPath → path ∈ removed

/-- Everything in a directory has been compressed. -/
def Finished (removed : Set Path) (dir : Path) : Prop :=
  ∀ path, Inside tree₀ dir path → Done tree₀ dir₀ removed path

/-- An entry that an iterator has come to and that is done with. -/
def Covered (removed : Set Path) (path : Path) : Prop :=
  Done tree₀ dir₀ removed path ∧ (tree₀ path = some .directory → Finished tree₀ dir₀ removed path)

/-- An iterator of a scan: what was not there when it was opened was not there at the start, or has been
compressed. -/
structure FrameOk (removed : Set Path) (f : Frame Content) : Prop where
  scanned : Scanned tree₀ dir₀ f.dir
  opened : ∀ path, f.opened path = none → tree₀ path = none ∨ path ∈ removed

/-- The open iterators are done with what they have come to, but for the entry `busy`: the directory of the
iterator above, or the file that is being compressed. -/
def Stack (removed : Set Path) : List (Frame Content) → Option Path → Prop
  | [], busy => busy = some dir₀ ∨ Finished tree₀ dir₀ removed dir₀
  | f :: rest, busy =>
      FrameOk tree₀ dir₀ removed f ∧
        (∀ name ∈ f.visited, Covered tree₀ dir₀ removed (child f.dir name) ∨
          busy = some (child f.dir name)) ∧
        Stack removed rest (some f.dir)

variable {tree₀ dir₀} {removed' : Set Path} {f : Frame Content} {rest frames : List (Frame Content)}
  {busy : Option Path}

theorem Covered.mono {path : Path} (h : Covered tree₀ dir₀ removed path) (hsub : removed ⊆ removed') :
    Covered tree₀ dir₀ removed' path :=
  ⟨fun content outPath hfile => hsub (h.1 content outPath hfile),
    fun hdir q hq content outPath hfile => hsub (h.2 hdir q hq content outPath hfile)⟩

theorem Stack.mono (h : Stack tree₀ dir₀ removed frames busy) (hsub : removed ⊆ removed') :
    Stack tree₀ dir₀ removed' frames busy := by
  induction frames generalizing busy with
  | nil =>
      refine h.imp id fun hfin path hpath content outPath hfile => ?_
      exact hsub (hfin path hpath content outPath hfile)
  | cons f rest ih =>
      obtain ⟨hf, hvisited, hrest⟩ := h
      refine ⟨⟨hf.scanned, fun path hpath => (hf.opened path hpath).imp id fun hmem => hsub hmem⟩, ?_,
        ih hrest⟩
      intro name hname
      exact (hvisited name hname).imp (fun hcovered => hcovered.mono hsub) id

/-- The top iterator is done with the entry that it was busy with. -/
theorem Stack.free {path : Path} (h : Stack tree₀ dir₀ removed (f :: rest) (some path))
    (hpath : Covered tree₀ dir₀ removed path) : Stack tree₀ dir₀ removed (f :: rest) none := by
  obtain ⟨hf, hvisited, hrest⟩ := h
  refine ⟨hf, fun name hname => Or.inl ?_, hrest⟩
  rcases hvisited name hname with hcovered | hbusy
  · exact hcovered
  · cases hbusy
    exact hpath

/-- The top iterator comes to an entry. -/
theorem Stack.visit {name : Path} (h : Stack tree₀ dir₀ removed (f :: rest) none)
    (hname : Covered tree₀ dir₀ removed (child f.dir name) ∨ busy = some (child f.dir name)) :
    Stack tree₀ dir₀ removed (f.visit name :: rest) busy := by
  obtain ⟨hf, hvisited, hrest⟩ := h
  refine ⟨⟨hf.scanned, hf.opened⟩, fun n hn => ?_, hrest⟩
  rcases List.mem_cons.mp hn with rfl | hn
  · exact hname
  · rcases hvisited n hn with hcovered | hbusy
    · exact Or.inl hcovered
    · cases hbusy

/-- A directory is finished when its iterator has come to every entry that is still there. -/
theorem finished_of_visited (hshape : Shape ffmpeg tree₀ dir₀ removed removed tree)
    (h : Stack tree₀ dir₀ removed (f :: rest) none)
    (hall : ∀ name, IsName name → f.opened (child f.dir name) ≠ none → tree (child f.dir name) ≠ none →
      name ∈ f.visited) : Finished tree₀ dir₀ removed f.dir := by
  obtain ⟨hf, hvisited, -⟩ := h
  have hcovered : ∀ name, IsName name → Covered tree₀ dir₀ removed (child f.dir name) := by
    intro name hname
    by_cases hmem : name ∈ f.visited
    · rcases hvisited name hmem with hcovered | hbusy
      · exact hcovered
      · cases hbusy
    · -- not visited: it was not there, or is no longer
      have hgone : tree₀ (child f.dir name) = none ∨ child f.dir name ∈ removed := by
        by_cases hopened : f.opened (child f.dir name) = none
        · exact hf.opened _ hopened
        · by_cases htree : tree (child f.dir name) = none
          · exact hshape.none htree
          · exact absurd (hall name hname hopened htree) hmem
      rcases hgone with hnone | hremoved
      · refine ⟨fun content outPath hfile => ?_, fun hdir => ?_⟩
        · rw [hfile.file] at hnone
          cases hnone
        · rw [hdir] at hnone
          cases hnone
      · refine ⟨fun _ _ _ => hremoved, fun hdir => ?_⟩
        obtain ⟨content, outPath, hfile⟩ := hshape.uncompressed _ hremoved
        rw [hfile.file] at hdir
        cases hdir
  intro path hpath
  cases hpath with
  | entry hname => exact (hcovered _ hname).1
  | deeper hname hdir hpath => exact (hcovered _ hname).2 hdir path hpath

/-- Then the iterator below goes on. -/
theorem Stack.pop (h : Stack tree₀ dir₀ removed (f :: rest) none)
    (hfin : Finished tree₀ dir₀ removed f.dir) : Stack tree₀ dir₀ removed rest none := by
  obtain ⟨hf, -, hrest⟩ := h
  cases rest with
  | nil =>
      -- the iterator of the whole scan
      rcases hrest with hbusy | hdone
      · cases hbusy
        exact Or.inr hfin
      · exact Or.inr hdone
  | cons g rest =>
      refine hrest.free ⟨fun content outPath hfile => ?_, fun _ => hfin⟩
      exact absurd hfile.file (hf.scanned.ne_file hfile.inside)

/-! ## What holds all along a scan -/

variable (ffmpeg tree₀ dir₀)

/-- The states of a scan of `dir₀` in `tree₀`. -/
inductive Inv : Scan Content → Prop where
  | iterating {removed : Set Path} {tree : Tree Content} {frames : List (Frame Content)} :
      Shape ffmpeg tree₀ dir₀ removed removed tree → Stack tree₀ dir₀ removed frames none →
      Inv ⟨tree, frames, .iterating⟩
  | compressing {removed : Set Path} {tree : Tree Content} {f : Frame Content}
      {rest : List (Frame Content)} {inPath outPath : Path} {content : Content} :
      Uncompressed tree₀ dir₀ inPath content outPath → inPath ∉ removed →
      Shape ffmpeg tree₀ dir₀ removed removed tree →
      Stack tree₀ dir₀ removed (f :: rest) (some inPath) →
      Inv ⟨tree, f :: rest, .compressing inPath outPath⟩
  | removing {removed : Set Path} {tree : Tree Content} {f : Frame Content}
      {rest : List (Frame Content)} {inPath : Path} :
      Shape ffmpeg tree₀ dir₀ (insert inPath removed) removed tree →
      Stack tree₀ dir₀ removed (f :: rest) (some inPath) →
      Inv ⟨tree, f :: rest, .removing inPath⟩

theorem inv_start : Inv ffmpeg tree₀ dir₀ (Scan.start tree₀ dir₀) := by
  refine Inv.iterating shape_start ⟨⟨Or.inl rfl, fun path hpath => Or.inl hpath⟩, ?_, Or.inl rfl⟩
  intro name hname
  cases hname

variable {ffmpeg tree₀ dir₀} {s t : Scan Content} {e : Event Content}

theorem inv_of_move (hfree : TargetsFree tree₀ dir₀) (hok : s.Allowed e) (h : Move ffmpeg s e t)
    (hs : Inv ffmpeg tree₀ dir₀ s) : Inv ffmpeg tree₀ dir₀ t := by
  cases h with
  | @enter tree f rest name hname hdir =>
      cases hs with
      | iterating hshape hstack =>
          -- the scan makes no directories, so this one was there at the start
          have hdir₀ := hshape.directory hdir
          have hinside := hstack.1.scanned.inside hname
          refine Inv.iterating hshape ⟨⟨Or.inr ⟨hinside, hdir₀⟩, fun path => hshape.none⟩, ?_,
            hstack.visit (Or.inr rfl)⟩
          intro n hn
          cases hn
  | @compress tree f rest name outPath content hname hfile hout =>
      cases hs with
      | iterating hshape hstack =>
          -- and what is compressed is no output, so it is a file of the start as well
          obtain ⟨hfile₀, hremoved⟩ := hshape.file hfile hout
          have hinside := hstack.1.scanned.inside hname
          exact Inv.compressing ⟨hinside, hfile₀, hout⟩ hremoved hshape (hstack.visit (Or.inr rfl))
  | @pass tree f rest name content hname hfile hout =>
      cases hs with
      | iterating hshape hstack =>
          -- a file of the start with nothing to do, or an output of this scan
          refine Inv.iterating hshape (hstack.visit (Or.inl ⟨fun c o hun => ?_, fun hdir => ?_⟩))
          · rw [hun.out] at hout
            cases hout
          · rcases hshape.cases (child f.dir name) with hsame | ⟨-, hnone⟩ | ⟨-, q, c, hun⟩
            · rw [hfile, hdir] at hsame
              cases hsame
            · rw [hfile] at hnone
              cases hnone
            · rw [hfree hun] at hdir
              cases hdir
  | @finish tree f rest =>
      cases hs with
      | iterating hshape hstack =>
          have hfin := finished_of_visited hshape hstack (hok f rest rfl)
          exact Inv.iterating hshape (hstack.pop hfin)
  | @success tree frames inPath outPath content hin hout =>
      cases hs with
      | compressing hun hremoved hshape hstack =>
          -- what `ffmpeg` reads is still the content of the start
          obtain ⟨hfile₀, -⟩ := hshape.file hin hun.out
          cases hfile₀.symm.trans hun.file
          exact Inv.removing (hshape.write hun) hstack
  | @remove tree frames inPath =>
      cases hs with
      | @removing removed _ f rest _ hshape hstack =>
          have hin : inPath ∈ insert inPath removed := Set.mem_insert _ _
          refine Inv.iterating (hshape.remove hin) ((hstack.mono (Set.subset_insert _ _)).free ?_)
          refine ⟨fun _ _ _ => hin, fun hdir => ?_⟩
          obtain ⟨content, outPath, hfile⟩ := hshape.uncompressed _ hin
          rw [hfile.file] at hdir
          cases hdir

/-- A scan that has not ended can go on. -/
theorem exists_move (hfree : TargetsFree tree₀ dir₀) (hs : Inv ffmpeg tree₀ dir₀ s)
    (hframes : s.frames ≠ []) : ∃ e t, s.Allowed e ∧ Move ffmpeg s e t := by
  cases hs with
  | @iterating removed tree frames hshape hstack =>
      obtain ⟨f, rest, rfl⟩ := List.exists_cons_of_ne_nil hframes
      -- the iterator comes to an entry it has not come to, and ends if there is none
      by_cases hleft : ∃ name, IsName name ∧ tree (child f.dir name) ≠ none ∧ name ∉ f.visited
      · obtain ⟨name, hname, htree, hvisited⟩ := hleft
        have hallowed : Scan.Allowed ⟨tree, f :: rest, .iterating⟩ (.next name) := by
          intro g gs heq
          cases heq
          exact hvisited
        cases hnode : tree (child f.dir name) with
        | none => exact absurd hnode htree
        | some node =>
            cases node with
            | directory => exact ⟨_, _, hallowed, Move.enter hname hnode⟩
            | file content =>
                cases hout : outPath? (child f.dir name) with
                | none => exact ⟨_, _, hallowed, Move.pass hname hnode hout⟩
                | some outPath => exact ⟨_, _, hallowed, Move.compress hname hnode hout⟩
      · refine ⟨.finish, _, ?_, Move.finish⟩
        intro g gs heq name hname _ htree
        cases heq
        by_contra hvisited
        exact hleft ⟨name, hname, htree, hvisited⟩
  | @compressing removed tree f rest inPath outPath content hun hremoved hshape hstack =>
      have hin : tree inPath = some (.file content) := by
        rcases hshape.cases inPath with hsame | ⟨hmem, -⟩ | ⟨-, q, c, hun'⟩
        · rw [hsame, hun.file]
        · exact absurd hmem hremoved
        · have hnone := outPath?_outPath hun'.out
          rw [hun.out] at hnone
          cases hnone
      have hout : tree outPath ≠ some .directory := by
        intro hdir
        have hnone := hfree hun
        rw [hshape.directory hdir] at hnone
        cases hnone
      exact ⟨.ffmpeg .success, _, rfl, Move.success hin hout⟩
  | removing hshape hstack => exact ⟨.remove, _, True.intro, Move.remove⟩

/-- At the end every file that was to be compressed has been. -/
theorem exists_shape_of_end (hs : Inv ffmpeg tree₀ dir₀ s) (hend : s.frames = []) :
    ∃ removed, Shape ffmpeg tree₀ dir₀ removed removed s.tree ∧
      ∀ path content outPath, Uncompressed tree₀ dir₀ path content outPath → path ∈ removed := by
  cases hs with
  | @iterating removed tree frames hshape hstack =>
      obtain rfl : frames = [] := hend
      rcases hstack with hbusy | hfin
      · cases hbusy
      · exact ⟨removed, hshape, fun path content outPath hun => hfin path hun.inside _ _ hun⟩
  | compressing => cases hend
  | removing => cases hend

end Files

end CmdFfmpeg
end MyCppCode
