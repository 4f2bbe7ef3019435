import Mathlib.Data.Finset.Lattice.Fold
import Mathlib.Data.Set.Finite.Basic
import Mathlib.Order.Lattice.Nat
import MyCppCode.CmdFfmpeg.CompressScan

/-!
# CompressResult — what a whole scan leaves behind

* `Scan.weight`: the steps that are left to a scan; every step takes from it (`weight_of_move`);
* `DirectoryTree`: a tree with finitely many files and directories;
* `Compressed`: every uncompressed file has been replaced by its output, and the rest is as it was;
* `scan_compresses`: a scan ends, with the tree compressed, and a second scan changes nothing.
-/

namespace MyCppCode
namespace CmdFfmpeg

open Foundation

section Weights

variable {Content : Type} {ffmpeg : Content → Content} {tree₀ tree : Tree Content} {dir₀ : Path}
  {written removed : Set Path} {f : Frame Content} {s t : Scan Content} {e : Event Content}

/-! ## Termination -/

variable (U : Finset Path)

/-- The steps that an entry can take, at most `k` directories deep, where a directory has at most `n`
entries. -/
def cost (n : Nat) : Nat → Nat
  | 0 => 4
  | k + 1 => n * cost n k + 4

theorem four_le_cost (n k : Nat) : 4 ≤ cost n k := by
  cases k with
  | zero => exact le_rfl
  | succ k => exact Nat.le_add_left 4 _

theorem cost_mono (n : Nat) : Monotone (cost n) := by
  apply monotone_nat_of_le_succ
  intro k
  induction k with
  | zero => exact Nat.le_add_left 4 _
  | succ k ih => exact Nat.add_le_add_right (Nat.mul_le_mul_left n ih) 4

/-- Paths are no longer than the longest in `U`, so this is how deep an iterator's entries can go. -/
def Frame.depth (f : Frame Content) : Nat := U.sup List.length - f.dir.length

/-- The steps that are left for an iterator, its end included. -/
def Frame.weight (f : Frame Content) : Nat :=
  (U.card - f.visited.length) * cost U.card (f.depth U) + 1

def Pc.weight : Pc → Nat
  -- the run of `ffmpeg`, and the removal
  | .compressing _ _ => 2
  | .removing _ => 1
  | _ => 0

def Scan.weight (s : Scan Content) : Nat := (s.frames.map (Frame.weight U)).sum + s.pc.weight

/-- An iterator has come to each of its entries once, and to paths in `U` only. -/
def Counted (f : Frame Content) : Prop := f.visited.Nodup ∧ ∀ name ∈ f.visited, child f.dir name ∈ U

variable {U}

theorem Counted.length_le (h : Counted U f) : f.visited.length ≤ U.card := by
  -- in one directory a name gives a path of its own
  have hnodup : (f.visited.map (child f.dir)).Nodup := h.1.map fun _ _ => child_inj
  have hsub : (f.visited.map (child f.dir)).toFinset ⊆ U := by
    intro path hpath
    obtain ⟨name, hname, rfl⟩ := List.mem_map.mp (List.mem_toFinset.mp hpath)
    exact h.2 name hname
  calc f.visited.length = (f.visited.map (child f.dir)).length := (List.length_map _).symm
    _ = (f.visited.map (child f.dir)).toFinset.card := (List.toFinset_card_of_nodup hnodup).symm
    _ ≤ U.card := Finset.card_le_card hsub

theorem Counted.visit {name : Path} (h : Counted U f) (hname : name ∉ f.visited)
    (hmem : child f.dir name ∈ U) : Counted U (f.visit name) := by
  refine ⟨List.nodup_cons.mpr ⟨hname, h.1⟩, fun n hn => ?_⟩
  rcases List.mem_cons.mp hn with rfl | hn
  · exact hmem
  · exact h.2 n hn

/-- To come to an entry takes its cost from the iterator. -/
theorem Counted.weight_visit {name : Path} (h : Counted U (f.visit name)) :
    (f.visit name).weight U + cost U.card (f.depth U) = f.weight U := by
  have hle : f.visited.length + 1 ≤ U.card := h.length_le
  have hsub : U.card - f.visited.length = U.card - (f.visited.length + 1) + 1 := by omega
  calc (f.visit name).weight U + cost U.card (f.depth U)
      = (U.card - (f.visited.length + 1)) * cost U.card (f.depth U) + 1 + cost U.card (f.depth U) := rfl
    _ = f.weight U := by
        rw [Frame.weight, hsub, Nat.succ_mul]
        omega

/-- An iterator of a directory in it has less to do than the entry costs. -/
theorem weight_enter {name : Path} {opened : Tree Content} (hname : IsName name)
    (hmem : child f.dir name ∈ U) :
    Frame.weight U ⟨child f.dir name, opened, []⟩ + 3 ≤ cost U.card (f.depth U) := by
  have hlong : (child f.dir name).length ≤ U.sup List.length := Finset.le_sup hmem
  have hlt : f.dir.length < (child f.dir name).length := length_lt_child hname
  obtain ⟨k, hk⟩ : ∃ k, f.depth U = k + 1 := ⟨f.depth U - 1, by unfold Frame.depth; omega⟩
  have hdepth : Frame.depth U (⟨child f.dir name, opened, []⟩ : Frame Content) ≤ k := by
    unfold Frame.depth at hk ⊢
    dsimp only
    omega
  have hcost := Nat.mul_le_mul_left U.card (cost_mono U.card hdepth)
  rw [hk, cost, Frame.weight, List.length_nil, Nat.sub_zero]
  omega

/-- The paths that are in the tree at some time during the scan. -/
def Appears (tree : Tree Content) (dir path : Path) : Prop :=
  tree path ≠ none ∨ ∃ q content, Uncompressed tree dir q content path

theorem Shape.appears (h : Shape ffmpeg tree₀ dir₀ written removed tree) {path : Path}
    (hpath : tree path ≠ .none) : Appears tree₀ dir₀ path := by
  rcases h.cases path with hsame | ⟨-, hnone⟩ | ⟨-, hout⟩
  · exact Or.inl (by rwa [← hsame])
  · exact absurd hnone hpath
  · exact Or.inr hout

theorem weight_of_move (hU : ∀ path, Appears tree₀ dir₀ path → path ∈ U) (hok : s.Allowed e)
    (h : Move ffmpeg s e t) (hs : Inv ffmpeg tree₀ dir₀ s) (hcount : ∀ f ∈ s.frames, Counted U f) :
    (∀ f ∈ t.frames, Counted U f) ∧ t.weight U < s.weight U := by
  -- an iterator comes to a new entry only, so the entry can be charged to it
  have hnext : ∀ {tree : Tree Content} {f : Frame Content} {rest : List (Frame Content)} {name : Path},
      s = ⟨tree, f :: rest, .iterating⟩ → e = .next name → tree (child f.dir name) ≠ none →
      child f.dir name ∈ U ∧ Counted U (f.visit name) ∧ ∀ g ∈ rest, Counted U g := by
    rintro tree f rest name rfl rfl hentry
    cases hs with
    | iterating hshape _ =>
        have hmem := hU _ (hshape.appears hentry)
        refine ⟨hmem, ?_, fun g hg => hcount g (List.mem_cons_of_mem f hg)⟩
        exact (hcount f List.mem_cons_self).visit (hok f rest rfl) hmem
  cases h with
  | @enter tree f rest name hname hdir =>
      obtain ⟨hmem, hf, hrest⟩ := hnext rfl rfl (by rw [hdir]; exact Option.some_ne_none _)
      have hnew : Counted U (⟨child f.dir name, tree, []⟩ : Frame Content) :=
        ⟨List.nodup_nil, fun n hn => by cases hn⟩
      constructor
      · exact List.forall_mem_cons.mpr ⟨hnew, List.forall_mem_cons.mpr ⟨hf, hrest⟩⟩
      · -- the new iterator has less to do than the entry was charged for
        have hweight := hf.weight_visit
        have henter : Frame.weight U ⟨child f.dir name, tree, []⟩ + 3 ≤ _ := weight_enter hname hmem
        simp only [Scan.weight, List.map_cons, List.sum_cons]
        omega
  | @compress tree f rest name outPath content hname hfile hout =>
      obtain ⟨hmem, hf, hrest⟩ := hnext rfl rfl (by rw [hfile]; exact Option.some_ne_none _)
      refine ⟨List.forall_mem_cons.mpr ⟨hf, hrest⟩, ?_⟩
      -- the entry's charge pays for the run of `ffmpeg` and the removal as well
      have hweight := hf.weight_visit
      have hfour := four_le_cost U.card (f.depth U)
      simp only [Scan.weight, List.map_cons, List.sum_cons, Pc.weight]
      omega
  | @pass tree f rest name content hname hfile hout =>
      obtain ⟨hmem, hf, hrest⟩ := hnext rfl rfl (by rw [hfile]; exact Option.some_ne_none _)
      refine ⟨List.forall_mem_cons.mpr ⟨hf, hrest⟩, ?_⟩
      have hweight := hf.weight_visit
      have hfour := four_le_cost U.card (f.depth U)
      simp only [Scan.weight, List.map_cons, List.sum_cons]
      omega
  | @finish tree f rest =>
      refine ⟨fun g hg => hcount g (List.mem_cons_of_mem f hg), ?_⟩
      have hpos : 0 < f.weight U := Nat.succ_pos _
      simp only [Scan.weight, List.map_cons, List.sum_cons]
      omega
  | success => exact ⟨hcount, Nat.lt_succ_self _⟩
  | remove => exact ⟨hcount, Nat.lt_succ_self _⟩

end Weights

section Results

variable {Content : Type} (ffmpeg : Content → Content)

/-! ## Every scan ends -/

theorem finite_appears {tree : Tree Content} (dir : Path) (h : {path | tree path ≠ none}.Finite) :
    {path | Appears tree dir path}.Finite := by
  have houtputs : {path | ∃ q content, Uncompressed tree dir q content path}.Finite := by
    refine (h.image fun q => (outPath? q).getD []).subset ?_
    rintro path ⟨q, content, hfile⟩
    refine ⟨q, ?_, ?_⟩
    · show tree q ≠ none
      rw [hfile.file]
      exact Option.some_ne_none _
    · show (outPath? q).getD [] = path
      rw [hfile.out, Option.getD_some]
  exact h.union houtputs

variable [DecidableEq Content]

/-- The scan does not go on for ever, and it does not stop before all its iterators have ended. -/
def Ends (tree : Tree Content) (dir : Path) : Prop :=
  ∃ bound, ∀ es t, RunWithin (Scan.step ffmpeg) Scan.Allowed (Scan.start tree dir) es t →
    es.length ≤ bound ∧ (t.frames ≠ [] → ∃ e u, t.Allowed e ∧ t.step ffmpeg e = some u)

theorem inv_of_run {tree : Tree Content} {dir : Path} (hfree : TargetsFree tree dir)
    {es : List (Event Content)} {t : Scan Content}
    (h : RunWithin (Scan.step ffmpeg) Scan.Allowed (Scan.start tree dir) es t) :
    Inv ffmpeg tree dir t :=
  RunWithin.invariant (fun _ _ _ hs hok hstep => inv_of_move hfree hok (move_of_step ffmpeg hok hstep) hs)
    h (inv_start ffmpeg tree dir)

theorem length_le_of_run {tree : Tree Content} {dir : Path} (hfree : TargetsFree tree dir)
    {U : Finset Path} (hU : ∀ path, Appears tree dir path → path ∈ U) {es : List (Event Content)}
    {t : Scan Content} (h : RunWithin (Scan.step ffmpeg) Scan.Allowed (Scan.start tree dir) es t) :
    es.length ≤ (Scan.start tree dir).weight U := by
  have hkeep : ∀ s e u, (Inv ffmpeg tree dir s ∧ ∀ f ∈ s.frames, Counted U f) → Scan.Allowed s e →
      s.step ffmpeg e = some u →
      (Inv ffmpeg tree dir u ∧ ∀ f ∈ u.frames, Counted U f) ∧ u.weight U < s.weight U := by
    rintro s e u ⟨hinv, hcount⟩ hok hstep
    have hmove := move_of_step ffmpeg hok hstep
    obtain ⟨hcount', hlt⟩ := weight_of_move hU hok hmove hinv hcount
    exact ⟨⟨inv_of_move hfree hok hmove hinv, hcount'⟩, hlt⟩
  have hstart : ∀ f ∈ (Scan.start tree dir).frames, Counted U f := by
    intro f hf
    obtain rfl := List.mem_singleton.mp hf
    -- the first iterator has come to nothing yet
    exact ⟨List.nodup_nil, fun name hname => by cases hname⟩
  have hle := RunWithin.length_add_le hkeep h ⟨inv_start ffmpeg tree dir, hstart⟩
  exact (Nat.le_add_right _ _).trans hle

theorem ends_of_finite {tree : Tree Content} {dir : Path} (hfinite : {path | tree path ≠ none}.Finite)
    (hfree : TargetsFree tree dir) : Ends ffmpeg tree dir := by
  have happears := finite_appears dir hfinite
  have hU : ∀ path, Appears tree dir path → path ∈ happears.toFinset :=
    fun path hpath => happears.mem_toFinset.mpr hpath
  refine ⟨(Scan.start tree dir).weight happears.toFinset, fun es t hrun => ⟨?_, fun hframes => ?_⟩⟩
  · exact length_le_of_run ffmpeg hfree hU hrun
  · obtain ⟨e, u, hok, hmove⟩ := exists_move hfree (inv_of_run ffmpeg hfree hrun) hframes
    exact ⟨e, u, hok, step_of_move ffmpeg hmove⟩

/-! ## The tree after a scan -/

omit [DecidableEq Content] in
theorem Inside.of_directories {tree tree' : Tree Content} {dir path : Path}
    (hdirs : ∀ q, tree' q = some .directory → tree q = some .directory) (h : Inside tree' dir path) :
    Inside tree dir path := by
  induction h with
  | entry hname => exact .entry hname
  | deeper hname hdir _ ih => exact .deeper hname (hdirs _ hdir) ih

/-- A tree with finitely many files and directories. -/
structure DirectoryTree (Content : Type) where
  node : Tree Content
  finite : {path | node path ≠ none}.Finite

/-- `tree'` is `tree` with every uncompressed file in `dir` replaced by its output. -/
structure Compressed (tree : Tree Content) (dir : Path) (tree' : Tree Content) : Prop where
  /-- Every name with one of the extensions ends in `_COMPRESS` and the extension. -/
  names : ∀ path content, Inside tree' dir path → tree' path = some (.file content) →
    endsWith path ".jpg".toList ∨ endsWith path ".mp4".toList →
    endsWith path "_COMPRESS.jpg".toList ∨ endsWith path "_COMPRESS.mp4".toList
  /-- An uncompressed file is gone, and its output is there, in the same directory. -/
  replaced : ∀ path content outPath, Uncompressed tree dir path content outPath →
    tree' path = none ∧ tree' outPath = some (.file (ffmpeg content)) ∧
      ∃ sub name outName, Scanned tree dir sub ∧ path = child sub name ∧ outPath = child sub outName ∧
        IsName name ∧ IsName outName
  /-- No two of them have one output. -/
  one : ∀ path path' content content' outPath, Uncompressed tree dir path content outPath →
    Uncompressed tree dir path' content' outPath → path = path'
  /-- Everything else is as it was. -/
  untouched : ∀ path, (∀ content outPath, ¬ Uncompressed tree dir path content outPath) →
    (∀ q content, ¬ Uncompressed tree dir q content path) → tree' path = tree path

omit [DecidableEq Content] in
/-- A compressed tree has nothing to compress. -/
theorem Shape.not_uncompressed {tree tree' : Tree Content} {dir : Path} {removed : Set Path}
    (h : Shape ffmpeg tree dir removed removed tree')
    (hall : ∀ path content outPath, Uncompressed tree dir path content outPath → path ∈ removed)
    (path : Path) (content : Content) (outPath : Path) :
    ¬ Uncompressed tree' dir path content outPath := by
  intro hun
  obtain ⟨hfile₀, hremoved⟩ := h.file hun.file hun.out
  have hinside₀ := hun.inside.of_directories fun q hq => h.directory hq
  exact hremoved (hall path content outPath ⟨hinside₀, hfile₀, hun.out⟩)

omit [DecidableEq Content] in
theorem Shape.compressed {tree tree' : Tree Content} {dir : Path} {removed : Set Path}
    (h : Shape ffmpeg tree dir removed removed tree')
    (hall : ∀ path content outPath, Uncompressed tree dir path content outPath → path ∈ removed) :
    Compressed ffmpeg tree dir tree' where
  names := by
    intro path content hinside hfile hext
    refine endsWith_compress ?_ hext
    cases hout : outPath? path with
    | none => rfl
    | some outPath => exact absurd ⟨hinside, hfile, hout⟩ (h.not_uncompressed ffmpeg hall path content outPath)
  replaced := by
    intro path content outPath hun
    have hmem := hall path content outPath hun
    exact ⟨h.gone path hmem, h.output path content outPath hmem hun.file hun.out,
      exists_parent hun.inside hun.out⟩
  one := fun path path' content content' outPath hun hun' => outPath?_inj hun.out hun'.out
  untouched := by
    intro path hnot hnotOut
    refine h.same path (fun hmem => ?_) fun q hq hout => ?_
    · obtain ⟨content, outPath, hun⟩ := h.uncompressed path hmem
      exact hnot content outPath hun
    · obtain ⟨content, outPath, hun⟩ := h.uncompressed q hq
      cases hun.out.symm.trans hout
      exact hnotOut q content hun

omit [DecidableEq Content] in
/-- Where nothing is to be compressed the tree stays as it is. -/
theorem Inv.tree_eq {tree : Tree Content} {dir : Path} {s : Scan Content} (h : Inv ffmpeg tree dir s)
    (hnone : ∀ path content outPath, ¬ Uncompressed tree dir path content outPath) : s.tree = tree := by
  cases h with
  | @iterating removed tree' frames hshape _ =>
      funext path
      refine hshape.same path (fun hmem => ?_) fun q hq => ?_
      · obtain ⟨content, outPath, hun⟩ := hshape.uncompressed path hmem
        exact absurd hun (hnone path content outPath)
      · obtain ⟨content, outPath, hun⟩ := hshape.uncompressed q hq
        exact absurd hun (hnone q content outPath)
  | compressing hun => exact absurd hun (hnone _ _ _)
  | removing hshape _ =>
      obtain ⟨content, outPath, hun⟩ := hshape.uncompressed _ (Set.mem_insert _ _)
      exact absurd hun (hnone _ _ _)

/-- A scan of a tree in which no output is there before ends, and leaves the tree compressed; a second scan
ends as well, and changes nothing. -/
theorem scan_compresses (tree : DirectoryTree Content) (dir : Path) (hfree : TargetsFree tree.node dir) :
    Ends ffmpeg tree.node dir ∧
      ∀ es t, RunWithin (Scan.step ffmpeg) Scan.Allowed (Scan.start tree.node dir) es t → t.frames = [] →
        Compressed ffmpeg tree.node dir t.tree ∧ Ends ffmpeg t.tree dir ∧
          ∀ es' t', RunWithin (Scan.step ffmpeg) Scan.Allowed (Scan.start t.tree dir) es' t' →
            t'.tree = t.tree := by
  refine ⟨ends_of_finite ffmpeg tree.finite hfree, fun es t hrun hend => ?_⟩
  obtain ⟨removed, hshape, hall⟩ := exists_shape_of_end (inv_of_run ffmpeg hfree hrun) hend
  -- nothing is left to compress, so the second scan is one of a tree whose targets are free
  have hnone := hshape.not_uncompressed ffmpeg hall
  have hfree' : TargetsFree t.tree dir := fun path content outPath hun => absurd hun (hnone _ _ _)
  have hfinite' : {path | t.tree path ≠ none}.Finite :=
    (finite_appears dir tree.finite).subset fun path hpath => hshape.appears hpath
  refine ⟨hshape.compressed ffmpeg hall, ends_of_finite ffmpeg hfinite' hfree', fun es' t' hrun' => ?_⟩
  exact (inv_of_run ffmpeg hfree' hrun').tree_eq ffmpeg hnone

end Results

theorem finite_camera : {path | camera path ≠ none}.Finite := by
  refine (List.finite_toSet ["/Camera/a.mp4".toList, "/Camera/2024".toList,
    "/Camera/2024/b.jpg".toList]).subset fun path hpath => ?_
  by_contra hnot
  obtain ⟨hfilm, hrest⟩ := not_or.mp (mt List.mem_cons.mpr hnot)
  obtain ⟨hdir, hrest⟩ := not_or.mp (mt List.mem_cons.mpr hrest)
  obtain ⟨hpicture, -⟩ := not_or.mp (mt List.mem_cons.mpr hrest)
  refine hpath ?_
  rw [camera, if_neg hfilm, if_neg hdir, if_neg hpicture]

theorem targetsFree_camera : TargetsFree camera "/Camera/".toList := by
  intro path content outPath hun
  have hfile := hun.file
  have hout := hun.out
  unfold camera at hfile
  split at hfile
  case isTrue heq =>
    subst heq
    cases (show outPath? "/Camera/a.mp4".toList = some "/Camera/a_COMPRESS.mp4".toList by decide).symm.trans
      hout
    decide
  case isFalse =>
    split at hfile
    case isTrue => cases hfile
    case isFalse =>
      split at hfile
      case isTrue heq =>
        subst heq
        cases (show outPath? "/Camera/2024/b.jpg".toList =
          some "/Camera/2024/b_COMPRESS.jpg".toList by decide).symm.trans hout
        decide
      case isFalse => cases hfile

/-- A scan of the camera's directory comes to an end, with the picture and the film compressed. -/
theorem scan_compresses_camera :
    ∃ es t, RunWithin (Scan.step halve) Scan.Allowed (Scan.start camera "/Camera/".toList) es t ∧
      t.frames = [] ∧ t.tree "/Camera/a.mp4".toList = none ∧
      t.tree "/Camera/a_COMPRESS.mp4".toList = some (.file [1, 2]) ∧
      t.tree "/Camera/2024/b.jpg".toList = none ∧
      t.tree "/Camera/2024/b_COMPRESS.jpg".toList = some (.file [5]) := by
  obtain ⟨⟨bound, hends⟩, hresult⟩ :=
    scan_compresses halve ⟨camera, finite_camera⟩ "/Camera/".toList targetsFree_camera
  obtain ⟨es, t, hrun, hend⟩ := exists_final (F := fun t => t.frames = [])
    (fun es t hrun => (hends es t hrun).1) (fun es t hrun => (hends es t hrun).2)
  obtain ⟨hcompressed, -⟩ := hresult es t hrun hend
  have hfilm : Uncompressed camera "/Camera/".toList "/Camera/a.mp4".toList [1, 2, 3, 4]
      "/Camera/a_COMPRESS.mp4".toList := by
    have hname : IsName "a.mp4".toList := by decide
    exact ⟨Inside.entry hname, by decide, by decide⟩
  have hpicture : Uncompressed camera "/Camera/".toList "/Camera/2024/b.jpg".toList [5, 6]
      "/Camera/2024/b_COMPRESS.jpg".toList := by
    have hdir : IsName "2024".toList := by decide
    have hname : IsName "b.jpg".toList := by decide
    exact ⟨Inside.deeper hdir (by decide) (Inside.entry hname), by decide, by decide⟩
  obtain ⟨hfilm₁, hfilm₂, -⟩ := hcompressed.replaced _ _ _ hfilm
  obtain ⟨hpicture₁, hpicture₂, -⟩ := hcompressed.replaced _ _ _ hpicture
  exact ⟨es, t, hrun, hend, hfilm₁, hfilm₂, hpicture₁, hpicture₂⟩

end CmdFfmpeg
end MyCppCode
