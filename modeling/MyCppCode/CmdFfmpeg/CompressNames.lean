import MyCppCode.CmdFfmpeg.Compress

/-!
# CompressNames — the names of the files that are compressed, and of their outputs

* `outPath?_eq_some_iff`: a file is compressed exactly if its path is a stem that does not end in
  `_COMPRESS` with one of the extensions, and the output has `_COMPRESS` between them;
* `outPath?_outPath`: an output is not compressed again;
* `outPath?_inj`: no two files have the same output;
* `outPath?_child`: an output is in the directory of its file.
-/

namespace MyCppCode
namespace CmdFfmpeg

/-! ## Names -/

/-- The names of the entries of a directory. -/
def IsName (name : Path) : Prop := name ≠ [] ∧ '/' ∉ name

instance (name : Path) : Decidable (IsName name) := inferInstanceAs (Decidable (_ ∧ _))

def IsExtension (extension : Path) : Prop := extension = ".jpg".toList ∨ extension = ".mp4".toList

theorem IsExtension.length {extension : Path} (h : IsExtension extension) : extension.length = 4 := by
  rcases h with rfl | rfl <;> rfl

theorem endsWith_iff {path suffix : Path} : endsWith path suffix = true ↔ suffix <:+ path :=
  List.isSuffixOf_iff_suffix

theorem endsWith_append {path suffix extension : Path} :
    endsWith (path ++ extension) (suffix ++ extension) = endsWith path suffix := by
  rw [Bool.eq_iff_iff, endsWith_iff, endsWith_iff]
  constructor
  · rintro ⟨t, ht⟩
    rw [← List.append_assoc] at ht
    exact ⟨t, List.append_cancel_right ht⟩
  · rintro ⟨t, rfl⟩
    exact ⟨t, by rw [List.append_assoc]⟩

theorem process_append {extension : Path} (hlength : extension.length = 4) (stem : Path) :
    process extension (stem ++ extension) =
      if endsWith stem "_COMPRESS".toList then none
      else some (stem ++ ("_COMPRESS".toList ++ extension)) := by
  have htake : (stem ++ extension).take ((stem ++ extension).length - 4) = stem := by
    rw [List.length_append, hlength, Nat.add_sub_cancel, List.take_left]
  rw [process, endsWith_append, htake]

/-- The branch for `.jpg` comes first, and takes no `.mp4`. -/
theorem not_endsWith_jpg (stem : Path) : endsWith (stem ++ ".mp4".toList) ".jpg".toList = false := by
  rw [Bool.eq_false_iff, Ne, endsWith_iff]
  rintro ⟨t, ht⟩
  have hlength : ".jpg".toList.length = ".mp4".toList.length := by decide
  exact absurd (List.append_inj' ht hlength).2 (by decide)

theorem outPath?_append {extension : Path} (h : IsExtension extension) (stem : Path) :
    outPath? (stem ++ extension) =
      if endsWith stem "_COMPRESS".toList then none
      else some (stem ++ ("_COMPRESS".toList ++ extension)) := by
  rcases h with rfl | rfl
  · rw [outPath?, if_pos (endsWith_iff.mpr (List.suffix_append _ _)), processJpg, process_append rfl]
  · rw [outPath?, not_endsWith_jpg, if_neg (by decide),
      if_pos (endsWith_iff.mpr (List.suffix_append _ _)), processMp4, process_append rfl]

/-- A path that ends in none of the extensions is passed over. -/
theorem exists_extension {path outPath : Path} (h : outPath? path = some outPath) :
    ∃ stem extension, IsExtension extension ∧ path = stem ++ extension := by
  unfold outPath? at h
  split at h
  case isTrue hjpg =>
    obtain ⟨stem, rfl⟩ := endsWith_iff.mp hjpg
    exact ⟨stem, _, Or.inl rfl, rfl⟩
  case isFalse =>
    split at h
    case isTrue hmp4 =>
      obtain ⟨stem, rfl⟩ := endsWith_iff.mp hmp4
      exact ⟨stem, _, Or.inr rfl, rfl⟩
    case isFalse => cases h

/-- The names that are compressed, and the names of their outputs. -/
theorem outPath?_eq_some_iff {path outPath : Path} :
    outPath? path = some outPath ↔
      ∃ stem extension, IsExtension extension ∧ path = stem ++ extension ∧
        endsWith stem "_COMPRESS".toList = false ∧
        outPath = stem ++ ("_COMPRESS".toList ++ extension) := by
  constructor
  · intro h
    obtain ⟨stem, extension, hext, rfl⟩ := exists_extension h
    rw [outPath?_append hext] at h
    split at h
    case isTrue => cases h
    case isFalse hstem => exact ⟨stem, extension, hext, rfl, Bool.eq_false_iff.mpr hstem, by cases h; rfl⟩
  · rintro ⟨stem, extension, hext, rfl, hstem, rfl⟩
    rw [outPath?_append hext, hstem, if_neg (by decide)]

/-- An output is not compressed again. -/
theorem outPath?_outPath {path outPath : Path} (h : outPath? path = some outPath) :
    outPath? outPath = none := by
  obtain ⟨stem, extension, hext, -, -, rfl⟩ := outPath?_eq_some_iff.mp h
  rw [← List.append_assoc, outPath?_append hext,
    if_pos (endsWith_iff.mpr (List.suffix_append stem "_COMPRESS".toList))]

/-- No two files have the same output. -/
theorem outPath?_inj {path path' outPath : Path} (h : outPath? path = some outPath)
    (h' : outPath? path' = some outPath) : path = path' := by
  obtain ⟨stem, extension, hext, rfl, -, rfl⟩ := outPath?_eq_some_iff.mp h
  obtain ⟨stem', extension', hext', rfl, -, heq⟩ := outPath?_eq_some_iff.mp h'
  -- both extensions have four characters, so the ends of the two outputs can be compared
  have hlength : ("_COMPRESS".toList ++ extension).length = ("_COMPRESS".toList ++ extension').length := by
    rw [List.length_append, List.length_append, hext.length, hext'.length]
  obtain ⟨hstem, htail⟩ := List.append_inj' heq hlength
  rw [hstem, List.append_cancel_left htail]

/-- A name with one of the extensions that is not compressed is that of an output. -/
theorem endsWith_compress {path : Path} (hout : outPath? path = none)
    (h : endsWith path ".jpg".toList ∨ endsWith path ".mp4".toList) :
    endsWith path "_COMPRESS.jpg".toList ∨ endsWith path "_COMPRESS.mp4".toList := by
  have hstem : ∀ {stem extension : Path}, IsExtension extension → path = stem ++ extension →
      endsWith path ("_COMPRESS".toList ++ extension) := by
    rintro stem extension hext rfl
    rw [outPath?_append hext] at hout
    split at hout
    case isTrue hcompress => rw [endsWith_append, hcompress]
    case isFalse => cases hout
  rcases h with h | h
  · obtain ⟨stem, hpath⟩ := endsWith_iff.mp h
    exact Or.inl (hstem (Or.inl rfl) hpath.symm)
  · obtain ⟨stem, hpath⟩ := endsWith_iff.mp h
    exact Or.inr (hstem (Or.inr rfl) hpath.symm)

/-! ## Entries of a directory -/

theorem child_eq (dir : Path) :
    ∃ d, d.getLast? = some '/' ∧ dir.length ≤ d.length ∧ ∀ name, child dir name = d ++ name := by
  by_cases hslash : dir.getLast? = some '/'
  · exact ⟨dir, hslash, Nat.le_refl _, fun name => if_pos hslash⟩
  · refine ⟨dir ++ ['/'], by simp, by simp, fun name => ?_⟩
    rw [child, if_neg hslash, List.append_assoc, List.singleton_append]

theorem child_inj {dir name name' : Path} (h : child dir name = child dir name') : name = name' := by
  obtain ⟨d, -, -, hd⟩ := child_eq dir
  rw [hd, hd] at h
  exact List.append_cancel_left h

theorem length_lt_child {dir name : Path} (h : IsName name) : dir.length < (child dir name).length := by
  obtain ⟨d, -, hle, hd⟩ := child_eq dir
  have hpos := List.length_pos_of_ne_nil h.1
  rw [hd, List.length_append]
  omega

/-- The output of a file is in the directory of the file. -/
theorem outPath?_child {dir name outPath : Path} (hname : IsName name)
    (h : outPath? (child dir name) = some outPath) :
    ∃ outName, IsName outName ∧ outPath = child dir outName := by
  obtain ⟨d, hslash, -, hd⟩ := child_eq dir
  obtain ⟨stem, extension, hext, hpath, -, rfl⟩ := outPath?_eq_some_iff.mp h
  have hnoslash : '/' ∉ "_COMPRESS".toList ++ extension := by
    rcases hext with rfl | rfl <;> decide
  -- the extension is part of the name, which begins after a slash
  obtain ⟨s, rfl, hs⟩ : ∃ s, stem = d ++ s ∧ '/' ∉ s := by
    rw [hd] at hpath
    rcases List.append_eq_append_iff.mp hpath with ⟨s, rfl, rfl⟩ | ⟨s, rfl, hs⟩
    · exact ⟨s, rfl, fun hmem => hname.2 (List.mem_append_left _ hmem)⟩
    · rcases List.eq_nil_or_concat s with rfl | ⟨l, x, rfl⟩
      · exact ⟨[], by simp, by simp⟩
      · rw [List.concat_eq_append, ← List.append_assoc, List.getLast?_concat] at hslash
        cases hslash
        refine absurd ?_ hnoslash
        rw [hs]
        simp
  refine ⟨s ++ ("_COMPRESS".toList ++ extension), ⟨?_, ?_⟩, ?_⟩
  · simp
  · intro hmem
    rcases List.mem_append.mp hmem with hmem | hmem
    · exact hs hmem
    · exact hnoslash hmem
  · rw [hd, List.append_assoc]

end CmdFfmpeg
end MyCppCode
