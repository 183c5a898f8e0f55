import LintLocator.Proofs.FileTree.Paths
import LintLocator.Settings.Load

/-!
# The format that a path stands for

The format of settings is told by the extension of the file, which is looked for in the last part of
the path.  On the whole this comes to looking at how the path ends: a path to a file ends in a name,
so the name ends in `.toml` just if the path does.  The exception is the name `.toml` itself, whose
dot is its first character, so that what stands behind it is no extension.

* `Settings.extension?_eq_some_iff`: when a name has an extension;
* `Settings.dialectOf_eq`: the same said of the text of a path to a file;
* `Settings.load_by_ending`: in which format settings are read.
-/

namespace LintLocator
namespace Settings

/-! ## Extensions -/

theorem extension?_of_notMem {name : String} (h : '.' ∉ name.toList) : extension? name = none := by
  rw [extension?, Text.splitOn_of_notMem h]
  rfl

/-- What stands behind the last dot is an extension unless nothing stands before it. -/
theorem extension?_append {stem ext : String} (h : '.' ∉ ext.toList) :
    extension? (stem ++ "." ++ ext) = if stem = "" then none else some ext := by
  have hsplit : Text.splitOn ['.'] (stem ++ "." ++ ext).toList =
      Text.splitOn ['.'] stem.toList ++ [ext.toList] := by
    have hlist : (stem ++ "." ++ ext).toList = stem.toList ++ '.' :: ext.toList := by simp
    rw [hlist, Text.splitOn_append_cons, Text.splitOn_of_notMem h]
  obtain ⟨first, more, hstem⟩ := List.exists_cons_of_ne_nil (Text.splitOn_ne_nil ['.'] stem.toList)
  have honly : stem = "" ↔ first = [] ∧ more = [] := by
    rw [← String.toList_eq_nil_iff, ← Text.splitOn_eq_singleton_nil_iff, hstem]
    simp
  rw [extension?, hsplit, hstem, List.cons_append]
  by_cases hempty : stem = ""
  · obtain ⟨rfl, rfl⟩ := honly.mp hempty
    simp [hempty]
  · have hcond : ¬ (first = [] ∧ more = []) := fun h => hempty (honly.mpr h)
    simp [hempty, hcond]

/-- **A name has an extension** if it has a dot, unless its only dot is the first character. -/
theorem extension?_eq_some_iff {name ext : String} :
    extension? name = some ext ↔
      ∃ stem, stem ≠ "" ∧ '.' ∉ ext.toList ∧ name = stem ++ "." ++ ext := by
  constructor
  · intro h
    by_cases hdot : '.' ∈ name.toList
    · obtain ⟨stem, last, hname, hlast⟩ := Text.exists_last_of_mem hdot
      have heq : name = String.ofList stem ++ "." ++ String.ofList last := by
        apply String.toList_injective
        simp [hname]
      rw [heq, extension?_append (by simpa using hlast)] at h
      split at h
      · cases h
      · cases h
        exact ⟨_, ‹_›, by simpa using hlast, heq⟩
    · rw [extension?_of_notMem hdot] at h
      cases h
  · rintro ⟨stem, hstem, hext, rfl⟩
    rw [extension?_append hext, if_neg hstem]

/-! ## Paths to files -/

/-- The path ends in `.toml`. -/
def EndsInToml (path : String) : Prop := ".toml".toList <:+ path.toList

/-- The last part of the path is nothing but `.toml`. -/
def IsBareToml (path : String) : Prop := path = ".toml" ∨ "/.toml".toList <:+ path.toList

theorem fileName?_of_isName {path name : String}
    (hlast : (FileTree.pathParts path).getLast? = some name) (hname : FileTree.IsName name) :
    fileName? path = some name := by
  obtain ⟨parts, hparts⟩ := List.getLast?_eq_some_iff.mp hlast
  have hidle : (name == "" || name == ".") = false := by
    simp [hname.ne_empty, hname.ne_dot]
  rw [fileName?, hparts, List.reverse_append, List.reverse_singleton, List.singleton_append,
    List.dropWhile_cons_of_neg (by simp [hidle])]
  simp [hname.ne_up]

/-- What holds no slash is at the end of a path just if it is at the end of its last part. -/
theorem suffix_append_iff {text : List Char} (htext : '/' ∉ text) (folder name : String) :
    text <:+ (folder ++ "/" ++ name).toList ↔ text <:+ name.toList := by
  have hpath : (folder ++ "/" ++ name).toList = folder.toList ++ '/' :: name.toList := by simp
  rw [hpath]
  refine ⟨fun h => ?_, fun h => ?_⟩
  · rcases List.suffix_or_suffix_of_suffix h (List.suffix_append _ _) with h | h
    · rcases List.suffix_cons_iff.mp h with rfl | h
      · exact absurd List.mem_cons_self htext
      · exact h
    · exact absurd (h.mem List.mem_cons_self) htext
  · exact (h.trans (List.suffix_cons _ _)).trans (List.suffix_append _ _)

theorem endsInToml_iff {path name : String}
    (hlast : (FileTree.pathParts path).getLast? = some name) :
    EndsInToml path ↔ ∃ stem, name = stem ++ ".toml" := by
  have hname : ".toml".toList <:+ name.toList ↔ ∃ stem, name = stem ++ ".toml" := by
    constructor
    · rintro ⟨stem, hstem⟩
      exact ⟨String.ofList stem, String.toList_injective (by simp [← hstem])⟩
    · rintro ⟨stem, rfl⟩
      exact ⟨stem.toList, by simp⟩
  obtain ⟨last, hnot, hlast', hpath⟩ := FileTree.exists_last_part path
  obtain rfl : last = name := Option.some.inj (hlast'.symm.trans hlast)
  rw [← hname]
  rcases hpath with rfl | ⟨folder, rfl⟩
  · rfl
  · exact suffix_append_iff (by decide) folder last

theorem isBareToml_iff {path name : String}
    (hlast : (FileTree.pathParts path).getLast? = some name) :
    IsBareToml path ↔ name = ".toml" := by
  obtain ⟨last, hnot, hlast', hpath⟩ := FileTree.exists_last_part path
  obtain rfl : last = name := Option.some.inj (hlast'.symm.trans hlast)
  rcases hpath with rfl | ⟨folder, rfl⟩
  · refine ⟨fun h => h.resolve_right fun h => ?_, .inl⟩
    exact hnot (h.mem List.mem_cons_self)
  · have hpath : (folder ++ "/" ++ last).toList = folder.toList ++ '/' :: last.toList := by simp
    constructor
    · rintro (h | ⟨t, ht⟩)
      · have hmem : '/' ∈ (folder ++ "/" ++ last).toList := by simp
        rw [h] at hmem
        exact absurd hmem (by decide)
      · have ht : t ++ '/' :: ".toml".toList = folder.toList ++ '/' :: last.toList := by
          rw [← hpath, ← ht]
          rfl
        obtain ⟨-, hsame⟩ := (Text.append_cons_inj_right (by decide) hnot).mp ht
        exact (String.toList_injective hsame).symm
    · rintro rfl
      exact .inr ⟨folder.toList, by simp⟩

/-- **The format as the path tells it**, for a path to a file. -/
theorem dialectOf_eq_toml_iff {path name : String}
    (hlast : (FileTree.pathParts path).getLast? = some name) (hname : FileTree.IsName name) :
    dialectOf path = .toml ↔ EndsInToml path ∧ ¬ IsBareToml path := by
  have hdialect : dialectOf path = .toml ↔ extension? name = some "toml" := by
    rw [dialectOf, fileName?_of_isName hlast hname, Option.bind_some]
    split <;> simp_all
  rw [hdialect, extension?_eq_some_iff, endsInToml_iff hlast, isBareToml_iff hlast]
  have hdot (stem : String) : stem ++ "." ++ "toml" = stem ++ ".toml" := by
    rw [String.append_assoc]
    rfl
  constructor
  · rintro ⟨stem, hstem, -, rfl⟩
    refine ⟨⟨stem, hdot stem⟩, fun h => hstem ?_⟩
    rw [hdot] at h
    exact String.append_eq_right_iff.mp h
  · rintro ⟨⟨stem, rfl⟩, hbare⟩
    refine ⟨stem, fun h => hbare ?_, by decide, (hdot stem).symm⟩
    rw [h]
    rfl

theorem load_eq_mapError {files : FileTree} {path source : String}
    (h : files.read path = .ok source) :
    load files path =
      (parse (dialectOf path) source).mapError (Failure.within (.parsingSettings path)) := by
  simp only [load, h]
  cases parse (dialectOf path) source <;> rfl

/-- **Settings are read as the path says.**  If a path to a file ends in `.toml`, and that is not all
of its last part, the settings in the file are read as TOML, and otherwise they are read as YAML.
Any failure to read them names the path. -/
theorem load_by_ending {files : FileTree} {path source : String}
    (h : files.read path = .ok source) :
    (EndsInToml path ∧ ¬ IsBareToml path →
      load files path = (parse .toml source).mapError (Failure.within (.parsingSettings path))) ∧
    (¬ EndsInToml path ∨ IsBareToml path →
      load files path = (parse .yaml source).mapError (Failure.within (.parsingSettings path))) ∧
    ∀ f, load files path = .error f →
      f.chain.head? = some ("Failed to parse config file " ++ path) := by
  obtain ⟨name, hlast, hname⟩ := FileTree.exists_name_of_read h
  have htoml := dialectOf_eq_toml_iff hlast hname
  have hload := load_eq_mapError h
  refine ⟨fun hends => ?_, fun hends => ?_, fun f hf => ?_⟩
  · rw [hload, htoml.mpr hends]
  · have hyaml : dialectOf path = .yaml := by
      cases hdialect : dialectOf path with
      | yaml => rfl
      | toml =>
        obtain ⟨hend, hbare⟩ := htoml.mp hdialect
        exact absurd hends (not_or_intro (not_not_intro hend) hbare)
    rw [hload, hyaml]
  · rw [hload] at hf
    cases hparse : parse (dialectOf path) source with
    | ok settings =>
      rw [hparse] at hf
      cases hf
    | error g =>
      rw [hparse] at hf
      cases hf
      rfl

/-- One job, written in TOML. -/
def tomlJob : String := "[[kubeval]]\nfiles = [\"*.json\"]\n"

/-- Two files with that job. -/
def tomlFiles : FileTree :=
  .folder [(".toml", .file (tomlJob.toList.map fun c => c.toNat.toUInt8)),
    ("s", .folder [("..toml", .file (tomlJob.toList.map fun c => c.toNat.toUInt8))])]

/-- A name with two dots has an extension even if the first of them is its first character. -/
theorem load_by_ending_of_two_dots :
    tomlFiles.read "s/./..toml" = .ok tomlJob ∧
      (EndsInToml "s/./..toml" ∧ ¬ IsBareToml "s/./..toml") ∧
      load tomlFiles "s/./..toml" = .ok { kubeval := [{ files := ["*.json"] }] } := by
  have hread : tomlFiles.read "s/./..toml" = .ok tomlJob := by decide +kernel
  have hends : EndsInToml "s/./..toml" ∧ ¬ IsBareToml "s/./..toml" := by
    rw [EndsInToml, IsBareToml]
    decide +kernel
  have hparse : parse .toml tomlJob = .ok { kubeval := [{ files := ["*.json"] }] } := by
    have hread? : Dialect.toml.read? tomlJob = some { kubeval := [{ files := ["*.json"] }] } := by
      decide +kernel
    rw [parse, hread?]
  refine ⟨hread, hends, ?_⟩
  rw [(load_by_ending hread).1 hends, hparse]
  rfl

/-- A file that is called `.toml` is not read as TOML. -/
theorem load_of_bare_name :
    ¬ ∀ (files : FileTree) (path source : String), files.read path = .ok source →
      EndsInToml path →
        load files path = (parse .toml source).mapError (Failure.within (.parsingSettings path)) := by
  intro h
  have hload := h tomlFiles ".toml" tomlJob (by decide +kernel) ⟨[], by decide +kernel⟩
  have hsettings := congrArg Except.toOption hload
  exact absurd hsettings (by decide +kernel)

end Settings
end LintLocator
