import LintLocator.FileTree.Reading
import LintLocator.Proofs.Text.Splitting

/-!
# Paths and their parts

A path is cut at its slashes.  The parts that lead anywhere are those that are neither empty nor
`.`; in front of a file there is always such a part, because all others lead to folders.

* `pathParts_append`, `pathParts_joinWith`: the parts of a path that is put together;
* `exists_last_part`: a path is a part, or a part stands behind its last slash;
* `pathParts_joinPath`, `spelledBy_foldl`: the parts of a path that is put together step by step;
* `exists_pathParts_joinPath`: the parts of a path with a name behind it that may have several;
* `exists_name_of_follow`: the last part of a path to a file is the name of the file.
-/

namespace LintLocator
namespace FileTree

/-! ## Cutting at slashes -/

theorem pathParts_of_notMem {name : String} (h : '/' ∉ name.toList) : pathParts name = [name] := by
  rw [pathParts, Text.splitOn_of_notMem h, List.map_singleton, String.ofList_toList]

theorem notMem_of_mem_pathParts {path part : String} (h : part ∈ pathParts path) :
    '/' ∉ part.toList := by
  obtain ⟨piece, hpiece, rfl⟩ := List.mem_map.mp h
  rw [String.toList_ofList]
  exact Text.notMem_of_mem_splitOn hpiece

theorem pathParts_ne_nil (path : String) : pathParts path ≠ [] := by
  simp [pathParts, Text.splitOn_ne_nil]

theorem pathParts_append (folder name : String) :
    pathParts (folder ++ "/" ++ name) = pathParts folder ++ pathParts name := by
  have hlist : (folder ++ "/" ++ name).toList = folder.toList ++ '/' :: name.toList := by
    simp
  rw [pathParts, hlist, Text.splitOn_append_cons, List.map_append]
  rfl

/-- Parts are read back from a path that is put together of them. -/
theorem pathParts_joinWith {parts : List String} (hne : parts ≠ [])
    (h : ∀ part ∈ parts, '/' ∉ part.toList) : pathParts (Text.joinWith "/" parts) = parts := by
  induction parts with
  | nil => exact absurd rfl hne
  | cons part parts ih =>
    obtain ⟨hpart, hparts⟩ := List.forall_mem_cons.mp h
    cases parts with
    | nil => exact pathParts_of_notMem hpart
    | cons next parts =>
      rw [Text.joinWith_cons_cons, pathParts_append, pathParts_of_notMem hpart,
        ih (List.cons_ne_nil _ _) hparts, List.singleton_append]

/-- The last part of a path. -/
theorem exists_last_part (path : String) :
    ∃ last, '/' ∉ last.toList ∧ (pathParts path).getLast? = some last ∧
      (path = last ∨ ∃ folder, path = folder ++ "/" ++ last) := by
  by_cases h : '/' ∈ path.toList
  · obtain ⟨folder, last, hpath, hlast⟩ := Text.exists_last_of_mem h
    have heq : path = String.ofList folder ++ "/" ++ String.ofList last := by
      apply String.toList_injective
      simp [hpath]
    have hnot : '/' ∉ (String.ofList last).toList := by simpa using hlast
    refine ⟨String.ofList last, hnot, ?_, .inr ⟨_, heq⟩⟩
    rw [heq, pathParts_append, pathParts_of_notMem hnot, List.getLast?_append_of_ne_nil _ (by simp),
      List.getLast?_singleton]
  · exact ⟨path, h, by rw [pathParts_of_notMem h]; rfl, .inl rfl⟩

/-! ## Going on from a path -/

theorem joinPath_of_noSlash {folder name : String} (h : '/' ∉ name.toList) :
    joinPath folder name =
      if folder = "" ∨ folder.toList.getLast? = some '/' then folder ++ name
      else folder ++ "/" ++ name := by
  have hhead : (name.toList.head? == some '/') = false := by
    rw [beq_eq_false_iff_ne]
    exact fun hhead => h (List.mem_of_mem_head? hhead)
  simp [joinPath, hhead]

/-- **One part more**, in the place of an empty part at the end if there is one. -/
theorem pathParts_joinPath {path name : String} (h : '/' ∉ name.toList) :
    pathParts (joinPath path name) =
      if (pathParts path).getLast? = some "" then (pathParts path).dropLast ++ [name]
      else pathParts path ++ [name] := by
  obtain ⟨last, hnot, hlast, hpath⟩ := exists_last_part path
  rw [joinPath_of_noSlash h, hlast]
  by_cases hempty : last = ""
  · subst hempty
    rcases hpath with rfl | ⟨folder, rfl⟩
    · rw [if_pos (.inl rfl), if_pos rfl, String.empty_append]
      exact pathParts_of_notMem h
    · have hends : (folder ++ "/" ++ "").toList.getLast? = some '/' := by simp
      rw [if_pos (.inr hends), if_pos rfl, pathParts_append, String.append_empty, pathParts_append,
        pathParts_of_notMem h, pathParts_of_notMem hnot, List.dropLast_concat]
  · have hends : ¬ (path = "" ∨ path.toList.getLast? = some '/') := by
      have hchars : last.toList ≠ [] := by simpa using hempty
      rcases hpath with rfl | ⟨folder, rfl⟩
      · exact not_or_intro hempty fun hend => hnot (List.mem_of_getLast? hend)
      · rw [String.toList_append, List.getLast?_append_of_ne_nil _ hchars]
        refine not_or_intro (fun h => ?_) fun hend => hnot (List.mem_of_getLast? hend)
        exact hempty (String.append_eq_empty_iff.mp h).2
    rw [if_neg hends, if_neg (by simpa using hempty), pathParts_append, pathParts_of_notMem h]

/-- The parts of a path with a name behind it; an empty part at its end makes room for the name. -/
theorem exists_pathParts_joinPath {base name : String} (hbase : base ≠ "")
    (hname : name.toList.head? ≠ some '/') :
    ∃ front tail, (tail = [] ∨ tail = [""]) ∧ pathParts base = front ++ tail ∧
      pathParts (joinPath base name) = front ++ pathParts name := by
  by_cases hends : base.toList.getLast? = some '/'
  · obtain ⟨front, hfront⟩ := List.getLast?_eq_some_iff.mp hends
    have hbase' : base = String.ofList front ++ "/" ++ "" := String.toList_injective (by simp [hfront])
    have hjoin : joinPath base name = String.ofList front ++ "/" ++ name := by
      apply String.toList_injective
      simp [joinPath, hname, hfront]
    exact ⟨pathParts (String.ofList front), [""], .inr rfl,
      by rw [hbase', pathParts_append]; rfl, by rw [hjoin, pathParts_append]⟩
  · have hjoin : joinPath base name = base ++ "/" ++ name := by
      simp [joinPath, hname, hends, hbase]
    exact ⟨pathParts base, [], .inl rfl, (List.append_nil _).symm,
      by rw [hjoin, pathParts_append]⟩

/-- The parts of a path are these, and there may be empty parts in front of them and one behind
them. -/
def SpelledBy (core : List String) (path : String) : Prop :=
  ∃ lead tail, (∀ s ∈ lead, s = "") ∧ (tail = [] ∨ tail = [""]) ∧
    pathParts path = lead ++ core ++ tail

theorem SpelledBy.joinPath {core : List String} {path name : String} (h : SpelledBy core path)
    (hcore : "" ∉ core) (hname : '/' ∉ name.toList) :
    SpelledBy (core ++ [name].filter (· ≠ "")) (FileTree.joinPath path name) := by
  obtain ⟨lead, tail, hlead, htail, hparts⟩ := h
  suffices hmore : ∃ lead', (∀ s ∈ lead', s = "") ∧
      pathParts (FileTree.joinPath path name) = lead' ++ core ++ [name] by
    obtain ⟨lead', hlead', hmore⟩ := hmore
    by_cases hempty : name = ""
    · subst hempty
      exact ⟨lead', [""], hlead', .inr rfl, by simp [hmore]⟩
    · exact ⟨lead', [], hlead', .inl rfl, by simp [hmore, hempty]⟩
  rw [pathParts_joinPath hname]
  rcases htail with rfl | rfl
  · rw [List.append_nil] at hparts
    rcases List.eq_nil_or_concat' core with rfl | ⟨init, last, rfl⟩
    · -- all parts are empty, and the last of them makes room for the new one
      rw [List.append_nil] at hparts
      rcases List.eq_nil_or_concat' lead with rfl | ⟨lead', last, rfl⟩
      · exact absurd hparts (pathParts_ne_nil path)
      · obtain ⟨hlead', hlast⟩ := List.forall_mem_append.mp hlead
        obtain rfl := hlast last (List.mem_singleton_self last)
        exact ⟨lead', hlead', by simp [hparts]⟩
    · have hlast : last ≠ "" := fun h => hcore (by simp [h])
      exact ⟨lead, hlead, by simp [hparts, hlast]⟩
  · exact ⟨lead, hlead, by simp [hparts]⟩

/-- **The parts of a path that is put together** of steps are the steps that are not empty. -/
theorem spelledBy_foldl {start : String} (hstart : start = "" ∨ start = "/")
    {steps : List String} (hsteps : ∀ s ∈ steps, '/' ∉ s.toList) :
    SpelledBy (steps.filter (· ≠ "")) (steps.foldl FileTree.joinPath start) := by
  induction steps using List.reverseRecOn with
  | nil =>
    rcases hstart with rfl | rfl
    · exact ⟨[], [""], by simp, .inr rfl, rfl⟩
    · exact ⟨[""], [""], by simp, .inr rfl, rfl⟩
  | append_singleton steps s ih =>
    obtain ⟨hinit, hs⟩ := List.forall_mem_append.mp hsteps
    rw [List.foldl_append, List.filter_append]
    exact (ih hinit).joinPath (by simp) (hs s (List.mem_singleton_self s))

/-! ## Paths to files -/

/-- A part of a path that leads to an entry. -/
structure IsName (part : String) : Prop where
  ne_empty : part ≠ ""
  ne_dot : part ≠ "."
  ne_up : part ≠ ".."

instance (part : String) : Decidable (IsName part) :=
  decidable_of_iff (part ≠ "" ∧ part ≠ "." ∧ part ≠ "..")
    ⟨fun ⟨hempty, hdot, hup⟩ => ⟨hempty, hdot, hup⟩, fun h => ⟨h.ne_empty, h.ne_dot, h.ne_up⟩⟩

/-- **Only a name leads to a file**: all other parts lead to folders. -/
theorem exists_name_of_follow {above : List FileTree} {here : FileTree} {parts : List String}
    {contents : List UInt8} (habove : ∀ t ∈ above, t.isFolder = true) (hparts : parts ≠ [])
    (h : follow above here parts = .ok (.file contents)) :
    ∃ name, parts.getLast? = some name ∧ IsName name := by
  fun_induction follow above here parts with
  | case1 above here => exact absurd rfl hparts
  | case2 above contents part parts => cases h
  | case3 above entries part parts hidle ih =>
    have hrest : parts ≠ [] := by
      rintro rfl
      cases h
    rw [List.getLast?_cons_of_ne_nil hrest]
    exact ih habove hrest h
  | case4 entries part parts hidle hup ih =>
    have hrest : parts ≠ [] := by
      rintro rfl
      cases h
    rw [List.getLast?_cons_of_ne_nil hrest]
    exact ih habove hrest h
  | case5 entries part parts hidle hup up further ih =>
    obtain ⟨hfolder, hfurther⟩ := List.forall_mem_cons.mp habove
    have hrest : parts ≠ [] := by
      rintro rfl
      cases h
      cases hfolder
    rw [List.getLast?_cons_of_ne_nil hrest]
    exact ih hfurther hrest h
  | case6 above entries part parts hidle hup hnone => cases h
  | case7 above entries part parts hidle hup t hchild ih =>
    have habove' : ∀ u ∈ folder entries :: above, u.isFolder = true :=
      List.forall_mem_cons.mpr ⟨rfl, habove⟩
    by_cases hrest : parts = []
    · subst hrest
      exact ⟨part, rfl, by simp_all, by simp_all, by simp_all⟩
    · rw [List.getLast?_cons_of_ne_nil hrest]
      exact ih habove' hrest h

/-- The last part of the path of a file is a name. -/
theorem exists_name_of_read {root : FileTree} {path source : String}
    (h : root.read path = .ok source) :
    ∃ name, (pathParts path).getLast? = some name ∧ IsName name := by
  rw [read] at h
  cases hlookup : root.lookup path with
  | error e => simp [hlookup] at h
  | ok t =>
    cases t with
    | folder entries => simp [hlookup] at h
    | file contents =>
      rw [lookup] at hlookup
      split at hlookup
      · cases hlookup
      · exact exists_name_of_follow (by simp) (pathParts_ne_nil path) hlookup

end FileTree
end LintLocator
