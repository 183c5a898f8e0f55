import LintLocator.Glob.Expansion
import LintLocator.Proofs.FileTree.Paths
import Mathlib.Data.List.DropRight

/-!
# Names of what is found

A search spells the path of what it finds: the path of the folder where it starts, with the steps of
the search behind it.  Relative to that folder there are left the steps, and of these the idle ones
are not seen: empty parts nowhere, and `.` not at either end.  So the name does not depend on how the
folder is spelled.

* `Glob.nameOf`: the name of what a row of steps leads to;
* `Glob.relativeTo_foldl`: this is the path relative to the folder;
* `Glob.pathParts_nameOf`: the parts of a name, which are the steps that are seen.
-/

namespace LintLocator
namespace Glob

open FileTree (pathParts joinPath)

/-! ## Idle parts -/

theorem isIdle_iff {part : String} : isIdle part = true ↔ part = "" ∨ part = "." := by
  simp [isIdle]

theorem trimIdle_append_left {idle : List String} (h : ∀ s ∈ idle, isIdle s = true)
    (parts : List String) : trimIdle (idle ++ parts) = trimIdle parts := by
  rw [trimIdle, trimIdle, List.dropWhile_append_of_pos h]

theorem trimIdle_append_right {idle : List String} (h : ∀ s ∈ idle, isIdle s = true)
    (parts : List String) : trimIdle (parts ++ idle) = trimIdle parts := by
  have hreverse : ∀ s ∈ idle.reverse, isIdle s = true := fun s hs => h s (List.mem_reverse.mp hs)
  rw [trimIdle, trimIdle, List.dropWhile_append]
  split
  · have hparts : parts.dropWhile isIdle = [] := List.isEmpty_iff.mp (by assumption)
    have hidle : (idle ++ []).dropWhile isIdle = [] := List.dropWhile_append_of_pos h
    rw [List.append_nil] at hidle
    rw [hparts, hidle]
  · rw [List.reverse_append, List.dropWhile_append_of_pos hreverse]

/-- The parts of a folder are taken off, and idle parts behind them may be left. -/
theorem exists_dropBase? (parts rest : List String) :
    ∃ idle, (∀ s ∈ idle, isIdle s = true) ∧
      dropBase? (parts.filter fun p => !isIdle p) (parts ++ rest) = some (idle ++ rest) := by
  induction parts with
  | nil => exact ⟨[], by simp, by simp [dropBase?]⟩
  | cons part parts ih =>
    obtain ⟨idle, hidle, hdrop⟩ := ih
    cases hpart : isIdle part with
    | false =>
      refine ⟨idle, hidle, ?_⟩
      rw [List.filter_cons_of_pos (by simp [hpart]), List.cons_append, dropBase?]
      simpa [hpart] using hdrop
    | true =>
      rw [List.filter_cons_of_neg (by simp [hpart])]
      cases hrest : parts.filter fun p => !isIdle p with
      | nil =>
        have hall : ∀ s ∈ part :: parts, isIdle s = true := by
          simpa [hpart, List.filter_eq_nil_iff] using hrest
        exact ⟨part :: parts, hall, rfl⟩
      | cons b bs =>
        refine ⟨idle, hidle, ?_⟩
        rw [List.cons_append, dropBase?, if_pos hpart, ← hrest, hdrop]

/-! ## Names -/

/-- The steps that are seen in a name. -/
def shown (steps : List String) : List String := trimIdle (steps.filter (· ≠ ""))

/-- The name of what steps lead to. -/
def nameOf (steps : List String) : String := Text.joinWith "/" (shown steps)

theorem filter_filter_ne_empty (parts : List String) :
    ((parts.filter (· ≠ "")).filter fun s => !isIdle s) = parts.filter fun s => !isIdle s := by
  rw [List.filter_filter]
  refine List.filter_congr fun s _ => ?_
  by_cases hs : s = "" <;> simp [isIdle, hs]

theorem filter_dropWhile_isIdle (parts : List String) :
    ((parts.dropWhile isIdle).filter fun s => !isIdle s) = parts.filter fun s => !isIdle s := by
  induction parts with
  | nil => rfl
  | cons part parts ih =>
    cases hpart : isIdle part with
    | true => rw [List.dropWhile_cons_of_pos hpart, ih, List.filter_cons_of_neg (by simp [hpart])]
    | false => rw [List.dropWhile_cons_of_neg (by simp [hpart])]

/-- **All steps that are not idle are seen.** -/
theorem filter_shown (steps : List String) :
    ((shown steps).filter fun s => !isIdle s) = steps.filter fun s => !isIdle s := by
  rw [shown, trimIdle, List.filter_reverse, filter_dropWhile_isIdle, List.filter_reverse,
    List.reverse_reverse, filter_dropWhile_isIdle, filter_filter_ne_empty]

/-- **What is found is named by the steps that lead there**, however the folder is spelled. -/
theorem relativeTo_foldl {base start : String} {lead folder trail steps : List String}
    (hbase : pathParts base = lead ++ folder ++ trail) (hlead : ∀ s ∈ lead, s = "")
    (htrail : ∀ s ∈ trail, s = "") (hstart : start = "" ∨ start = "/")
    (hsteps : ∀ s ∈ steps, '/' ∉ s.toList) :
    relativeTo base ((folder ++ steps).foldl joinPath start) = nameOf steps := by
  have hfolder : ∀ s ∈ folder, '/' ∉ s.toList := fun s hs =>
    FileTree.notMem_of_mem_pathParts (by rw [hbase]; simp [hs])
  obtain ⟨front, back, hfront, hback, hpath⟩ := FileTree.spelledBy_foldl hstart
    (List.forall_mem_append.mpr ⟨hfolder, hsteps⟩)
  have hempty : ∀ parts : List String, (∀ s ∈ parts, s = "") →
      (parts.filter fun p => !isIdle p) = [] := by
    intro parts hparts
    refine List.filter_eq_nil_iff.mpr fun s hs => ?_
    simp [hparts s hs, isIdle]
  have hvisible : (pathParts base).filter (fun p => !isIdle p) =
      (front ++ folder.filter (· ≠ "")).filter fun p => !isIdle p := by
    rw [hbase, List.filter_append, List.filter_append, List.filter_append, hempty lead hlead,
      hempty trail htrail, hempty front hfront, filter_filter_ne_empty]
    simp
  obtain ⟨idle, hidle, hdrop⟩ := exists_dropBase? (front ++ folder.filter (· ≠ ""))
    (steps.filter (· ≠ "") ++ back)
  have hparts : pathParts ((folder ++ steps).foldl joinPath start) =
      front ++ folder.filter (· ≠ "") ++ (steps.filter (· ≠ "") ++ back) := by
    rw [hpath, List.filter_append]
    simp
  have hbehind : ∀ s ∈ back, isIdle s = true := by
    rcases hback with rfl | rfl <;> simp [isIdle]
  simp only [relativeTo, hvisible, hparts, hdrop]
  rw [trimIdle_append_left hidle, trimIdle_append_right hbehind]
  rfl

/-! ## The parts of a name -/

theorem mem_of_mem_shown {steps : List String} {s : String} (h : s ∈ shown steps) :
    s ∈ steps ∧ s ≠ "" := by
  have hmem : s ∈ steps.filter (· ≠ "") :=
    (List.dropWhile_sublist _).mem ((List.rdropWhile_prefix isIdle _).mem h)
  simpa using hmem

/-- A name has the parts that are seen of the steps. -/
theorem pathParts_nameOf {steps : List String} (hsteps : ∀ s ∈ steps, '/' ∉ s.toList) :
    pathParts (nameOf steps) = if shown steps = [] then [""] else shown steps := by
  rw [nameOf]
  split
  · next hnone =>
    rw [hnone]
    rfl
  · next hsome =>
    exact FileTree.pathParts_joinWith hsome fun s hs => hsteps s (mem_of_mem_shown hs).1

theorem shown_eq_of_nameOf_eq {xs ys : List String} (hxs : ∀ s ∈ xs, '/' ∉ s.toList)
    (hys : ∀ s ∈ ys, '/' ∉ s.toList) (h : nameOf xs = nameOf ys) : shown xs = shown ys := by
  have hne : ∀ steps : List String, shown steps ≠ [""] := by
    intro steps heq
    have hmem : "" ∈ shown steps := heq ▸ List.mem_singleton_self ""
    exact (mem_of_mem_shown hmem).2 rfl
  have hparts := congrArg pathParts h
  rw [pathParts_nameOf hxs, pathParts_nameOf hys] at hparts
  split at hparts
  · next hx =>
    split at hparts
    · next hy => rw [hx, hy]
    · exact absurd hparts.symm (hne ys)
  · split at hparts
    · exact absurd hparts (hne xs)
    · exact hparts

/-- Names do not begin with a slash. -/
theorem head?_nameOf_ne {steps : List String} (hsteps : ∀ s ∈ steps, '/' ∉ s.toList) :
    (nameOf steps).toList.head? ≠ some '/' := by
  intro hhead
  obtain ⟨rest, hrest⟩ := List.head?_eq_some_iff.mp hhead
  have hname : nameOf steps = "" ++ "/" ++ String.ofList rest :=
    String.toList_injective (by simp [hrest])
  have hparts := pathParts_nameOf hsteps
  rw [hname, FileTree.pathParts_append] at hparts
  have hfront : "" ∈ pathParts "" ++ pathParts (String.ofList rest) :=
    List.mem_append_left _ (List.mem_singleton_self "")
  split at hparts
  · have hlength := congrArg List.length hparts
    have hpos := List.length_pos_iff.mpr (FileTree.pathParts_ne_nil (String.ofList rest))
    have hone : (pathParts "").length = 1 := rfl
    rw [List.length_append, List.length_singleton, hone] at hlength
    omega
  · rw [hparts] at hfront
    exact (mem_of_mem_shown hfront).2 rfl

/-- The last step that is seen is not idle. -/
theorem isIdle_getLast_shown {steps : List String} (h : shown steps ≠ []) :
    ∀ s ∈ (shown steps).getLast?, isIdle s = false := by
  intro s hs
  rw [List.getLast?_eq_some_getLast h] at hs
  obtain rfl := Option.some.inj hs
  exact Bool.eq_false_iff.mpr (List.rdropWhile_last_not isIdle _ h)

theorem filter_pathParts_nameOf {steps : List String} (hsteps : ∀ s ∈ steps, '/' ∉ s.toList) :
    ((pathParts (nameOf steps)).filter fun s => !isIdle s) = steps.filter fun s => !isIdle s := by
  rw [pathParts_nameOf hsteps, ← filter_shown steps]
  split
  · next hnone =>
    rw [hnone]
    rfl
  · rfl

end Glob
end LintLocator
