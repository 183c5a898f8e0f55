import LintLocator.FileTree.Place
import LintLocator.Proofs.FileTree.WellFormed

/-!
# Steps between places

A part of a path is idle, or it is `..`, or it is a name.  From a folder an idle part stays where it
is, `..` goes up, which at the top means to stay too, and a name goes to the entry that has it.  A row
of steps spells a path: the path of where it starts, with the steps behind it.

* `Place.step?_of_idle`, `Place.step?_up`, `Place.step?_of_isName`: what a step does;
* `Place.walk?`: steps in a row;
* `FileTree.follow_eq_ok_iff`: following a path is walking;
* `Place.WellFormed`: places in well-formed trees, which steps do not leave.
-/

namespace LintLocator

/-! ## Single steps -/

namespace Place

variable {p q : Place} {part : String}

theorem step?_of_file (h : p.isFolder = false) (part : String) : p.step? part = none := by
  simp [step?, h]

/-- An idle part stays where it is. -/
theorem step?_of_idle (h : p.isFolder = true) (hidle : part = "" ∨ part = ".") :
    p.step? part = some ⟨FileTree.joinPath p.path part, p.above, p.here⟩ := by
  have hidle' : (part == "" || part == ".") = true := by simpa using hidle
  simp [step?, h, hidle']

/-- The step up goes to the nearest folder around, or nowhere else if there is none. -/
theorem step?_up (h : p.isFolder = true) :
    p.step? ".." = some ⟨FileTree.joinPath p.path "..", p.above.tail, p.above.headD p.here⟩ := by
  cases habove : p.above <;> simp [step?, h, habove]

/-- A name leads to the entry that has it. -/
theorem step?_of_isName (hname : FileTree.IsName part) :
    p.step? part = (p.here.child? part).map fun t =>
      ⟨FileTree.joinPath p.path part, p.here :: p.above, t⟩ := by
  cases hfolder : p.isFolder with
  | false =>
    have hnone : p.here.child? part = none := by
      cases hhere : p.here with
      | file contents => rfl
      | folder entries => simp [isFolder, hhere, FileTree.isFolder] at hfolder
    rw [step?_of_file hfolder, hnone, Option.map_none]
  | true => simp [step?, hfolder, hname.ne_empty, hname.ne_dot, hname.ne_up]

theorem idle_or_up_or_isName (part : String) :
    (part = "" ∨ part = ".") ∨ part = ".." ∨ FileTree.IsName part := by
  by_cases hidle : part = "" ∨ part = "."
  · exact .inl hidle
  · by_cases hup : part = ".."
    · exact .inr (.inl hup)
    · exact .inr (.inr ⟨fun h => hidle (.inl h), fun h => hidle (.inr h), hup⟩)

theorem isFolder_of_step? (h : p.step? part = some q) : p.isFolder = true := by
  cases hfolder : p.isFolder with
  | false => simp [step?_of_file hfolder] at h
  | true => rfl

/-- The three kinds of steps. -/
theorem cases_of_step? (h : p.step? part = some q) :
    p.isFolder = true ∧
      (((part = "" ∨ part = ".") ∧ q = ⟨FileTree.joinPath p.path part, p.above, p.here⟩) ∨
        (part = ".." ∧
          q = ⟨FileTree.joinPath p.path part, p.above.tail, p.above.headD p.here⟩) ∨
        (FileTree.IsName part ∧ ∃ t, p.here.child? part = some t ∧
          q = ⟨FileTree.joinPath p.path part, p.here :: p.above, t⟩)) := by
  have hfolder := isFolder_of_step? h
  refine ⟨hfolder, ?_⟩
  rcases idle_or_up_or_isName part with hidle | rfl | hname
  · rw [step?_of_idle hfolder hidle] at h
    exact .inl ⟨hidle, (Option.some.inj h).symm⟩
  · rw [step?_up hfolder] at h
    exact .inr (.inl ⟨rfl, (Option.some.inj h).symm⟩)
  · rw [step?_of_isName hname] at h
    obtain ⟨t, hchild, hq⟩ := Option.map_eq_some_iff.mp h
    exact .inr (.inr ⟨hname, t, hchild, hq.symm⟩)

theorem path_of_step? (h : p.step? part = some q) : q.path = FileTree.joinPath p.path part := by
  obtain ⟨-, ⟨-, rfl⟩ | ⟨-, rfl⟩ | ⟨-, t, -, rfl⟩⟩ := cases_of_step? h <;> rfl

/-- A place in a well-formed tree. -/
structure WellFormed (p : Place) : Prop where
  here : p.here.WellFormed
  above : ∀ t ∈ p.above, t.WellFormed ∧ t.isFolder = true

/-- **Steps do not leave a well-formed tree.** -/
theorem WellFormed.step? (h : p.WellFormed) (hstep : p.step? part = some q) : q.WellFormed := by
  obtain ⟨hfolder, ⟨-, rfl⟩ | ⟨-, rfl⟩ | ⟨-, t, hchild, rfl⟩⟩ := cases_of_step? hstep
  · exact ⟨h.here, h.above⟩
  · cases habove : p.above with
    | nil => exact ⟨h.here, by simp⟩
    | cons up further =>
      have habove' := h.above
      rw [habove, List.forall_mem_cons] at habove'
      exact ⟨habove'.1.1, habove'.2⟩
  · exact ⟨h.here.child hchild, List.forall_mem_cons.mpr ⟨⟨h.here, hfolder⟩, h.above⟩⟩

theorem WellFormed.isFolder_up (h : p.WellFormed) (hfolder : p.isFolder = true) :
    (p.above.headD p.here).isFolder = true := by
  cases habove : p.above with
  | nil => exact hfolder
  | cons up further =>
    have hmem : up ∈ p.above := by simp [habove]
    exact (h.above up hmem).2

/-- A step is one part of a path. -/
theorem WellFormed.noSlash_of_step? (h : p.WellFormed) (hstep : p.step? part = some q) :
    '/' ∉ part.toList := by
  obtain ⟨-, ⟨rfl | rfl, -⟩ | ⟨rfl, -⟩ | ⟨-, t, hchild, -⟩⟩ := cases_of_step? hstep
  · decide
  · decide
  · decide
  · exact (h.here.named _ (h.here.child?_eq_some_iff.mp hchild)).noSlash

/-! ## Steps in a row -/

/-- The place that a row of steps leads to. -/
def walk? : List String → Place → Option Place
  | [], p => some p
  | part :: parts, p => (p.step? part).bind (walk? parts)

@[simp] theorem walk?_nil (p : Place) : walk? [] p = some p := rfl

theorem walk?_cons (part : String) (parts : List String) (p : Place) :
    walk? (part :: parts) p = (p.step? part).bind (walk? parts) := rfl

theorem walk?_singleton (part : String) (p : Place) : walk? [part] p = p.step? part := by
  rw [walk?_cons]
  cases p.step? part <;> rfl

theorem walk?_append (parts further : List String) (p : Place) :
    walk? (parts ++ further) p = (walk? parts p).bind (walk? further) := by
  induction parts generalizing p with
  | nil => rfl
  | cons part parts ih =>
    rw [List.cons_append, walk?_cons, walk?_cons, Option.bind_assoc]
    exact congrArg _ (funext fun q => ih q)

theorem path_of_walk? {parts : List String} (h : walk? parts p = some q) :
    q.path = parts.foldl FileTree.joinPath p.path := by
  induction parts generalizing p with
  | nil => rw [Option.some.inj h, List.foldl_nil]
  | cons part parts ih =>
    obtain ⟨next, hstep, hrest⟩ := Option.bind_eq_some_iff.mp h
    rw [ih hrest, path_of_step? hstep, List.foldl_cons]

/-- The place that a row of steps leads to, under the row. -/
def along? (p : Place) (steps : List String) : Option (List String × Place) :=
  (walk? steps p).map fun q => (steps, q)

theorem along?_eq_some_iff {steps : List String} {s : List String × Place} :
    p.along? steps = some s ↔ s.1 = steps ∧ walk? steps p = some s.2 := by
  obtain ⟨steps', q⟩ := s
  rw [along?, Option.map_eq_some_iff]
  constructor
  · rintro ⟨q', hwalk, heq⟩
    cases heq
    exact ⟨rfl, hwalk⟩
  · rintro ⟨rfl, hwalk⟩
    exact ⟨q, hwalk, rfl⟩

theorem map_snd_along? (p : Place) (rows : List (List String)) :
    (rows.filterMap p.along?).map Prod.snd = rows.filterMap fun steps => walk? steps p := by
  rw [List.map_filterMap]
  refine List.filterMap_congr fun steps _ => ?_
  rw [along?, Option.map_map]
  cases walk? steps p <;> rfl

theorem WellFormed.walk? {parts : List String} (h : p.WellFormed)
    (hwalk : Place.walk? parts p = some q) : q.WellFormed := by
  induction parts generalizing p with
  | nil => exact Option.some.inj hwalk ▸ h
  | cons part parts ih =>
    obtain ⟨next, hstep, hrest⟩ := Option.bind_eq_some_iff.mp hwalk
    exact ih (h.step? hstep) hrest

theorem WellFormed.noSlash_of_walk? {parts : List String} (h : p.WellFormed)
    (hwalk : Place.walk? parts p = some q) : ∀ s ∈ parts, '/' ∉ s.toList := by
  induction parts generalizing p with
  | nil => simp
  | cons part parts ih =>
    obtain ⟨next, hstep, hrest⟩ := Option.bind_eq_some_iff.mp hwalk
    exact List.forall_mem_cons.mpr ⟨h.noSlash_of_step? hstep, ih (h.step? hstep) hrest⟩

/-- The same thing in the same folders, by whatever path. -/
structure SameSpot (p q : Place) : Prop where
  above : p.above = q.above
  here : p.here = q.here

theorem SameSpot.symm (h : SameSpot p q) : SameSpot q p := ⟨h.above.symm, h.here.symm⟩

theorem SameSpot.trans {r : Place} (h : SameSpot p q) (h' : SameSpot q r) : SameSpot p r :=
  ⟨h.above.trans h'.above, h.here.trans h'.here⟩

theorem SameSpot.step? {p' : Place} (h : SameSpot p q) (hstep : p.step? part = some p') :
    ∃ q', q.step? part = some q' ∧ SameSpot p' q' := by
  have hfolder : q.isFolder = true := by rw [isFolder, ← h.here]; exact isFolder_of_step? hstep
  obtain ⟨-, ⟨hidle, rfl⟩ | ⟨rfl, rfl⟩ | ⟨hname, t, hchild, rfl⟩⟩ := cases_of_step? hstep
  · exact ⟨_, step?_of_idle hfolder hidle, h.above, h.here⟩
  · exact ⟨_, step?_up hfolder, by simp [h.above], by simp [h.above, h.here]⟩
  · refine ⟨⟨FileTree.joinPath q.path part, q.here :: q.above, t⟩, ?_, by simp [h.above, h.here], rfl⟩
    rw [step?_of_isName hname, ← h.here, hchild, Option.map_some]

/-- **Where steps lead to does not depend on the path** of where they start. -/
theorem SameSpot.walk? {p' : Place} {parts : List String} (h : SameSpot p q)
    (hwalk : Place.walk? parts p = some p') :
    ∃ q', Place.walk? parts q = some q' ∧ SameSpot p' q' := by
  induction parts generalizing p q with
  | nil => exact ⟨q, rfl, Option.some.inj hwalk ▸ h⟩
  | cons part parts ih =>
    obtain ⟨next, hstep, hrest⟩ := Option.bind_eq_some_iff.mp hwalk
    obtain ⟨next', hstep', hnext⟩ := h.step? hstep
    obtain ⟨q', hrest', hq'⟩ := ih hnext hrest
    exact ⟨q', Option.bind_eq_some_iff.mpr ⟨next', hstep', hrest'⟩, hq'⟩

/-- Idle steps lead nowhere. -/
theorem sameSpot_of_walk?_idle {parts : List String} (hidle : ∀ s ∈ parts, s = "" ∨ s = ".")
    (hwalk : Place.walk? parts p = some q) : SameSpot p q := by
  induction parts generalizing p with
  | nil => exact Option.some.inj hwalk ▸ ⟨rfl, rfl⟩
  | cons part parts ih =>
    obtain ⟨hpart, hparts⟩ := List.forall_mem_cons.mp hidle
    obtain ⟨next, hstep, hrest⟩ := Option.bind_eq_some_iff.mp hwalk
    rw [step?_of_idle (isFolder_of_step? hstep) hpart] at hstep
    obtain ⟨habove, hhere⟩ := ih hparts hrest
    cases hstep
    exact ⟨habove, hhere⟩

/-- From a folder there are idle steps, as many as one likes. -/
theorem exists_walk?_idle {parts : List String} (hfolder : p.isFolder = true)
    (hidle : ∀ s ∈ parts, s = "" ∨ s = ".") : ∃ q, Place.walk? parts p = some q ∧ SameSpot p q := by
  induction parts generalizing p with
  | nil => exact ⟨p, rfl, rfl, rfl⟩
  | cons part parts ih =>
    obtain ⟨hpart, hparts⟩ := List.forall_mem_cons.mp hidle
    have hstep := step?_of_idle hfolder hpart
    obtain ⟨q, hwalk, hspot⟩ := @ih ⟨FileTree.joinPath p.path part, p.above, p.here⟩ hfolder hparts
    exact ⟨q, Option.bind_eq_some_iff.mpr ⟨_, hstep, hwalk⟩, hspot.above, hspot.here⟩

/-- Steps that lead to a folder lead from a folder, and so do all others, unless there are none. -/
theorem isFolder_of_walk? {parts : List String} (hwalk : Place.walk? parts p = some q)
    (h : parts ≠ [] ∨ q.isFolder = true) : p.isFolder = true := by
  cases parts with
  | nil =>
    obtain rfl := Option.some.inj hwalk
    exact h.resolve_left (not_not_intro rfl)
  | cons part parts =>
    obtain ⟨next, hstep, -⟩ := Option.bind_eq_some_iff.mp hwalk
    exact isFolder_of_step? hstep

end Place

namespace FileTree

/-- **Following a path is walking** along its parts. -/
theorem follow_eq_ok_iff {above : List FileTree} {here t : FileTree} {parts : List String}
    (path : String) :
    follow above here parts = .ok t ↔
      ∃ q, Place.walk? parts ⟨path, above, here⟩ = some q ∧ q.here = t := by
  fun_induction follow above here parts generalizing path with
  | case1 above here => simp
  | case2 above contents part parts =>
    simp [Place.walk?_cons, Place.step?_of_file (p := ⟨path, above, file contents⟩) rfl]
  | case3 above entries part parts hidle ih =>
    have hidle' : part = "" ∨ part = "." := by simpa using hidle
    rw [Place.walk?_cons, Place.step?_of_idle rfl hidle', Option.bind_some]
    exact ih _
  | case4 entries part parts hidle hup ih =>
    obtain rfl : part = ".." := by simpa using hup
    rw [Place.walk?_cons, Place.step?_up rfl, Option.bind_some]
    exact ih _
  | case5 entries part parts hidle hup up further ih =>
    obtain rfl : part = ".." := by simpa using hup
    rw [Place.walk?_cons, Place.step?_up rfl, Option.bind_some]
    exact ih _
  | case6 above entries part parts hidle hup hnone =>
    have hname : IsName part := by
      refine ⟨?_, ?_, ?_⟩ <;> simp_all
    rw [Place.walk?_cons, Place.step?_of_isName hname]
    simp [hnone]
  | case7 above entries part parts hidle hup t hchild ih =>
    have hname : IsName part := by
      refine ⟨?_, ?_, ?_⟩ <;> simp_all
    rw [Place.walk?_cons, Place.step?_of_isName hname, hchild, Option.map_some, Option.bind_some]
    exact ih _

end FileTree
end LintLocator
