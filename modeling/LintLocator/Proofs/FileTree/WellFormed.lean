import LintLocator.Proofs.FileTree.Paths
import Mathlib.Data.List.Basic

/-!
# Trees as file systems have them

In a folder each name stands for one thing, and a name is a part of a path that leads somewhere.  The
entries are kept in the order of their names.  A tree that is put together entry by entry is always
of this kind, and so is everything that is left of it when something is taken away.

* `FileTree.WellFormed`: such trees;
* `WellFormed.child?_eq_some_iff`: an entry is what is found under its name;
* `WellFormed.put`, `WellFormed.remove`, `WellFormed.makeFolder`: trees are kept well-formed.
-/

namespace LintLocator
namespace FileTree

/-- A name for an entry of a folder. -/
structure IsEntryName (name : String) : Prop extends IsName name where
  noSlash : '/' ∉ name.toList

instance (name : String) : Decidable (IsEntryName name) :=
  decidable_of_iff (IsName name ∧ '/' ∉ name.toList)
    ⟨fun ⟨hname, hslash⟩ => ⟨hname, hslash⟩, fun h => ⟨h.toIsName, h.noSlash⟩⟩

/-- The entries of every folder have names, and these are ascending. -/
inductive WellFormed : FileTree → Prop where
  | file (contents : List UInt8) : WellFormed (.file contents)
  | folder {entries : List (String × FileTree)}
      (ascending : (entries.map Prod.fst).Pairwise (· < ·))
      (named : ∀ e ∈ entries, IsEntryName e.1) (inner : ∀ e ∈ entries, WellFormed e.2) :
      WellFormed (.folder entries)

namespace WellFormed

variable {t u : FileTree} {name : String}

theorem empty : FileTree.empty.WellFormed := .folder .nil (by simp) (by simp)

theorem ascending (h : t.WellFormed) : (t.entries.map Prod.fst).Pairwise (· < ·) := by
  cases h with
  | file => exact .nil
  | folder ascending => exact ascending

theorem named (h : t.WellFormed) : ∀ e ∈ t.entries, IsEntryName e.1 := by
  cases h with
  | file => simp [entries]
  | folder _ named => exact named

theorem inner (h : t.WellFormed) : ∀ e ∈ t.entries, e.2.WellFormed := by
  cases h with
  | file => simp [entries]
  | folder _ _ inner => exact inner

/-- **A name stands for one entry.** -/
theorem child?_eq_some_iff (h : t.WellFormed) : t.child? name = some u ↔ (name, u) ∈ t.entries := by
  have hascending := h.ascending
  rw [child?]
  generalize t.entries = entries at hascending
  induction entries with
  | nil => simp
  | cons e entries ih =>
    obtain ⟨first, v⟩ := e
    rw [List.map_cons, List.pairwise_cons] at hascending
    obtain ⟨hfirst, hrest⟩ := hascending
    by_cases hname : first = name
    · have hlater : (name, u) ∉ entries := by
        intro hmem
        have hlt := hfirst name (List.mem_map_of_mem hmem)
        exact String.lt_irrefl name (hname ▸ hlt)
      simp [hname, hlater, eq_comm]
    · rw [List.find?_cons_of_neg (by simpa using hname)]
      exact (ih hrest).trans (by simp [Ne.symm hname])

/-- There is at most one entry with a name. -/
theorem filter_entries (h : t.WellFormed) (name : String) :
    (t.entries.filter fun e => e.1 == name) =
      ((t.child? name).map fun u => (name, u)).toList := by
  have hascending := h.ascending
  rw [child?]
  generalize t.entries = entries at hascending
  induction entries with
  | nil => rfl
  | cons e entries ih =>
    rw [List.map_cons, List.pairwise_cons] at hascending
    obtain ⟨hfirst, hrest⟩ := hascending
    by_cases hname : e.1 = name
    · subst hname
      have hlater : ∀ e' ∈ entries, ¬ (e'.1 == e.1) = true := by
        intro e' he' heq
        have hlt := hfirst e'.1 (List.mem_map_of_mem he')
        exact String.lt_irrefl e.1 (by rwa [eq_of_beq heq] at hlt)
      rw [List.filter_cons_of_pos (by simp), List.find?_cons_of_pos (by simp),
        List.filter_eq_nil_iff.mpr hlater]
      rfl
    · rw [List.filter_cons_of_neg (by simpa using hname),
        List.find?_cons_of_neg (by simpa using hname)]
      exact ih hrest

theorem child (h : t.WellFormed) (hchild : t.child? name = some u) : u.WellFormed :=
  h.inner _ (h.child?_eq_some_iff.mp hchild)

/-! ## Putting trees together -/

/-- The names of entries, where one more has found its place among them. -/
theorem mem_insertEntry {es : List (String × FileTree)} {e : String × FileTree}
    (h : e ∈ insertEntry name t es) : e = (name, t) ∨ e ∈ es := by
  fun_induction insertEntry name t es with
  | case1 => exact .inl (List.mem_singleton.mp h)
  | case2 e' es hlt => exact List.mem_cons.mp h
  | case3 e' es hlt heq => exact (List.mem_cons.mp h).imp_right (List.mem_cons_of_mem _)
  | case4 e' es hlt heq ih =>
    rcases List.mem_cons.mp h with rfl | h
    · exact .inr List.mem_cons_self
    · exact (ih h).imp_right (List.mem_cons_of_mem _)

theorem pairwise_insertEntry {es : List (String × FileTree)}
    (h : (es.map Prod.fst).Pairwise (· < ·)) :
    ((insertEntry name t es).map Prod.fst).Pairwise (· < ·) := by
  fun_induction insertEntry name t es with
  | case1 => simp
  | case2 e es hlt =>
    refine List.pairwise_cons.mpr ⟨fun n hn => ?_, h⟩
    rcases List.mem_cons.mp hn with rfl | hn
    · exact hlt
    · exact String.lt_trans hlt ((List.pairwise_cons.mp h).1 n hn)
  | case3 e es hlt heq =>
    obtain rfl : name = e.1 := by simpa using heq
    exact h
  | case4 e es hlt heq ih =>
    obtain ⟨hfirst, hrest⟩ := List.pairwise_cons.mp h
    refine List.pairwise_cons.mpr ⟨fun n hn => ?_, ih hrest⟩
    obtain ⟨e', he', rfl⟩ := List.mem_map.mp hn
    rcases mem_insertEntry he' with rfl | he'
    · have hne : e.1 ≠ name := fun hname => heq (by simp [hname])
      exact Classical.byContradiction fun hge =>
        hne (String.le_antisymm (String.not_lt.mp hlt) (String.not_lt.mp hge))
    · exact hfirst _ (List.mem_map_of_mem he')

/-- An entry of a well-formed folder is replaced, or one more is added. -/
theorem folder_insertEntry (h : t.WellFormed) (hname : IsEntryName name) (hu : u.WellFormed) :
    (FileTree.folder (insertEntry name u t.entries)).WellFormed := by
  refine .folder (pairwise_insertEntry h.ascending) (fun e he => ?_) (fun e he => ?_)
  · rcases mem_insertEntry he with rfl | he
    · exact hname
    · exact h.named e he
  · rcases mem_insertEntry he with rfl | he
    · exact hu
    · exact h.inner e he

theorem getD_child? (h : t.WellFormed) (name : String) :
    ((t.child? name).getD FileTree.empty).WellFormed := by
  cases hchild : t.child? name with
  | none => exact empty
  | some u => exact h.child hchild

/-- **Whatever is put into a tree, it stays well-formed.** -/
theorem put {names : List String} (h : t.WellFormed) (hnames : ∀ n ∈ names, IsEntryName n)
    (hu : u.WellFormed) : (t.put names u).WellFormed := by
  induction names generalizing t with
  | nil => exact hu
  | cons name names ih =>
    obtain ⟨hname, hnames⟩ := List.forall_mem_cons.mp hnames
    exact h.folder_insertEntry hname (ih (h.getD_child? name) hnames)

theorem remove {names : List String} (h : t.WellFormed) (hnames : ∀ n ∈ names, IsEntryName n) :
    (t.remove names).WellFormed := by
  fun_induction FileTree.remove names t with
  | case1 => exact h
  | case2 name t =>
    have hsub : (t.entries.filter fun e => e.1 != name).Sublist t.entries := List.filter_sublist
    exact .folder (h.ascending.sublist (hsub.map Prod.fst)) (fun e he => h.named e (hsub.mem he))
      fun e he => h.inner e (hsub.mem he)
  | case3 name next names t u hchild ih =>
    obtain ⟨hname, hnames⟩ := List.forall_mem_cons.mp hnames
    exact h.folder_insertEntry hname (ih (h.child hchild) hnames)
  | case4 => exact h

theorem find? {names : List String} (h : t.WellFormed) (hfind : t.find? names = some u) :
    u.WellFormed := by
  induction names generalizing t with
  | nil => exact Option.some.inj hfind ▸ h
  | cons name names ih =>
    obtain ⟨v, hchild, hrest⟩ := Option.bind_eq_some_iff.mp hfind
    exact ih (h.child hchild) hrest

theorem makeFolder {names : List String} (h : t.WellFormed) (hnames : ∀ n ∈ names, IsEntryName n) :
    (t.makeFolder names).WellFormed := by
  refine h.put hnames ?_
  cases hfind : t.find? names with
  | none => exact empty
  | some u => exact h.find? hfind

end WellFormed
end FileTree
end LintLocator
