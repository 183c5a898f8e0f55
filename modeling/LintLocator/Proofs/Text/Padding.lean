import LintLocator.Proofs.Text.Splitting
import LintLocator.Text.Blank
import Mathlib.Data.List.Forall2
import Mathlib.Data.List.ModifyLast
import Mathlib.Data.List.TakeWhile

/-!
# Blanks around texts

Where a language trims its parts, a text may be padded with blanks without changing what it says.
`Padded p x` says that `p` is `x` with blanks around it.

* `padded_trim`, `trim_eq_of_padded`: trimming takes padding off, and nothing else.
* `splitOn_padded`: cutting at a separator without blanks leaves the padding to the outer pieces.
  So texts that are equal when trimmed have the same pieces when these are trimmed
  (`splitOn_trim_congr`).
* `splitOn_spaced`: texts that are joined by a separator *with spaces around it* and cut at the
  separator itself come back padded.
* `not_infix_spaced`: such a join makes no new occurrences of texts without a space.
-/

namespace LintLocator
namespace Text

variable {sep a b s x p : List Char}

/-- A text of blanks only. -/
def AllBlank (s : List Char) : Prop := ∀ c ∈ s, isBlank c = true

theorem allBlank_nil : AllBlank [] := by simp [AllBlank]

theorem allBlank_space : AllBlank [' '] := by
  intro c hc
  obtain rfl := List.mem_singleton.mp hc
  decide

theorem AllBlank.append (ha : AllBlank a) (hb : AllBlank b) : AllBlank (a ++ b) := by
  intro c hc
  rcases List.mem_append.mp hc with hc | hc
  · exact ha c hc
  · exact hb c hc

/-- Blanks are no part of a separator that holds none. -/
theorem AllBlank.notMem (ha : AllBlank a) (hsep : ∀ c ∈ sep, isBlank c = false) :
    ∀ c ∈ a, c ∉ sep := by
  intro c hc hmem
  have h := ha c hc
  rw [hsep c hmem] at h
  exact absurd h (by decide)

/-- A text with blanks around it. -/
def Padded (p x : List Char) : Prop := ∃ a b, AllBlank a ∧ AllBlank b ∧ p = a ++ x ++ b

/-! ## Trimming -/

theorem trimLeft_append (ha : AllBlank a) (s : List Char) : trimLeft (a ++ s) = trimLeft s :=
  List.dropWhile_append_of_pos ha

theorem trimRight_append (hb : AllBlank b) (s : List Char) : trimRight (s ++ b) = trimRight s := by
  have hrev : ∀ c ∈ b.reverse, isBlank c = true := fun c hc => hb c (List.mem_reverse.mp hc)
  rw [trimRight, List.reverse_append, List.dropWhile_append_of_pos hrev, trimRight]

/-- Trimming does not see blanks around a text. -/
theorem trim_append_append (ha : AllBlank a) (hb : AllBlank b) (s : List Char) :
    trim (a ++ s ++ b) = trim s := by
  rw [trim, List.append_assoc, trimLeft_append ha, trim]
  rw [trimLeft, List.dropWhile_append]
  split
  · -- `s` is blank, and then so is everything
    rename_i h
    have hb' : b.dropWhile isBlank = [] := by
      have h := trimLeft_append hb []
      rwa [List.append_nil] at h
    rw [trimLeft, List.isEmpty_iff.mp h, hb']
  · exact trimRight_append hb _

theorem trim_eq_of_padded (h : Padded p x) : trim p = trim x := by
  obtain ⟨a, b, ha, hb, rfl⟩ := h
  exact trim_append_append ha hb x

/-- A text is its trimmed form with blanks around it. -/
theorem padded_trim (s : List Char) : Padded s (trim s) := by
  refine ⟨s.takeWhile isBlank, ((trimLeft s).reverse.takeWhile isBlank).reverse, ?_, ?_, ?_⟩
  · exact fun c hc => List.mem_takeWhile_imp hc
  · exact fun c hc => List.mem_takeWhile_imp (List.mem_reverse.mp hc)
  · rw [trim, trimRight, List.append_assoc, ← List.reverse_append,
      List.takeWhile_append_dropWhile, List.reverse_reverse, trimLeft,
      List.takeWhile_append_dropWhile]

@[simp] theorem trim_trim (s : List Char) : trim (trim s) = trim s :=
  (trim_eq_of_padded (padded_trim s)).symm

theorem trim_infix (s : List Char) : trim s <:+: s := by
  obtain ⟨a, b, -, -, h⟩ := padded_trim s
  exact ⟨a, b, h.symm⟩

/-! ## Cutting padded texts -/

/-- Blanks behind a text go to its last piece. -/
theorem splitOn_append_right (hsep : sep ≠ []) (hblank : ∀ c ∈ sep, isBlank c = false)
    (hb : AllBlank b) : ∀ s, splitOn sep (s ++ b) = (splitOn sep s).modifyLast (· ++ b) := by
  refine splitOn_induction hsep
    (motive := fun s ps => splitOn sep (s ++ b) = ps.modifyLast (· ++ b))
    (fun s hs => ?_) (fun p r hfirst ih => ?_)
  · refine splitOn_of_not_infix fun h => hs ?_
    exact (infix_append_append_iff hsep (allBlank_nil.notMem hblank) (hb.notMem hblank)).mp h
  · rw [List.append_assoc, splitOn_append_append hsep hfirst, ih]
    exact (List.modifyLast_append_of_right_ne_nil _ [p] _ (splitOn_ne_nil sep r)).symm

/-- **Padding stays outside.**  Blanks around a text go to its first and its last piece. -/
theorem splitOn_padded (hsep : sep ≠ []) (hblank : ∀ c ∈ sep, isBlank c = false)
    (ha : AllBlank a) (hb : AllBlank b) (s : List Char) :
    splitOn sep (a ++ s ++ b) =
      ((splitOn sep s).modifyLast (· ++ b)).modifyHead (a ++ ·) := by
  rw [List.append_assoc, splitOn_append_left hsep (ha.notMem hblank),
    splitOn_append_right hsep hblank hb]

theorem map_trim_modifyHead (ha : AllBlank a) (ps : List (List Char)) :
    (ps.modifyHead (a ++ ·)).map trim = ps.map trim := by
  rcases ps with _ | ⟨p, ps⟩
  · rfl
  · have hp : trim (a ++ p) = trim p := trim_eq_of_padded ⟨a, [], ha, allBlank_nil, by simp⟩
    rw [List.modifyHead_cons, List.map_cons, List.map_cons, hp]

theorem map_trim_modifyLast (hb : AllBlank b) (ps : List (List Char)) :
    (ps.modifyLast (· ++ b)).map trim = ps.map trim := by
  rcases List.eq_nil_or_concat ps with rfl | ⟨ps, p, rfl⟩
  · rfl
  · have hp : trim (p ++ b) = trim p := trim_eq_of_padded ⟨[], b, allBlank_nil, hb, by simp⟩
    rw [List.concat_eq_append, List.modifyLast_concat, List.map_append, List.map_append,
      List.map_singleton, List.map_singleton, hp]

/-- The pieces of a padded text are those of the text, up to blanks around them. -/
theorem map_trim_splitOn_of_padded (hsep : sep ≠ []) (hblank : ∀ c ∈ sep, isBlank c = false)
    (h : Padded p x) : (splitOn sep p).map trim = (splitOn sep x).map trim := by
  obtain ⟨a, b, ha, hb, rfl⟩ := h
  rw [splitOn_padded hsep hblank ha hb, map_trim_modifyHead ha, map_trim_modifyLast hb]

/-- **Blanks around a text do not change what its pieces say.** -/
theorem splitOn_trim_congr (hsep : sep ≠ []) (hblank : ∀ c ∈ sep, isBlank c = false)
    {t : List Char} (h : trim s = trim t) :
    (splitOn sep s).map trim = (splitOn sep t).map trim := by
  rw [map_trim_splitOn_of_padded hsep hblank (padded_trim s), h,
    map_trim_splitOn_of_padded hsep hblank (padded_trim t)]

/-- A character twice is no blank separator if the character is not blank. -/
theorem notBlank_pair {d : Char} (h : isBlank d = false) : ∀ c ∈ [d, d], isBlank c = false := by
  intro c hc
  simp only [List.mem_cons, List.not_mem_nil, or_false, or_self] at hc
  rw [hc, h]

/-- **Texts joined with spaces come back padded.** -/
theorem splitOn_spaced (hsep : sep ≠ []) (hblank : ∀ c ∈ sep, isBlank c = false)
    (hb : AllBlank b) {xs : List (List Char)} (hxs : xs ≠ []) (hno : ∀ x ∈ xs, ¬ sep <:+: x)
    (ha : AllBlank a) :
    List.Forall₂ Padded
      (splitOn sep (a ++ List.intercalate (' ' :: sep ++ [' ']) xs ++ b)) xs := by
  induction xs generalizing a with
  | nil => exact absurd rfl hxs
  | cons x xs ih =>
    have hx : ¬ sep <:+: x := hno x List.mem_cons_self
    rcases xs with _ | ⟨y, ys⟩
    · rw [List.intercalate_singleton, splitOn_of_not_infix]
      · exact List.Forall₂.cons ⟨a, b, ha, hb, rfl⟩ List.Forall₂.nil
      · rwa [infix_append_append_iff hsep (ha.notMem hblank) (hb.notMem hblank)]
    · have htext : a ++ List.intercalate (' ' :: sep ++ [' ']) (x :: y :: ys) ++ b =
          (a ++ x ++ [' ']) ++ sep ++
            ([' '] ++ List.intercalate (' ' :: sep ++ [' ']) (y :: ys) ++ b) := by
        simp [List.append_assoc]
      have hfirst : ¬ sep <:+: (a ++ x ++ [' ']) ++ sep.dropLast := by
        have hspace : ' ' ∉ sep := allBlank_space.notMem hblank ' ' List.mem_cons_self
        rw [List.append_assoc, List.singleton_append, infix_append_cons_iff hsep hspace, not_or]
        refine ⟨fun h => hx ?_, not_infix_dropLast hsep⟩
        rw [← List.append_nil (a ++ x)] at h
        exact (infix_append_append_iff hsep (ha.notMem hblank) (allBlank_nil.notMem hblank)).mp h
      rw [htext, splitOn_append_append hsep hfirst]
      refine List.Forall₂.cons ⟨a, [' '], ha, allBlank_space, rfl⟩ ?_
      exact ih (List.cons_ne_nil _ _) (fun z hz => hno z (List.mem_cons_of_mem _ hz)) allBlank_space

/-- What has no space and occurs neither in the texts nor in the separator does not occur in the
texts joined by the separator with spaces around it. -/
theorem not_infix_spaced {t : List Char} (ht : t ≠ []) (hspace : ' ' ∉ t) (hsep : ¬ t <:+: sep)
    {xs : List (List Char)} (hno : ∀ x ∈ xs, ¬ t <:+: x) :
    ¬ t <:+: List.intercalate (' ' :: sep ++ [' ']) xs := by
  induction xs with
  | nil => simpa using ht
  | cons x xs ih =>
    have hx := hno x List.mem_cons_self
    rcases xs with _ | ⟨y, ys⟩
    · rwa [List.intercalate_singleton]
    · have hrest := ih fun z hz => hno z (List.mem_cons_of_mem _ hz)
      rw [List.intercalate_cons_cons, List.append_assoc, List.cons_append, List.cons_append,
        infix_append_cons_iff ht hspace, List.append_assoc, List.singleton_append,
        infix_append_cons_iff ht hspace, not_or, not_or]
      exact ⟨hx, hsep, hrest⟩

end Text
end LintLocator
