import LintLocator.Diagnostic

/-!
# What a template determines

A template is cut into pieces once and for all, and every diagnostic is put together from the same
pieces.  So a file name or a message that looks like a template changes nothing: what is filled into
a slot is never looked at again.  The pieces are not an artefact of how they are found.  There is
only one way to cut a template such that all diagnostics come out right, and in it slots stand just
where a percent sign stands before one of the four letters.

* `Diagnostic.flatMap_source_pieces`: nothing of a template is lost in its pieces;
* `Diagnostic.pieces_append_slot`: a percent sign before a letter is a slot wherever it stands;
* `Diagnostic.eq_of_fills`: pieces are known by how they are written and what becomes of them;
* `Diagnostic.format_by_pieces`: the one list of pieces that a template determines.
-/

namespace LintLocator
namespace Diagnostic

/-! ## Letters -/

theorem Slot.letter_of_ofLetter? {c : Char} {s : Slot} (h : ofLetter? c = some s) :
    s.letter = c := by
  rw [ofLetter?.eq_def] at h
  split at h <;> cases h <;> rfl

theorem Slot.letter_ne_percent (s : Slot) : s.letter ≠ '%' := by
  cases s <;> decide

/-- What begins a slot is a percent sign before its letter. -/
theorem slotAt?_eq_some_iff {c next : Char} {s : Slot} :
    slotAt? c next = some s ↔ c = '%' ∧ next = s.letter := by
  rw [slotAt?_eq, Option.ite_none_right_eq_some]
  refine and_congr_right fun _ => ⟨fun h => (Slot.letter_of_ofLetter? h).symm, ?_⟩
  rintro rfl
  exact Slot.ofLetter?_letter s

/-- Two percent signs do not begin a slot. -/
theorem slotAt?_percent (c : Char) : slotAt? c '%' = none := by
  rw [slotAt?_eq]
  split <;> rfl

/-! ## The pieces of a template -/

theorem pieces_slot (s : Slot) (r : List Char) :
    pieces ('%' :: s.letter :: r) = .slot s :: pieces r :=
  pieces_cons_of_slot (slotAt?_eq_some_iff.mpr ⟨rfl, rfl⟩) r

/-- Nothing of a template is lost in its pieces. -/
theorem flatMap_source_pieces (template : List Char) :
    (pieces template).flatMap Piece.source = template := by
  fun_induction pieces template with
  | case1 => rfl
  | case2 c => rfl
  | case3 c next r s hs ih =>
    obtain ⟨rfl, rfl⟩ := slotAt?_eq_some_iff.mp hs
    rw [List.flatMap_cons, ih]
    rfl
  | case4 c next r hs ih =>
    rw [List.flatMap_cons, ih]
    rfl

/-- A character that stands for itself is one of the template. -/
theorem mem_of_literal_mem {template : List Char} {c : Char}
    (h : .literal c ∈ pieces template) : c ∈ template := by
  rw [← flatMap_source_pieces template]
  exact List.mem_flatMap.mpr ⟨_, h, List.mem_singleton_self c⟩

/-- A percent sign before a letter is a slot, whatever stands before the two. -/
theorem pieces_append_slot (before : List Char) (s : Slot) (after : List Char) :
    pieces (before ++ '%' :: s.letter :: after) = pieces before ++ .slot s :: pieces after := by
  fun_induction pieces before with
  | case1 => exact pieces_slot s after
  | case2 c =>
    rw [List.singleton_append, pieces_cons_of_none (slotAt?_percent c), pieces_slot]
    rfl
  | case3 c next r t ht ih =>
    rw [List.cons_append, List.cons_append, pieces_cons_of_slot ht, ih, List.cons_append]
  | case4 c next r hnone ih =>
    rw [List.cons_append, List.cons_append, pieces_cons_of_none hnone, ← List.cons_append, ih,
      List.cons_append]

/-- Slots stand just where a percent sign stands before a letter. -/
theorem exists_slot_iff {template before after : List Char} {s : Slot} :
    (∃ ps qs, pieces template = ps ++ .slot s :: qs ∧ ps.flatMap Piece.source = before ∧
      qs.flatMap Piece.source = after) ↔ template = before ++ '%' :: s.letter :: after := by
  constructor
  · rintro ⟨ps, qs, hsplit, rfl, rfl⟩
    rw [← flatMap_source_pieces template, hsplit, List.flatMap_append, List.flatMap_cons]
    rfl
  · rintro rfl
    exact ⟨pieces before, pieces after, pieces_append_slot before s after,
      flatMap_source_pieces before, flatMap_source_pieces after⟩

/-! ## There are no other pieces -/

/-- A diagnostic whose parts cannot be taken for text of a template: none of them begins with a
percent sign, and each is longer than a slot as it is written. -/
def sample : Diagnostic := ⟨"file", ⟨100, 100⟩, "text"⟩

theorem exists_fill_sample (s : Slot) :
    ∃ c r, Piece.fill sample (.slot s) = c :: r ∧ c ≠ '%' := by
  cases s
  · exact ⟨'f', ['i', 'l', 'e'], rfl, by decide⟩
  · exact ⟨'1', ['0', '0'], rfl, by decide⟩
  · exact ⟨'1', ['0', '0'], rfl, by decide⟩
  · exact ⟨'t', ['e', 'x', 't'], rfl, by decide⟩

/-- A slot and a character are not written alike with the same outcome. -/
theorem fill_slot_ne {s : Slot} {c : Char} {u v w x : List Char}
    (hsource : Piece.source (.slot s) ++ u = Piece.source (.literal c) ++ v) :
    Piece.fill sample (.slot s) ++ w ≠ Piece.fill sample (.literal c) ++ x := by
  obtain ⟨b, r, hb, hne⟩ := exists_fill_sample s
  obtain ⟨rfl, -⟩ := List.cons.inj hsource
  rw [hb]
  intro h
  exact hne (List.cons.inj h).1

/-- Pieces are known by how they are written and what becomes of them. -/
theorem eq_of_fills {ps qs : List Piece}
    (hsource : ps.flatMap Piece.source = qs.flatMap Piece.source)
    (hfill : ps.flatMap (Piece.fill sample) = qs.flatMap (Piece.fill sample)) : ps = qs := by
  have hne : ∀ (p : Piece) (u : List Char), p.source ++ u ≠ [] := by
    intro p u
    cases p <;> simp [Piece.source]
  induction ps generalizing qs with
  | nil =>
    cases qs with
    | nil => rfl
    | cons q qs => exact absurd hsource.symm (hne q _)
  | cons p ps ih =>
    cases qs with
    | nil => exact absurd hsource (hne p _)
    | cons q qs =>
      rw [List.flatMap_cons, List.flatMap_cons] at hsource hfill
      -- the first pieces are the same, so the others are written alike and come to the same
      have hfirst : p = q := by
        cases p with
        | slot s =>
          cases q with
          | slot s' =>
            have hletter : s.letter = s'.letter := (List.cons.inj (List.cons.inj hsource).2).1
            have hsome := Slot.ofLetter?_letter s
            rw [hletter, Slot.ofLetter?_letter] at hsome
            rw [Option.some.inj hsome]
          | literal c => exact absurd hfill (fill_slot_ne hsource)
        | literal c =>
          cases q with
          | slot s => exact absurd hfill.symm (fill_slot_ne hsource.symm)
          | literal c' => rw [(List.cons.inj hsource).1]
      subst hfirst
      rw [ih (List.append_cancel_left hsource) (List.append_cancel_left hfill)]

/-- **A template determines its pieces.**  They are the template, cut up; every diagnostic is put
together from them, with what belongs into its slots; slots stand just where a percent sign stands
before a letter; and no other list of pieces would do. -/
theorem format_by_pieces (template : String) :
    ∃ ps : List Piece, ps.flatMap Piece.source = template.toList ∧
      (∀ d : Diagnostic, (d.format template).toList = ps.flatMap (Piece.fill d)) ∧
      (∀ (s : Slot) (before after : List Char),
        (∃ qs rs, ps = qs ++ .slot s :: rs ∧ qs.flatMap Piece.source = before ∧
          rs.flatMap Piece.source = after) ↔
        template.toList = before ++ '%' :: s.letter :: after) ∧
      ∀ qs : List Piece, qs.flatMap Piece.source = template.toList →
        (∀ d : Diagnostic, (d.format template).toList = qs.flatMap (Piece.fill d)) → qs = ps := by
  have hformat : ∀ d : Diagnostic,
      (d.format template).toList = (pieces template.toList).flatMap (Piece.fill d) :=
    fun _ => String.toList_ofList
  have hsource := flatMap_source_pieces template.toList
  refine ⟨pieces template.toList, hsource, hformat, fun _ _ _ => exists_slot_iff, ?_⟩
  intro qs hqs hfill
  exact eq_of_fills (hqs.trans hsource.symm) ((hfill sample).symm.trans (hformat sample))

end Diagnostic
end LintLocator
