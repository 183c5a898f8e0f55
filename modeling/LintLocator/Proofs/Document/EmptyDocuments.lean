import LintLocator.Proofs.Document.Delivery
import LintLocator.Proofs.Document.Settling

/-!
# Documents that are passed over as empty

A search passes over documents in which nothing is written, and stops at one that is neither empty
nor a mapping.  Whether a document is empty is told by the text of its root.  But trees keep the
texts of scalars without their quotes, so what is told in this way is not quite what was meant: a
root that is written `"null"` is a text of four letters, and is taken for nothing all the same.

Here the documents of a text are looked at as their events describe them, with the style of every
scalar.  `Outline.ReadsAsNull` tells the roots that are taken for nothing, whatever their style.

* `exists_runFrom_append`: a search goes on behind documents that it passes over;
* `le_of_runFrom`: it never goes back to a document;
* `notAMapping_iff_not_readsAsNull`: the first root that is no mapping ends the search unless it is
  taken for nothing, and then the search goes on as if nothing were written there;
* `locate_behind_quoted_null`: so it goes on behind a text in quotes.
-/

namespace LintLocator
namespace Document

open Yaml (EventStream Mark TokenStream)

/-! ## Going on behind a document -/

namespace Search

variable {s : Search} {number : Nat} {last : Option LookupError} {d : Decoded} {t : Tree}
  {ds later : List Decoded}

/-- The result does not settle the matter, whatever its number. -/
def PassesOver (s : Search) (d : Decoded) : Prop := ∀ number, s.settles? number d = none

theorem passesOver_of_isNull (h : t.isNull = true) : s.PassesOver (.document t) :=
  fun _ => settles?_of_isNull h

theorem passesOver_of_lookup {e : LookupError} (hkind : t.kind = .mapping)
    (h : s.path.lookup t = .error e) : s.PassesOver (.document t) := by
  intro number
  rw [settles?_of_mapping hkind, h]
  rfl

/-- **Behind documents that are passed over the search goes on.**  They only leave a number and a
failed look-up behind. -/
theorem exists_runFrom_append (h : ∀ d ∈ ds, s.PassesOver d) (number : Nat)
    (last : Option LookupError) :
    ∃ last', ∀ later, (s.runFrom number last (ds ++ later)).result =
      (s.runFrom (number + ds.length) last' later).result := by
  induction ds generalizing number last with
  | nil => exact ⟨last, fun later => rfl⟩
  | cons d ds ih =>
    obtain ⟨hd, hds⟩ := List.forall_mem_cons.mp h
    obtain ⟨last', hlater⟩ := ih hds (number + 1) ((s.failure? d).or last)
    refine ⟨last', fun later => ?_⟩
    rw [List.cons_append, runFrom_cons_of_passes (hd number), Outcome.result_after, hlater,
      List.length_cons]
    congr 2
    omega

/-- **A search does not go back.**  A document that is not a mapping is named only if its number
comes up. -/
theorem le_of_runFrom {file : String} {place : Nat} {found : Kind}
    (h : (s.runFrom number last ds).result = .error (.notAMapping file place found)) :
    number ≤ place := by
  induction ds generalizing number last with
  | nil =>
    cases last with
    | none => cases h
    | some e => cases h
  | cons d ds ih =>
    cases hd : s.settles? number d with
    | none =>
      rw [runFrom_cons_of_passes hd, Outcome.result_after] at h
      exact Nat.le_of_succ_le (ih h)
    | some answer =>
      rw [runFrom_cons_of_settles hd] at h
      obtain rfl : answer = _ := h
      obtain hmalformed | ⟨u, hfound⟩ | ⟨found', hnamed⟩ := cases_of_settles hd
      · cases hmalformed
      · cases hfound
      · cases hnamed
        exact Nat.le_refl _

/-- What comes behind other documents is found in the same way if the search treats it the same. -/
theorem runFrom_append_congr {later' : List Decoded}
    (h : ∀ number last, s.runFrom number last later = s.runFrom number last later')
    (ds : List Decoded) (number : Nat) (last : Option LookupError) :
    s.runFrom number last (ds ++ later) = s.runFrom number last (ds ++ later') := by
  induction ds generalizing number last with
  | nil => exact h number last
  | cons d ds ih =>
    rw [List.cons_append, List.cons_append]
    cases hd : s.settles? number d with
    | none => rw [runFrom_cons_of_passes hd, runFrom_cons_of_passes hd, ih]
    | some answer => rw [runFrom_cons_of_settles hd, runFrom_cons_of_settles hd]

/-- All empty documents are the same to a search. -/
theorem runFrom_cons_of_isNull {u : Tree} (ht : t.isNull = true) (hu : u.isNull = true) :
    s.runFrom number last (.document t :: later) =
      s.runFrom number last (.document u :: later) := by
  rw [runFrom, runFrom, if_pos ht, if_pos hu]

end Search

/-! ## Roots -/

namespace Outline

/-- Whether a root is taken for nothing: a scalar with one of three texts, in whatever style it is
written.  At a root there is nothing that an alias could repeat. -/
def ReadsAsNull : Outline → Prop
  | .scalar _ text _ _ _ => text = "~" ∨ text = "null" ∨ text = ""
  | .alias .. => True
  | .sequence .. => False
  | .mapping .. => False

/-- Whether a root says without quotes that there is nothing. -/
def IsPlainNull : Outline → Prop
  | .scalar style text _ _ _ => style = .plain ∧ (text = "~" ∨ text = "null" ∨ text = "")
  | .alias .. => True
  | .sequence .. => False
  | .mapping .. => False

def IsMapping : Outline → Prop
  | .mapping .. => True
  | _ => False

/-- A root that has been left out. -/
def leftOut (mark : Mark) : Outline := .scalar .plain "" false none mark

end Outline

namespace Enclosed

variable {lines : List (List Char)} {d : Enclosed} {path : Path}

theorem isNull_tree_iff : (d.tree lines).isNull = true ↔ d.root.ReadsAsNull := by
  obtain ⟨start, root, stop⟩ := d
  cases root with
  | scalar style text tagged anchor mark =>
    simp [tree, Outline.denote, Tree.isNull, Outline.ReadsAsNull, or_assoc]
  | «alias» id mark => exact ⟨fun _ => trivial, fun _ => rfl⟩
  | sequence anchor start stop items =>
    obtain ⟨pos, hpos⟩ := Outline.sequenceOf_eq lines (positionOf start)
      (Outline.denoteItems lines items []).1
    simp [tree, Outline.denote, hpos, Tree.isNull, Outline.ReadsAsNull]
  | mapping anchor start stop entries =>
    obtain ⟨pos, hpos⟩ := Outline.mappingOf_eq (positionOf start)
      (Outline.denoteEntries lines entries []).1
    simp [tree, Outline.denote, hpos, Tree.isNull, Outline.ReadsAsNull]

theorem kind_tree_iff : (d.tree lines).kind = .mapping ↔ d.root.IsMapping := by
  obtain ⟨start, root, stop⟩ := d
  cases root with
  | scalar style text tagged anchor mark =>
    simp [tree, Outline.denote, Tree.kind, Outline.IsMapping]
  | «alias» id mark => simp [tree, Outline.denote, Tree.kind, Outline.IsMapping]
  | sequence anchor start stop items =>
    obtain ⟨pos, hpos⟩ := Outline.sequenceOf_eq lines (positionOf start)
      (Outline.denoteItems lines items []).1
    simp [tree, Outline.denote, hpos, Tree.kind, Outline.IsMapping]
  | mapping anchor start stop entries =>
    obtain ⟨pos, hpos⟩ := Outline.mappingOf_eq (positionOf start)
      (Outline.denoteEntries lines entries []).1
    simp [tree, Outline.denote, hpos, Tree.kind, Outline.IsMapping]

/-- Whether a search for a path passes over a document: its root is taken for nothing, or it is a
mapping in which the path leads nowhere. -/
def IsPassedOver (lines : List (List Char)) (path : Path) (d : Enclosed) : Prop :=
  d.root.ReadsAsNull ∨ d.root.IsMapping ∧ ∃ e, path.lookup (d.tree lines) = .error e

theorem IsPassedOver.passesOver {s : Search} (h : d.IsPassedOver lines s.path) :
    s.PassesOver (.document (d.tree lines)) := by
  rcases h with hnull | ⟨hmapping, e, he⟩
  · exact Search.passesOver_of_isNull (isNull_tree_iff.mpr hnull)
  · exact Search.passesOver_of_lookup (kind_tree_iff.mpr hmapping) he

end Enclosed

/-! ## The first root that is no mapping -/

/-- The answers from a document on. -/
theorem answers_append_cons (lines : List (List Char)) (before after : List Enclosed)
    (d : Enclosed) (z : Ending) :
    answers lines (before ++ d :: after) z =
      before.map (fun b => .document (b.tree lines)) ++
        .document (d.tree lines) :: answers lines after z := by
  simp [answers]

section

variable {lines : List (List Char)} {s : Search} {before : List Enclosed} {d : Enclosed}

/-- Documents that are passed over leave a number and a failed look-up behind. -/
theorem exists_run_passedOver (h : ∀ b ∈ before, b.IsPassedOver lines s.path) :
    ∃ last, ∀ later, (s.run (before.map (fun b => .document (b.tree lines)) ++ later)).result =
      (s.runFrom before.length last later).result := by
  have hpassed : ∀ a ∈ before.map (fun b => Decoded.document (b.tree lines)), s.PassesOver a :=
    List.forall_mem_map.mpr fun b hb => (h b hb).passesOver
  obtain ⟨last, hgoes⟩ := Search.exists_runFrom_append hpassed 0 none
  rw [List.length_map, Nat.zero_add] at hgoes
  exact ⟨last, hgoes⟩

/-- A root that is neither taken for nothing nor a mapping is refused, whatever comes behind it. -/
theorem run_refuses (h : ∀ b ∈ before, b.IsPassedOver lines s.path) (hmapping : ¬ d.root.IsMapping)
    (hnull : ¬ d.root.ReadsAsNull) (later : List Decoded) :
    (s.run (before.map (fun b => .document (b.tree lines)) ++
      .document (d.tree lines) :: later)).result =
        .error (.notAMapping s.file before.length (d.tree lines).kind) := by
  obtain ⟨last, hgoes⟩ := exists_run_passedOver h
  have hnot : (d.tree lines).isNull = false := by
    rwa [← Bool.not_eq_true, Enclosed.isNull_tree_iff]
  have hkind : (d.tree lines).kind ≠ .mapping := fun hkind =>
    hmapping (Enclosed.kind_tree_iff.mp hkind)
  rw [hgoes, Search.runFrom_cons_of_settles (Search.settles?_of_not_mapping hnot hkind)]

/-- A root that is taken for nothing is not refused: behind it the numbers are too large. -/
theorem run_ne_refusal (h : ∀ b ∈ before, b.IsPassedOver lines s.path)
    (hnull : d.root.ReadsAsNull) (later : List Decoded) (found : Kind) :
    (s.run (before.map (fun b => .document (b.tree lines)) ++
      .document (d.tree lines) :: later)).result ≠
        .error (.notAMapping s.file before.length found) := by
  obtain ⟨last, hgoes⟩ := exists_run_passedOver h
  have hisNull : (d.tree lines).isNull = true := Enclosed.isNull_tree_iff.mpr hnull
  have hpasses : s.PassesOver (.document (d.tree lines)) := Search.passesOver_of_isNull hisNull
  intro hresult
  rw [hgoes, Search.runFrom_cons_of_passes (hpasses before.length),
    Outcome.result_after] at hresult
  exact Nat.not_succ_le_self before.length (Search.le_of_runFrom hresult)

end

/-- **Which documents end a search.**  Take the documents of any text as its events describe them,
and one whose root is no mapping, all those before it being passed over.  The search says that it is
not a mapping exactly if its root is not taken for nothing, and then it does so whatever comes
behind it.  A root that is taken for nothing, in quotes or not, is as good as one that has been left
out. -/
theorem notAMapping_iff_not_readsAsNull (source : String) :
    let lines := Text.lines source.toList
    (∃ ds z, EventStream.ofTokens (TokenStream.ofText source.toList) = eventsOf ds z) ∧
    ∀ ds z, EventStream.ofTokens (TokenStream.ofText source.toList) = eventsOf ds z →
      ∀ (s : Search) (before after : List Enclosed) (d : Enclosed), ds = before ++ d :: after →
        (∀ b ∈ before, b.IsPassedOver lines s.path) → ¬ d.root.IsMapping →
          let refusal := LocateError.notAMapping s.file before.length (d.tree lines).kind
          ((locate source s.path s.file s.expr).result = .error refusal ↔ ¬ d.root.ReadsAsNull) ∧
          (¬ d.root.ReadsAsNull → ∀ later,
            (s.run (answers lines (before ++ [d]) .complete ++ later)).result = .error refusal) ∧
          (d.root.ReadsAsNull → ∀ mark, locate source s.path s.file s.expr =
            s.run (answers lines (before ++ ⟨d.start, .leftOut mark, d.stop⟩ :: after) z)) := by
  intro lines
  refine ⟨exists_eventsOf_ofTokens source.toList, ?_⟩
  rintro _ z hevents s before after d rfl hbefore hmapping refusal
  have hlocate : locate source s.path s.file s.expr =
      s.run (answers lines (before ++ d :: after) z) := by
    rw [locate, decodeAll, Stream.ofText, hevents, Stream.toList_eq]
  rw [hlocate, answers_append_cons]
  refine ⟨⟨fun hresult hnull => ?_, fun hnull => ?_⟩, fun hnull later => ?_, fun hnull mark => ?_⟩
  · exact run_ne_refusal hbefore hnull _ _ hresult
  · exact run_refuses hbefore hmapping hnull _
  · rw [answers_append_cons, List.append_assoc, List.cons_append]
    exact run_refuses hbefore hmapping hnull _
  · rw [answers_append_cons]
    refine Search.runFrom_append_congr (fun number last => ?_) _ 0 none
    exact Search.runFrom_cons_of_isNull (Enclosed.isNull_tree_iff.mpr hnull) rfl

/-- Behind a document without content and a mapping without the key, a sequence is refused, although
the key is found further below. -/
theorem notAMapping_of_sequence_between :
    let source := "~\n---\na: 1\n---\n- x\n---\nb: 2\n"
    (decodeAll source).length = 4 ∧
      (locate source ⟨.absolute, [.property "b"]⟩ "f.yaml" "$.b").result =
        .error (.notAMapping "f.yaml" 2 .sequence) := by
  intro source
  let nothing : Enclosed := ⟨⟨0, 1, 0⟩, .scalar .plain "~" false none ⟨0, 1, 0⟩, ⟨2, 2, 0⟩⟩
  let mapping : Enclosed := ⟨⟨2, 2, 0⟩, .mapping none ⟨7, 3, 1⟩ ⟨11, 4, 0⟩
    [(.scalar .plain "a" false none ⟨6, 3, 0⟩, .scalar .plain "1" false none ⟨9, 3, 3⟩)],
    ⟨11, 4, 0⟩⟩
  let items : Enclosed := ⟨⟨11, 4, 0⟩, .sequence none ⟨15, 5, 0⟩ ⟨19, 6, 0⟩
    [.scalar .plain "x" false none ⟨17, 5, 2⟩], ⟨19, 6, 0⟩⟩
  let found : Enclosed := ⟨⟨19, 6, 0⟩, .mapping none ⟨24, 7, 1⟩ ⟨28, 8, 0⟩
    [(.scalar .plain "b" false none ⟨23, 7, 0⟩, .scalar .plain "2" false none ⟨26, 7, 3⟩)],
    ⟨28, 8, 0⟩⟩
  have hevents : EventStream.ofTokens (TokenStream.ofText source.toList) =
      eventsOf [nothing, mapping, items, found] .complete := by decide +kernel
  have hbefore : ∀ b ∈ [nothing, mapping], b.IsPassedOver (Text.lines source.toList)
      ⟨.absolute, [.property "b"]⟩ := by
    refine List.forall_mem_cons.mpr ⟨.inl (.inl rfl), List.forall_mem_singleton.mpr ?_⟩
    exact .inr ⟨trivial, _, rfl⟩
  have hsearch := (notAMapping_iff_not_readsAsNull source).2 _ _ hevents
    ⟨⟨.absolute, [.property "b"]⟩, "f.yaml", "$.b"⟩ [nothing, mapping] [found] items rfl hbefore id
  exact ⟨by decide +kernel, hsearch.1.mpr id⟩

/-- Not every document that is neither a mapping nor says without quotes that there is nothing ends
the search: a text in quotes does not. -/
theorem locate_behind_quoted_null :
    ¬ ∀ (source : String) (ds : List Enclosed) (z : Ending),
      EventStream.ofTokens (TokenStream.ofText source.toList) = eventsOf ds z →
      ∀ (s : Search) (before after : List Enclosed) (d : Enclosed), ds = before ++ d :: after →
        (∀ b ∈ before, b.root.IsPlainNull ∨
          b.root.IsMapping ∧ ∃ e, s.path.lookup (b.tree (Text.lines source.toList)) = .error e) →
        ¬ d.root.IsMapping → ¬ d.root.IsPlainNull →
          (locate source s.path s.file s.expr).result = .error
            (.notAMapping s.file before.length (d.tree (Text.lines source.toList)).kind) := by
  intro hall
  let quoted : Enclosed :=
    ⟨⟨0, 1, 0⟩, .scalar .doubleQuoted "null" false none ⟨0, 1, 0⟩, ⟨7, 2, 0⟩⟩
  let mapping : Enclosed := ⟨⟨7, 2, 0⟩, .mapping none ⟨12, 3, 1⟩ ⟨16, 4, 0⟩
    [(.scalar .plain "a" false none ⟨11, 3, 0⟩, .scalar .plain "1" false none ⟨14, 3, 3⟩)],
    ⟨16, 4, 0⟩⟩
  have hevents : EventStream.ofTokens (TokenStream.ofText "\"null\"\n---\na: 1\n".toList) =
      eventsOf [quoted, mapping] .complete := by decide +kernel
  have hrefused := hall _ _ _ hevents ⟨⟨.absolute, [.property "a"]⟩, "f.yaml", "$.a"⟩ [] [mapping]
    quoted rfl (fun b hb => absurd hb List.not_mem_nil) id fun h => Yaml.Style.noConfusion h.1
  have hfound : (locate "\"null\"\n---\na: 1\n" ⟨.absolute, [.property "a"]⟩ "f.yaml"
      "$.a").result.toOption = some ⟨3, 4⟩ := by decide +kernel
  rw [hrefused] at hfound
  cases hfound

end Document
end LintLocator
