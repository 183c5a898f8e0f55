import LintLocator.Proofs.Document.DashSearch
import LintLocator.Proofs.Document.OutlineOrder

/-!
# Where sequences are said to be

The position of a sequence is worked out when the sequence ends, from the mark of its start and the
position of its first item.  `Outline.Reported` says what comes out, depending on where the nodes
stand:

* a sequence that starts at its bracket or its first dash is reported there, since its first item
  stands behind;
* a sequence that starts behind its first dash is reported at the dash if its first item is reported
  where the sequence starts: then only blanks stand between the two, and the dash is found;
* if its first item is reported further behind, because of an anchor, a tag, a comment or the end of
  a line, the sequence is taken for one in brackets and reported where it starts.  This is not where
  it should be (`position_of_sequence_with_anchor`).

`pos_denote_of_reported` proves this for the nodes of an outline.  Aliases put copies of nodes into
the tree, which keep their positions (`exists_sequence_of_at?`).  `positions_of_sequences` puts this
together for all documents of a text.
-/

namespace LintLocator

namespace Tree

/-- Every sequence in a tree has a property. -/
def AllSequences (G : Tree → Prop) (t : Tree) : Prop :=
  ∀ p items pos, t.at? p = some (.sequence items pos) → G (.sequence items pos)

theorem allSequences_of_children {G : Tree → Prop} {t : Tree}
    (hown : ∀ items pos, t = .sequence items pos → G t)
    (hchildren : ∀ u ∈ t.children, u.AllSequences G) : t.AllSequences G := by
  intro p items pos hp
  cases p with
  | nil =>
    obtain rfl := Option.some.inj hp
    exact hown items pos rfl
  | cons i p =>
    obtain ⟨u, hu, hp⟩ := Option.bind_eq_some_iff.mp hp
    exact hchildren u (List.mem_of_getElem? hu) p items pos hp

end Tree

namespace Document

open Yaml (Mark)

namespace Outline

variable {lines : List (List Char)} {G : Tree → Prop}

/-! ## The sequences of a tree -/

/-- Every sequence in an anchored node has a property. -/
def AllNoted (G : Tree → Prop) (table : Anchors) : Prop := ∀ v ∈ table, v.2.AllSequences G

/-- The sequences that a node stands for have a property, and so have those in anchored nodes, if
the latter have it before the node. -/
def KeepsAll (lines : List (List Char)) (G : Tree → Prop) (o : Outline) : Prop :=
  ∀ table, AllNoted G table →
    (∀ q anchor start stop items, o.at? q = some (.sequence anchor start stop items) →
      G ((Outline.sequence anchor start stop items).denote lines (o.tableBefore lines q table)).1) →
    (o.denote lines table).1.AllSequences G ∧ AllNoted G (o.denote lines table).2

theorem allNoted_noting {anchor : Option Nat} {t : Tree} {table : Anchors} (ht : t.AllSequences G)
    (htable : AllNoted G table) : AllNoted G (noting anchor t table) := by
  cases anchor with
  | none => exact htable
  | some id => exact List.forall_mem_cons.mpr ⟨ht, htable⟩

/-- The children of a node are read one after the other. -/
theorem allSequences_denoteItems {os : List Outline} (h : ∀ c ∈ os, KeepsAll lines G c)
    (table : Anchors) (htable : AllNoted G table)
    (hG : ∀ as c bs, os = as ++ c :: bs → ∀ q anchor start stop items,
      c.at? q = some (.sequence anchor start stop items) →
      G ((Outline.sequence anchor start stop items).denote lines
        (c.tableBefore lines q (denoteItems lines as table).2)).1) :
    (∀ t ∈ (denoteItems lines os table).1, t.AllSequences G) ∧
      AllNoted G (denoteItems lines os table).2 := by
  induction os generalizing table with
  | nil => exact ⟨fun t ht => absurd ht List.not_mem_nil, htable⟩
  | cons c os ih =>
    obtain ⟨hc, hos⟩ := List.forall_mem_cons.mp h
    obtain ⟨htree, hnoted⟩ := hc table htable (hG [] c os rfl)
    obtain ⟨htrees, hnoted'⟩ := ih hos (c.denote lines table).2 hnoted
      fun as d bs hsplit => hG (c :: as) d bs (congrArg (c :: ·) hsplit)
    exact ⟨List.forall_mem_cons.mpr ⟨htree, htrees⟩, hnoted'⟩

/-- Every node keeps what holds of sequences: aliases only repeat what has been noted. -/
theorem keepsAll (lines : List (List Char)) (G : Tree → Prop) (o : Outline) :
    KeepsAll lines G o := by
  induction o using Outline.induction with
  | step o ih =>
    intro table htable hG
    have hinner := allSequences_denoteItems ih table htable fun as c bs hsplit q => by
      have hchild := hG (as.length :: q)
      rw [tableBefore_cons hsplit, at?_cons hsplit] at hchild
      exact hchild
    obtain ⟨htrees, hnoted⟩ := hinner
    have hall : (o.denote lines table).1.AllSequences G →
        (o.denote lines table).1.AllSequences G ∧ AllNoted G (o.denote lines table).2 := by
      intro htree
      rw [table_denote]
      exact ⟨htree, allNoted_noting htree hnoted⟩
    refine hall ?_
    cases o with
    | scalar =>
      exact Tree.allSequences_of_children (fun _ _ h => absurd h (by simp [denote]))
        fun u hu => absurd hu List.not_mem_nil
    | «alias» id mark =>
      rw [denote]
      cases hid : table.lookup id with
      | none =>
        exact Tree.allSequences_of_children (fun _ _ h => absurd h (by simp))
          fun u hu => absurd hu List.not_mem_nil
      | some u =>
        obtain ⟨before, after, rfl, -⟩ := List.lookup_eq_some_iff.mp hid
        exact htable (id, u) (by simp)
    | sequence anchor start stop items =>
      refine Tree.allSequences_of_children (fun _ _ _ => hG [] anchor start stop items rfl) ?_
      obtain ⟨pos, hpos⟩ := sequenceOf_eq lines (positionOf start)
        (denoteItems lines items table).1
      rw [denote, hpos]
      exact htrees
    | mapping anchor start stop entries =>
      obtain ⟨pos, hpos⟩ := mappingOf_eq (positionOf start) (denoteEntries lines entries table).1
      refine Tree.allSequences_of_children (fun _ _ h => absurd h (by simp [denote, hpos])) ?_
      rw [denote, hpos]
      rw [children, denoteItems_flatMap] at htrees
      exact htrees

/-- **The sequences of the tree are those of the outline**: each is what some sequence of the
outline stands for, or a copy of that. -/
theorem exists_sequence_of_at? (o : Outline) {p : List Nat} {items : List Tree} {pos : Position}
    (hp : (o.denote lines []).1.at? p = some (.sequence items pos)) :
    ∃ q anchor start stop os, o.at? q = some (.sequence anchor start stop os) ∧
      (o.denote lines []).1.at? q = (o.denote lines []).1.at? p := by
  let G : Tree → Prop := fun u => ∃ q anchor start stop os,
    o.at? q = some (.sequence anchor start stop os) ∧ (o.denote lines []).1.at? q = some u
  have hall : (o.denote lines []).1.AllSequences G :=
    (keepsAll lines G o [] (fun v hv => absurd hv List.not_mem_nil)
      fun q anchor start stop os hq => ⟨q, anchor, start, stop, os, hq, at?_denote hq []⟩).1
  obtain ⟨q, anchor, start, stop, os, hq, hu⟩ := hall p items pos hp
  exact ⟨q, anchor, start, stop, os, hq, hu.trans hp.symm⟩

/-! ## Where nodes are reported -/

/-- A node is reported at a position: a scalar where it stands, a sequence at its bracket or its
first dash, and a mapping at its brace or its first key.  `table` are the anchored nodes before it.

A sequence that starts behind its first dash may be reported where it starts, and then `own` is not
set for it.

Nothing is said where an anchored node is repeated, which has no position of its own, and nothing
about a sequence that starts behind its first dash where lines before it end at a carriage return
alone. -/
inductive Reported (text : List Char) (table : Anchors) : (own : Bool) → Outline → Position → Prop
    where
  | scalar (style : Yaml.Style) (s : String) (tagged : Bool) (anchor : Option Nat) (mark : Mark) :
      Reported text table true (.scalar style s tagged anchor mark) (positionOf mark)
  | alias {id : Nat} (mark : Mark) (unknown : table.lookup id = none) :
      Reported text table true (.alias id mark) (positionOf mark)
  | emptySequence (anchor : Option Nat) (start stop : Mark) :
      Reported text table true (.sequence anchor start stop []) (positionOf start)
  | sequence {own : Bool} {anchor : Option Nat} {start stop : Mark} {first : Outline}
      {others : List Outline} {p : Position}
      (indicator : start.IsAt text '[' ∨ start.IsAt text '-')
      (inside : ∀ o ∈ first :: others, o.Stands text false start)
      (head : Reported text table own first p) :
      Reported text table true (.sequence anchor start stop (first :: others)) (positionOf start)
  | inline {own : Bool} {anchor : Option Nat} {d start stop : Mark} {first : Outline}
      {others : List Outline} (dash : Mark.IsBeside text d start)
      (returns : Text.PairsReturns (text.take start.index))
      (head : Reported text table own first (positionOf start)) :
      Reported text table true (.sequence anchor start stop (first :: others)) (positionOf d)
  | late {own : Bool} {anchor : Option Nat} {start stop : Mark} {first : Outline}
      {others : List Outline} {p : Position} (head : Reported text table own first p)
      (further : (positionOf start).before p = true) :
      Reported text table false (.sequence anchor start stop (first :: others)) (positionOf start)
  | emptyMapping (anchor : Option Nat) (start stop : Mark) :
      Reported text table true (.mapping anchor start stop []) (positionOf start)
  | mapping {own : Bool} {anchor : Option Nat} {start stop : Mark} {key value : Outline}
      {entries : List (Outline × Outline)} {p : Position} (head : Reported text table own key p) :
      Reported text table own (.mapping anchor start stop ((key, value) :: entries))
        (if (positionOf start).before p then positionOf start else p)

theorem before_positionOf {m n : Mark} : (positionOf m).before (positionOf n) = true ↔ m < n := by
  rw [Mark.lt_iff, Position.before, positionOf, positionOf, Bool.or_eq_true, Bool.and_eq_true,
    decide_eq_true_iff, beq_iff_eq, decide_eq_true_iff]
  simp only [Nat.add_lt_add_iff_right]

theorem before_of_lt {m : WithBot Mark} {a n : Mark} (h : m < a) (hn : m = n) :
    (positionOf n).before (positionOf a) = true := by
  rw [hn] at h
  exact before_positionOf.mpr (WithBot.coe_lt_coe.mp h)

/-- A sequence that starts before its first item is reported where it starts, and else where a dash
is found. -/
theorem pos_denote_sequence (lines : List (List Char)) (anchor : Option Nat) (start stop : Mark)
    (first : Outline) (others : List Outline) (table : Anchors) :
    ((Outline.sequence anchor start stop (first :: others)).denote lines table).1.pos =
      if (positionOf start).before (first.denote lines table).1.pos then positionOf start
      else dashBefore lines (first.denote lines table).1.pos := rfl

theorem pos_denote_mapping (lines : List (List Char)) (anchor : Option Nat) (start stop : Mark)
    (key value : Outline) (entries : List (Outline × Outline)) (table : Anchors) :
    ((Outline.mapping anchor start stop ((key, value) :: entries)).denote lines table).1.pos =
      if (positionOf start).before (key.denote lines table).1.pos then positionOf start
      else (key.denote lines table).1.pos := rfl

/-- What is below a node that stands where it should stands where it should. -/
theorem exists_stands_of_mem {text : List Char} {o c : Outline} {inline : Bool} {m : WithBot Mark}
    (h : o.Stands text inline m) (hc : c ∈ o.children) : ∃ inline m, c.Stands text inline m := by
  cases h with
  | scalar => exact absurd hc List.not_mem_nil
  | «alias» => exact absurd hc List.not_mem_nil
  | sequence _ _ inside => exact ⟨_, _, inside c hc⟩
  | inline _ _ _ _ inside => exact ⟨_, _, inside c hc⟩
  | mapping _ inside => exact ⟨_, _, inside c hc⟩

theorem exists_stands_of_at? {text : List Char} {o n : Outline} {q : List Nat} {inline : Bool}
    {m : WithBot Mark} (h : o.Stands text inline m) (hq : o.at? q = some n) :
    ∃ inline m, n.Stands text inline m := by
  induction q generalizing o inline m with
  | nil =>
    obtain rfl := Option.some.inj hq
    exact ⟨inline, m, h⟩
  | cons i q ih =>
    obtain ⟨as, c, bs, hsplit, -, hc⟩ := exists_child_of_at? hq
    have hmem : c ∈ o.children := by simp [hsplit]
    obtain ⟨inline', m', hstands⟩ := exists_stands_of_mem h hmem
    exact ih hstands hc

/-- **Where nodes are reported.**  The position is behind whatever stands before the node.  This
second part carries the induction: it is why a sequence starts before its first item. -/
theorem pos_denote_of_reported {source text : List Char} (htext : text <+: source)
    {table : Anchors} {own : Bool} {o : Outline} {p : Position} (h : o.Reported text table own p)
    {inline : Bool} {m : WithBot Mark} (hstands : o.Stands text inline m) :
    (o.denote (Text.lines source) table).1.pos = p ∧
      ∀ n : Mark, m = n → (positionOf n).before p = true := by
  induction h generalizing inline m with
  | scalar style s tagged anchor mark =>
    cases hstands with
    | scalar behind => exact ⟨rfl, fun n => before_of_lt behind⟩
  | «alias» mark unknown =>
    cases hstands with
    | «alias» behind =>
      refine ⟨?_, fun n => before_of_lt behind⟩
      rw [denote, unknown]
      rfl
  | emptySequence anchor start stop =>
    refine ⟨rfl, ?_⟩
    cases hstands with
    | sequence behind => exact fun n => before_of_lt behind
    | inline behind => exact fun n => before_of_lt behind
  | sequence indicator inside head ih =>
    obtain ⟨hpos, hlt⟩ := ih (inside _ List.mem_cons_self)
    constructor
    · rw [pos_denote_sequence, hpos, hlt _ rfl, if_pos rfl]
    · cases hstands with
      | sequence behind => exact fun n => before_of_lt behind
      | inline behind => exact fun n => before_of_lt behind
  | @inline own anchor d start stop first others dash returns head ih =>
    have hstay : (positionOf start).before (positionOf start) ≠ true :=
      fun h => lt_irrefl start (before_positionOf.mp h)
    cases hstands with
    | sequence behind indicator inside =>
      obtain ⟨-, hlt⟩ := ih (inside first List.mem_cons_self)
      exact absurd (hlt start rfl) hstay
    | inline behind follows hdash nonempty inside =>
      obtain ⟨hpos, -⟩ := ih (inside first List.mem_cons_self)
      refine ⟨?_, fun n => before_of_lt (hdash d dash)⟩
      rw [pos_denote_sequence, hpos, if_neg hstay, dashBefore_of_isBeside htext returns dash]
  | late head further ih =>
    obtain ⟨inline', m', hfirst⟩ := exists_stands_of_mem hstands List.mem_cons_self
    obtain ⟨hpos, -⟩ := ih hfirst
    refine ⟨by rw [pos_denote_sequence, hpos, if_pos further], ?_⟩
    cases hstands with
    | sequence behind => exact fun n => before_of_lt behind
    | inline behind => exact fun n => before_of_lt behind
  | emptyMapping anchor start stop =>
    cases hstands with
    | mapping behind => exact ⟨rfl, fun n => before_of_lt behind⟩
  | mapping head ih =>
    cases hstands with
    | mapping behind inside =>
      obtain ⟨hpos, hlt⟩ := ih (inside _ (by simp))
      refine ⟨by rw [pos_denote_mapping, hpos], fun n hn => ?_⟩
      split
      · exact before_of_lt behind hn
      · exact hlt n hn

/-- A sequence that is reported at its own position is reported at a bracket or a dash. -/
theorem isAt_of_reported {text : List Char} {table : Anchors} {anchor : Option Nat}
    {start stop : Mark} {items : List Outline} {p : Position} {inline : Bool} {m : WithBot Mark}
    (h : (Outline.sequence anchor start stop items).Reported text table true p)
    (hstands : (Outline.sequence anchor start stop items).Stands text inline m) :
    ∃ d, p = positionOf d ∧ (d.IsAt text '[' ∨ d.IsAt text '-') := by
  cases h with
  | emptySequence =>
    cases hstands with
    | sequence behind indicator => exact ⟨start, rfl, indicator⟩
    | inline behind follows dash nonempty => exact absurd rfl nonempty
  | sequence indicator inside head => exact ⟨start, rfl, indicator⟩
  | @inline _ _ d _ _ _ _ dash returns head =>
    obtain ⟨before, gap, after, htext, -, hd, -⟩ := dash
    exact ⟨d, rfl, .inr ⟨before, gap ++ after, htext, hd⟩⟩

end Outline

/-! ## All texts -/

/-- A character stands at a position; lines are counted as the scanner counts them. -/
def HasCharAt (source : List Char) (p : Position) (c : Char) : Prop :=
  ∃ m, p = positionOf m ∧ Mark.IsAt source m c

theorem hasCharAt_of_isAt {source text : List Char} (htext : text <+: source) {m : Mark}
    {c : Char} (h : Mark.IsAt text m c) : HasCharAt source (positionOf m) c := by
  obtain ⟨before, after, rfl, hm⟩ := h
  obtain ⟨rest, rfl⟩ := htext
  exact ⟨m, rfl, before, after ++ rest, by simp, hm⟩

/-- **Where sequences are said to be.**  Every document of a text comes from an outline whose nodes
stand where they should.  Every sequence in the document is what a sequence of the outline stands
for, or a copy of it.  The sequences of the outline are said to be where they are reported, and this
is the position of a bracket or a dash if it is their own. -/
theorem positions_of_sequences {source : String} {t : Tree} (ht : .document t ∈ decodeAll source) :
    let text := source.toList.takeWhile fun c => c != '\x00'
    let lines := Text.lines source.toList
    ∃ (o : Outline) (start stop : Mark),
      ⟨.documentStart, start⟩ :: (o.events ++ [⟨.documentEnd, stop⟩]) <:+:
          (Yaml.EventStream.ofTokens (Yaml.TokenStream.ofText source.toList)).events ∧
        o.Stands text false ⊥ ∧ t = (o.denote lines []).1 ∧
        (∀ p items pos, t.at? p = some (.sequence items pos) →
          ∃ q anchor start stop os, o.at? q = some (.sequence anchor start stop os) ∧
            t.at? q = t.at? p) ∧
        ∀ q anchor start stop os own r, o.at? q = some (.sequence anchor start stop os) →
          (Outline.sequence anchor start stop os).Reported text (o.tableBefore lines q []) own r →
            ∃ items, t.at? q = some (.sequence items r) ∧
              (own = true → HasCharAt source.toList r '[' ∨ HasCharAt source.toList r '-') := by
  intro text lines
  have htext : text <+: source.toList := List.takeWhile_prefix _
  obtain ⟨o, start, stop, hevents, hstands, rfl⟩ := comesFrom_of_mem_decodeAll ht
  refine ⟨o, start, stop, hevents, hstands, rfl, fun p items pos => o.exists_sequence_of_at?, ?_⟩
  intro q anchor start stop os own r hq hreported
  obtain ⟨inline, m, hnode⟩ := Outline.exists_stands_of_at? hstands hq
  obtain ⟨hpos, -⟩ := Outline.pos_denote_of_reported htext hreported hnode
  obtain ⟨pos, hsequence⟩ := Outline.sequenceOf_eq lines (positionOf start)
    (Outline.denoteItems lines os (o.tableBefore lines q [])).1
  rw [Outline.denote, hsequence] at hpos
  obtain rfl : pos = r := hpos
  refine ⟨_, (Outline.at?_denote hq []).trans (congrArg some hsequence), ?_⟩
  rintro rfl
  obtain ⟨d, rfl, hat⟩ := Outline.isAt_of_reported hreported hnode
  exact hat.imp (hasCharAt_of_isAt htext) (hasCharAt_of_isAt htext)

/-- Two sequences, of which one is indented as little as its key and the other has a tag before its
only item, which is a sequence itself. -/
theorem positions_of_sequences_of_two_forms :
    ∃ t : Tree, .document t ∈ decodeAll "a:\n- x\nb:\n  - !t [z]\n" ∧
      (∃ items, t.at? [1] = some (.sequence items ⟨2, 1⟩)) ∧
      (∃ items, t.at? [3] = some (.sequence items ⟨4, 3⟩)) ∧
      ∃ items, t.at? [3, 0] = some (.sequence items ⟨4, 8⟩) := by
  let source : List Char :=
    ['a', ':', '\n', '-', ' ', 'x', '\n', 'b', ':', '\n', ' ', ' ', '-', ' ', '!', 't', ' ', '[',
      'z', ']', '\n']
  let z : Outline := .scalar .plain "z" false none ⟨18, 4, 8⟩
  let inner : Outline := .sequence none ⟨17, 4, 7⟩ ⟨19, 4, 9⟩ [z]
  let o : Outline := .mapping none ⟨1, 1, 1⟩ ⟨21, 5, 0⟩
    [(.scalar .plain "a" false none ⟨0, 1, 0⟩,
        .sequence none ⟨5, 2, 2⟩ ⟨7, 3, 0⟩ [.scalar .plain "x" false none ⟨5, 2, 2⟩]),
      (.scalar .plain "b" false none ⟨7, 3, 0⟩, .sequence none ⟨12, 4, 2⟩ ⟨21, 5, 0⟩ [inner])]
  have hevents : Yaml.EventStream.ofTokens (Yaml.TokenStream.ofText source) =
      ⟨⟨.documentStart, ⟨1, 1, 1⟩⟩ :: (o.events ++ [⟨.documentEnd, ⟨21, 5, 0⟩⟩]), false⟩ := by
    decide +kernel
  have hmem : .document (o.denote (Text.lines source) []).1 ∈ decodeAll (String.ofList source) := by
    rw [decodeAll_of_one hevents]
    exact List.mem_singleton_self _
  have hpositions := positions_of_sequences hmem
  rw [String.toList_ofList, hevents] at hpositions
  obtain ⟨u, _, _, hinfix, -, -, -, hreported⟩ := hpositions
  obtain rfl : u = o := eq_of_events_infix hinfix
  have hdash : Mark.IsBeside source ⟨3, 2, 0⟩ ⟨5, 2, 2⟩ :=
    ⟨['a', ':', '\n'], [' '], source.drop 5, rfl, List.forall_mem_singleton.mpr rfl,
      by decide +kernel, by decide +kernel⟩
  have hbracket : Mark.IsAt source ⟨17, 4, 7⟩ '[' :=
    ⟨source.take 17, source.drop 18, rfl, by decide +kernel⟩
  have houter : Mark.IsAt source ⟨12, 4, 2⟩ '-' :=
    ⟨source.take 12, source.drop 13, rfl, by decide +kernel⟩
  have hz : ∀ v ∈ [z], v.Stands source false (⟨17, 4, 7⟩ : Mark) :=
    List.forall_mem_singleton.mpr (.scalar (WithBot.coe_lt_coe.mpr (Mark.lt_iff.mpr (by decide))))
  have hinner : ∀ v ∈ [inner], v.Stands source false (⟨12, 4, 2⟩ : Mark) :=
    List.forall_mem_singleton.mpr (.sequence
      (WithBot.coe_lt_coe.mpr (Mark.lt_iff.mpr (by decide))) (.inl hbracket) hz)
  obtain ⟨_, hfirst, -⟩ := hreported [1] _ _ _ _ true _ rfl
    (.inline hdash (Text.pairsReturns_of_notMem (by decide)) (.scalar _ _ _ _ _))
  obtain ⟨_, hsecond, -⟩ := hreported [3] _ _ _ _ true _ rfl
    (.sequence (.inr houter) hinner (.sequence (.inl hbracket) hz (.scalar _ _ _ _ _)))
  obtain ⟨_, hthird, -⟩ := hreported [3, 0] _ _ _ _ true _ rfl
    (.sequence (.inl hbracket) hz (.scalar _ _ _ _ _))
  exact ⟨_, hmem, ⟨_, hfirst⟩, ⟨_, hsecond⟩, _, hthird⟩

theorem exists_take_of_isAt {text : List Char} {m : Mark} {c : Char} (h : Mark.IsAt text m c) :
    ∃ i, i < text.length ∧ text[i]? = some c ∧ m = Mark.behind (text.take i) := by
  obtain ⟨before, after, rfl, rfl⟩ := h
  refine ⟨before.length, by simp, ?_, by rw [List.take_left]⟩
  rw [List.getElem?_append_right (Nat.le_refl _), Nat.sub_self, List.getElem?_cons_zero]

/-- Not all sequences are said to be at a bracket or a dash: one that is indented as little as its
key is not if its first item has an anchor. -/
theorem position_of_sequence_with_anchor :
    ¬ ∀ (source : String) (t : Tree), .document t ∈ decodeAll source →
      ∀ p items pos, t.at? p = some (.sequence items pos) →
        HasCharAt source.toList pos '[' ∨ HasCharAt source.toList pos '-' := by
  intro hall
  let source : List Char := ['k', ':', '\n', '-', ' ', '&', 'a', ' ', 'x', '\n']
  let o : Outline := .mapping none ⟨1, 1, 1⟩ ⟨10, 3, 0⟩
    [(.scalar .plain "k" false none ⟨0, 1, 0⟩,
      .sequence none ⟨5, 2, 2⟩ ⟨10, 3, 0⟩ [.scalar .plain "x" false (some 1) ⟨8, 2, 5⟩])]
  have hevents : Yaml.EventStream.ofTokens (Yaml.TokenStream.ofText source) =
      ⟨⟨.documentStart, ⟨1, 1, 1⟩⟩ :: (o.events ++ [⟨.documentEnd, ⟨10, 3, 0⟩⟩]), false⟩ := by
    decide +kernel
  have hmem : .document (o.denote (Text.lines source) []).1 ∈ decodeAll (String.ofList source) := by
    rw [decodeAll_of_one hevents]
    exact List.mem_singleton_self _
  have hsequence : (o.denote (Text.lines source) []).1.at? [1] =
      some (.sequence [.scalar "x" ⟨2, 6⟩] ⟨2, 3⟩) := rfl
  have hposition := hall (String.ofList source) _ hmem [1] _ _ hsequence
  rw [String.toList_ofList] at hposition
  -- what stands there is the `&` of the anchor
  have hanchor : ∀ c, HasCharAt source ⟨2, 3⟩ c → c = '&' := by
    rintro c ⟨m, hm, hat⟩
    obtain ⟨i, hi, hc, rfl⟩ := exists_take_of_isAt hat
    have hplace : ∀ i < source.length,
        ⟨2, 3⟩ = positionOf (Mark.behind (source.take i)) → source[i]? = some '&' := by
      decide +kernel
    exact Option.some.inj (hc.symm.trans (hplace i hi hm))
  rcases hposition with hposition | hposition
  · exact absurd (hanchor _ hposition) (by decide)
  · exact absurd (hanchor _ hposition) (by decide)

end Document
end LintLocator
