import LintLocator.Proofs.Document.Building
import LintLocator.Proofs.Json.Readable
import LintLocator.Proofs.Yaml.Emission
import LintLocator.Proofs.Yaml.JsonTokens

/-!
# The events of a JSON text

`ReadsNode` says of tokens that the grammar turns them into the events of an outline, whatever
follows them and whatever is expected next.  This is kept where values become items and members, and
`exists_node` finds an outline for the tokens of every value.  What the outline stands for says the
same as the value.
-/

namespace LintLocator

namespace Tree

theorem datum_sequenceOf (lines : List (List Char)) (start : Position) (items : List Tree) :
    (Document.Builder.sequenceOf lines start items).datum = .sequence (dataOf items) := by
  obtain ⟨pos, hpos⟩ := Document.Outline.sequenceOf_eq lines start items
  rw [hpos, datum]

theorem datum_mappingOf (start : Position) (entries : List (Tree × Tree)) :
    (Document.Builder.mappingOf start entries).datum = .mapping (pairsOf entries) := by
  obtain ⟨pos, hpos⟩ := Document.Outline.mappingOf_eq start entries
  rw [hpos, datum]

end Tree

namespace Document

open Yaml (Token TokenKind Event Grammar Expecting)

/-- What a node starts with here: a scalar or a bracket. -/
def StartsNode : TokenKind → Prop
  | .scalar .. => True
  | .flowSequenceStart => True
  | .flowMappingStart => True
  | _ => False

theorem exists_kinds (t : Json.Term) : ∃ kind kinds, t.kinds = kind :: kinds ∧ StartsNode kind := by
  cases t with
  | literal => exact ⟨_, _, rfl, trivial⟩
  | string => exact ⟨_, _, rfl, trivial⟩
  | emptyArray => exact ⟨_, _, rfl, trivial⟩
  | array => exact ⟨_, _, rfl, trivial⟩
  | emptyObject => exact ⟨_, _, rfl, trivial⟩
  | object => exact ⟨_, _, rfl, trivial⟩

/-- The grammar reads a node: the tokens give rise to the events of the outline, wherever they
stand, and then comes what is expected behind the node. -/
def ReadsNode (ts : List Token) (o : Outline) : Prop :=
  ∀ (g : Grammar) (block inline : Bool) (rest : List Token) (after : List Expecting),
    g.tokens = ts ++ rest → ∃ e es h, o.events = e :: es ∧
      g.readNode block inline after = some (e, h) ∧ h.Emits es (g.goOn rest after)

theorem readNode_scalar {g : Grammar} {style : Yaml.Style} {text : List Char} {mark : Yaml.Mark}
    {rest : List Token} (htokens : g.tokens = ⟨.scalar style text, mark⟩ :: rest)
    (block inline : Bool) (after : List Expecting) :
    g.readNode block inline after =
      some (⟨.scalar style (String.ofList text) false none, mark⟩, g.goOn rest after) := by
  have hpeek : g.peek? = some ⟨.scalar style text, mark⟩ := by rw [Grammar.peek?, htokens]; rfl
  have hskip : g.skip.expect after = g.goOn rest after := by
    rw [Grammar.skip, htokens]
    rfl
  simp [Grammar.readNode, Grammar.readProperties, Grammar.readContent, hpeek, hskip]

theorem readsNode_scalar (style : Yaml.Style) (text : List Char) (mark : Yaml.Mark) :
    ReadsNode [⟨.scalar style text, mark⟩]
      (.scalar style (String.ofList text) false none mark) :=
  fun _ block inline _ after htokens =>
    ⟨_, [], _, rfl, readNode_scalar htokens block inline after, .refl _⟩

section

variable {g : Grammar} {ts rest : List Token} {after : List Expecting}

/-- A node behind the bracket or the comma of a sequence is one of its items. -/
theorem emits_item {o : Outline} (hnode : ReadsNode ts o) {kind : TokenKind}
    {kinds : List TokenKind} (hkinds : ts.map Token.kind = kind :: kinds) (hstart : StartsNode kind)
    {first : Bool} (hstack : g.stack = .flowEntry first :: after)
    (hcomma : g.skipComma first .flowSequenceEnd = some (g.goOn (ts ++ rest) g.stack)) :
    g.Emits o.events (g.goOn rest (.flowEntry false :: after)) := by
  obtain ⟨e, es, h, hevents, hread, hemits⟩ := hnode (g.goOn (ts ++ rest) g.stack) false false rest
    (.flowEntry false :: after) rfl
  obtain ⟨token, ts', rfl, rfl, -⟩ := List.map_eq_cons_iff.mp hkinds
  have hpeek : (g.goOn (token :: ts' ++ rest) g.stack).peek? = some token := rfl
  have hstep : g.step = .event e h := by
    have hentry : g.readFlowEntry first after = some (e, h) := by
      rw [← hread]
      obtain ⟨kind, mark⟩ := token
      simp only [Grammar.readFlowEntry, hcomma, hpeek, Option.bind_eq_bind, Option.bind_some]
      cases kind <;> first | rfl | exact hstart.elim
    rw [Grammar.step_of_flowEntry hstack, hentry]
    rfl
  rw [hevents]
  exact .step hstep hemits

/-- The bracket that closes a sequence needs no comma before it. -/
theorem step_sequenceEnd {first : Bool} {mark : Yaml.Mark}
    (hstack : g.stack = .flowEntry first :: after)
    (htokens : g.tokens = ⟨.flowSequenceEnd, mark⟩ :: rest) :
    g.step = .event ⟨.sequenceEnd, mark⟩ (g.goOn rest after) := by
  have hpeek : g.peek? = some ⟨.flowSequenceEnd, mark⟩ := by rw [Grammar.peek?, htokens]; rfl
  have hskip : g.skip.expect after = g.goOn rest after := by
    rw [Grammar.skip, htokens]
    rfl
  rw [Grammar.step_of_flowEntry hstack]
  simp [Grammar.readFlowEntry, Grammar.skipComma, hpeek, hskip, Grammar.Step.ofEvent?]

theorem step_mappingEnd {first : Bool} {mark : Yaml.Mark}
    (hstack : g.stack = .flowKey first :: after)
    (htokens : g.tokens = ⟨.flowMappingEnd, mark⟩ :: rest) :
    g.step = .event ⟨.mappingEnd, mark⟩ (g.goOn rest after) := by
  have hpeek : g.peek? = some ⟨.flowMappingEnd, mark⟩ := by rw [Grammar.peek?, htokens]; rfl
  have hskip : g.skip.expect after = g.goOn rest after := by
    rw [Grammar.skip, htokens]
    rfl
  rw [Grammar.step_of_flowKey hstack]
  simp [Grammar.readFlowKey, Grammar.skipComma, hpeek, hskip, Grammar.Step.ofEvent?]

/-- A comma is passed before an entry. -/
theorem skipComma_of_flowEntry {closing : TokenKind} (hclosing : closing ≠ .flowEntry)
    {mark : Yaml.Mark} (htokens : g.tokens = ⟨.flowEntry, mark⟩ :: ts) :
    g.skipComma false closing = some (g.goOn ts g.stack) := by
  have hpeek : g.peek? = some ⟨.flowEntry, mark⟩ := by rw [Grammar.peek?, htokens]; rfl
  have hskip : g.skip = g.goOn ts g.stack := by
    rw [Grammar.skip, htokens]
    rfl
  simp [Grammar.skipComma, hpeek, hskip, hclosing.symm]

/-- A key and the node behind its `:` are an entry of a mapping. -/
theorem emits_entry {text : List Char} {o : Outline} (hnode : ReadsNode ts o) {kind : TokenKind}
    {kinds : List TokenKind} (hkinds : ts.map Token.kind = kind :: kinds) (hstart : StartsNode kind)
    {first : Bool} (hstack : g.stack = .flowKey first :: after) {m₁ m₂ m₃ : Yaml.Mark}
    (hcomma : g.skipComma first .flowMappingEnd = some (g.goOn (⟨.key, m₁⟩ ::
      ⟨.scalar .doubleQuoted text, m₂⟩ :: ⟨.value, m₃⟩ :: (ts ++ rest)) g.stack)) :
    g.Emits (⟨.scalar .doubleQuoted (String.ofList text) false none, m₂⟩ :: o.events)
      (g.goOn rest (.flowKey false :: after)) := by
  let behind := g.goOn (⟨.value, m₃⟩ :: (ts ++ rest)) (.flowValue :: .flowKey false :: after)
  have hkey :
      g.step = .event ⟨.scalar .doubleQuoted (String.ofList text) false none, m₂⟩ behind := by
    have hread := readNode_scalar (g := (g.goOn (⟨.key, m₁⟩ :: ⟨.scalar .doubleQuoted text, m₂⟩ ::
      ⟨.value, m₃⟩ :: (ts ++ rest)) g.stack).skip) rfl false false
        (.flowValue :: .flowKey false :: after)
    have hentry : g.readFlowKey first after =
        some (⟨.scalar .doubleQuoted (String.ofList text) false none, m₂⟩, behind) := by
      rw [Grammar.readFlowKey, hcomma]
      exact hread
    rw [Grammar.step_of_flowKey hstack, hentry]
    rfl
  obtain ⟨e, es, h, hevents, hread, hemits⟩ := hnode behind.skip false false rest
    (.flowKey false :: after) rfl
  obtain ⟨token, ts', rfl, rfl, -⟩ := List.map_eq_cons_iff.mp hkinds
  have hvalue : behind.step = .event e h := by
    have hentry : behind.readFlowValue (.flowKey false :: after) = some (e, h) := by
      rw [← hread]
      obtain ⟨kind, mark⟩ := token
      cases kind <;> first | rfl | exact hstart.elim
    rw [Grammar.step_of_flowValue rfl, hentry]
    rfl
  rw [hevents]
  exact .step hkey (.step hvalue hemits)

theorem emits_nil {expecting : Expecting} (htokens : g.tokens = [] ++ ts)
    (hstack : g.stack = expecting :: after) : g.Emits [] (g.goOn ts (expecting :: after)) := by
  have hstay : g.goOn ts (expecting :: after) = g := by
    rw [← hstack, ← List.nil_append ts, ← htokens]
    rfl
  rw [hstay]
  exact .refl g

/-- Nothing has to be passed before the first entry. -/
theorem skipComma_first {closing : TokenKind} (hne : g.tokens ≠ []) :
    g.skipComma true closing = some g := by
  obtain ⟨token, tokens, htokens⟩ := List.exists_cons_of_ne_nil hne
  have hpeek : g.peek? = some token := by rw [Grammar.peek?, htokens]; rfl
  simp [Grammar.skipComma, hpeek]

end

/-- A sequence is read if its items are. -/
theorem readsNode_sequence {ts : List Token} (os : List Outline) (last : Bool) (m₁ m₂ : Yaml.Mark)
    (hitems : ∀ (g : Grammar) (rest : List Token) (after : List Expecting),
      g.tokens = ts ++ ⟨.flowSequenceEnd, m₂⟩ :: rest → g.stack = .flowEntry true :: after →
        g.Emits (Outline.itemEvents os)
          (g.goOn (⟨.flowSequenceEnd, m₂⟩ :: rest) (.flowEntry last :: after))) :
    ReadsNode (⟨.flowSequenceStart, m₁⟩ :: (ts ++ [⟨.flowSequenceEnd, m₂⟩]))
      (.sequence none m₁ m₂ os) := by
  intro g block inline rest after htokens
  let inside := g.goOn (ts ++ ⟨.flowSequenceEnd, m₂⟩ :: rest) (.flowEntry true :: after)
  have hread : g.readNode block inline after = some (⟨.sequenceStart none, m₁⟩, inside) := by
    have hpeek : g.peek? = some ⟨.flowSequenceStart, m₁⟩ := by rw [Grammar.peek?, htokens]; rfl
    have hskip : g.skip.expect (.flowEntry true :: after) = inside := by
      simp [Grammar.skip, Grammar.expect, htokens, inside, Grammar.goOn]
    simp [Grammar.readNode, Grammar.readProperties, Grammar.readContent, hpeek, hskip]
  have hemits := hitems inside rest after rfl rfl
  refine ⟨_, _, inside, rfl, hread, hemits.trans (.step (step_sequenceEnd rfl rfl) (.refl _))⟩

theorem readsNode_mapping {ts : List Token} (es : List (Outline × Outline)) (last : Bool)
    (m₁ m₂ : Yaml.Mark)
    (hentries : ∀ (g : Grammar) (rest : List Token) (after : List Expecting),
      g.tokens = ts ++ ⟨.flowMappingEnd, m₂⟩ :: rest → g.stack = .flowKey true :: after →
        g.Emits (Outline.entryEvents es)
          (g.goOn (⟨.flowMappingEnd, m₂⟩ :: rest) (.flowKey last :: after))) :
    ReadsNode (⟨.flowMappingStart, m₁⟩ :: (ts ++ [⟨.flowMappingEnd, m₂⟩]))
      (.mapping none m₁ m₂ es) := by
  intro g block inline rest after htokens
  let inside := g.goOn (ts ++ ⟨.flowMappingEnd, m₂⟩ :: rest) (.flowKey true :: after)
  have hread : g.readNode block inline after = some (⟨.mappingStart none, m₁⟩, inside) := by
    have hpeek : g.peek? = some ⟨.flowMappingStart, m₁⟩ := by rw [Grammar.peek?, htokens]; rfl
    have hskip : g.skip.expect (.flowKey true :: after) = inside := by
      simp [Grammar.skip, Grammar.expect, htokens, inside, Grammar.goOn]
    simp [Grammar.readNode, Grammar.readProperties, Grammar.readContent, hpeek, hskip]
  have hemits := hentries inside rest after rfl rfl
  refine ⟨_, _, inside, rfl, hread, hemits.trans (.step (step_mappingEnd rfl rfl) (.refl _))⟩

/-- The grammar reads items: behind the bracket or a comma. -/
def ReadsItems (ts : List Token) (os : List Outline) : Prop :=
  ∀ (g : Grammar) (first : Bool) (rest : List Token) (after : List Expecting),
    g.stack = .flowEntry first :: after →
      g.skipComma first .flowSequenceEnd = some (g.goOn (ts ++ rest) g.stack) →
        g.Emits (Outline.itemEvents os) (g.goOn rest (.flowEntry false :: after))

/-- The grammar reads entries of a mapping: behind the brace or a comma. -/
def ReadsEntries (ts : List Token) (es : List (Outline × Outline)) : Prop :=
  ∀ (g : Grammar) (first : Bool) (rest : List Token) (after : List Expecting),
    g.stack = .flowKey first :: after →
      g.skipComma first .flowMappingEnd = some (g.goOn (ts ++ rest) g.stack) →
        g.Emits (Outline.entryEvents es) (g.goOn rest (.flowKey false :: after))

theorem exists_token {ts : List Token} {kind : TokenKind} {kinds : List TokenKind}
    (h : ts.map Token.kind = kind :: kinds) :
    ∃ mark later, ts = ⟨kind, mark⟩ :: later ∧ later.map Token.kind = kinds := by
  obtain ⟨⟨_, mark⟩, later, rfl, rfl, hlater⟩ := List.map_eq_cons_iff.mp h
  exact ⟨mark, later, rfl, hlater⟩

theorem exists_enclosed {ts : List Token} {opening closing : TokenKind} (kinds : List TokenKind)
    (h : ts.map Token.kind = opening :: (kinds ++ [closing])) :
    ∃ m₁ m₂ inner, ts = ⟨opening, m₁⟩ :: (inner ++ [⟨closing, m₂⟩]) ∧
      inner.map Token.kind = kinds := by
  obtain ⟨m₁, later, rfl, hlater⟩ := exists_token h
  obtain ⟨inner, last, rfl, hinner, hlast⟩ := List.map_eq_append_iff.mp hlater
  obtain ⟨m₂, others, rfl, hothers⟩ := exists_token hlast
  obtain rfl := List.map_eq_nil_iff.mp hothers
  exact ⟨m₁, m₂, inner, rfl, hinner⟩

/-- The node of a name. -/
def nameNode (name : Json.Name) (mark : Yaml.Mark) : Outline :=
  .scalar .doubleQuoted (String.ofList (Json.plainText name.pieces)) false none mark

mutual

/-- **The tokens of a value are those of a node that says the same.** -/
theorem exists_node (t : Json.Term) {ts : List Token} (hts : ts.map Token.kind = t.kinds) :
    ∃ o : Outline, ReadsNode ts o ∧ o.events.length ≤ ts.length ∧
      ∀ lines table, (o.denote lines table).1.datum = t.plainDatum := by
  cases t with
  | literal text htext =>
    obtain ⟨mark, later, rfl, hlater⟩ := exists_token hts
    obtain rfl := List.map_eq_nil_iff.mp hlater
    exact ⟨_, readsNode_scalar .plain text mark, Nat.le_refl 1, fun _ _ => rfl⟩
  | string ps =>
    obtain ⟨mark, later, rfl, hlater⟩ := exists_token hts
    obtain rfl := List.map_eq_nil_iff.mp hlater
    exact ⟨_, readsNode_scalar .doubleQuoted _ mark, Nat.le_refl 1, fun _ _ => rfl⟩
  | emptyArray gap =>
    obtain ⟨m₁, m₂, inner, rfl, hinner⟩ := exists_enclosed [] hts
    obtain rfl := List.map_eq_nil_iff.mp hinner
    exact ⟨_, readsNode_sequence [] true m₁ m₂ fun g rest after htokens hstack =>
      emits_nil htokens hstack, Nat.le_refl 2, fun _ _ => rfl⟩
  | array items =>
    obtain ⟨m₁, m₂, inner, rfl, hinner⟩ := exists_enclosed _ hts
    obtain ⟨os, hread, hlength, hdata⟩ := exists_items items hinner
    refine ⟨_, readsNode_sequence os false m₁ m₂
      fun g rest after htokens hstack => hread g true _ after hstack ?_, ?_, fun lines table => ?_⟩
    · rw [skipComma_first (by simp [htokens]), ← htokens]
      rfl
    · simp only [Outline.events, List.length_cons, List.length_append, List.length_nil]
      omega
    · rw [Outline.denote, Tree.datum_sequenceOf, hdata]
      rfl
  | emptyObject gap =>
    obtain ⟨m₁, m₂, inner, rfl, hinner⟩ := exists_enclosed [] hts
    obtain rfl := List.map_eq_nil_iff.mp hinner
    exact ⟨_, readsNode_mapping [] true m₁ m₂ fun g rest after htokens hstack =>
      emits_nil htokens hstack, Nat.le_refl 2, fun _ _ => rfl⟩
  | object members =>
    obtain ⟨m₁, m₂, inner, rfl, hinner⟩ := exists_enclosed _ hts
    obtain ⟨es, hread, hlength, hpairs⟩ := exists_entries members hinner
    refine ⟨_, readsNode_mapping es false m₁ m₂
      fun g rest after htokens hstack => hread g true _ after hstack ?_, ?_, fun lines table => ?_⟩
    · rw [skipComma_first (by simp [htokens]), ← htokens]
      rfl
    · simp only [Outline.events, List.length_cons, List.length_append, List.length_nil]
      omega
    · rw [Outline.denote, Tree.datum_mappingOf, hpairs]
      rfl

theorem exists_items (items : Json.Items) {ts : List Token}
    (hts : ts.map Token.kind = items.kinds) :
    ∃ os : List Outline, ReadsItems ts os ∧ (Outline.itemEvents os).length ≤ ts.length ∧
      ∀ lines table, Tree.dataOf (Outline.denoteItems lines os table).1 = items.plainData := by
  cases items with
  | last before item after =>
    obtain ⟨o, hread, hlength, hdatum⟩ := exists_node item hts
    obtain ⟨kind, kinds, hkinds, hstart⟩ := exists_kinds item
    refine ⟨[o], fun g first rest after hstack hcomma => ?_, ?_, fun lines table => ?_⟩
    · rw [Outline.itemEvents_singleton]
      exact emits_item hread (hts.trans hkinds) hstart hstack hcomma
    · rw [Outline.itemEvents_singleton]
      exact hlength
    · simp only [Outline.denoteItems, Tree.dataOf, hdatum]
      rfl
  | more before item after others =>
    obtain ⟨ts₁, later, rfl, hts₁, hlater⟩ := List.map_eq_append_iff.mp hts
    obtain ⟨mark, ts₂, rfl, hts₂⟩ := exists_token hlater
    obtain ⟨o, hread, hlength, hdatum⟩ := exists_node item hts₁
    obtain ⟨os, hread', hlength', hdata⟩ := exists_items others hts₂
    obtain ⟨kind, kinds, hkinds, hstart⟩ := exists_kinds item
    refine ⟨o :: os, fun g first rest after hstack hcomma => ?_, ?_, fun lines table => ?_⟩
    · rw [List.append_assoc] at hcomma
      exact (emits_item hread (hts₁.trans hkinds) hstart hstack hcomma).trans
        (hread' _ false rest after rfl (skipComma_of_flowEntry TokenKind.noConfusion rfl))
    · simp only [Outline.itemEvents_cons, List.length_append, List.length_cons]
      omega
    · simp only [Outline.denoteItems, Tree.dataOf, hdatum, hdata]
      rfl

theorem exists_entries (members : Json.Members) {ts : List Token}
    (hts : ts.map Token.kind = members.kinds) :
    ∃ es : List (Outline × Outline), ReadsEntries ts es ∧
      (Outline.entryEvents es).length ≤ ts.length ∧ ∀ lines table,
        Tree.pairsOf (Outline.denoteEntries lines es table).1 = members.plainPairs := by
  cases members with
  | last name value after =>
    obtain ⟨m₁, later, rfl, hlater⟩ := exists_token hts
    obtain ⟨m₂, later', rfl, hlater'⟩ := exists_token hlater
    obtain ⟨m₃, ts₁, rfl, hts₁⟩ := exists_token hlater'
    obtain ⟨o, hread, hlength, hdatum⟩ := exists_node value hts₁
    obtain ⟨kind, kinds, hkinds, hstart⟩ := exists_kinds value
    refine ⟨[(nameNode name m₂, o)], fun g first rest after hstack hcomma => ?_, ?_,
      fun lines table => ?_⟩
    · rw [Outline.entryEvents, Outline.entryEvents, List.append_nil]
      exact emits_entry hread (hts₁.trans hkinds) hstart hstack hcomma
    · simp only [Outline.entryEvents, nameNode, Outline.events, List.length_append,
        List.length_cons, List.length_nil]
      omega
    · simp only [Outline.denoteEntries, Tree.pairsOf, hdatum]
      rfl
  | more name value after others =>
    obtain ⟨m₁, later, rfl, hlater⟩ := exists_token hts
    obtain ⟨m₂, later', rfl, hlater'⟩ := exists_token hlater
    obtain ⟨m₃, later'', rfl, hlater''⟩ := exists_token hlater'
    have hsplit : later''.map Token.kind = value.kinds ++ .flowEntry :: others.kinds := hlater''
    obtain ⟨ts₁, behind, rfl, hts₁, hbehind⟩ := List.map_eq_append_iff.mp hsplit
    obtain ⟨m₄, ts₂, rfl, hts₂⟩ := exists_token hbehind
    obtain ⟨o, hread, hlength, hdatum⟩ := exists_node value hts₁
    obtain ⟨es, hread', hlength', hpairs⟩ := exists_entries others hts₂
    obtain ⟨kind, kinds, hkinds, hstart⟩ := exists_kinds value
    refine ⟨(nameNode name m₂, o) :: es, fun g first rest after hstack hcomma => ?_, ?_,
      fun lines table => ?_⟩
    · rw [List.cons_append, List.cons_append, List.cons_append, List.append_assoc] at hcomma
      rw [Outline.entryEvents_cons, ← List.append_assoc]
      exact (emits_entry hread (hts₁.trans hkinds) hstart hstack hcomma).trans
        (hread' _ false rest after rfl (skipComma_of_flowEntry TokenKind.noConfusion rfl))
    · simp only [Outline.entryEvents, nameNode, Outline.events, List.length_append,
        List.length_cons, List.length_nil]
      omega
    · simp only [Outline.denoteEntries, Tree.pairsOf, hdatum, hpairs]
      rfl

end

end Document
end LintLocator
