import LintLocator.Yaml.Event

/-!
# From tokens to events

The grammar of YAML is read by an automaton with a stack: its states say what may come next, the
state below says where to go on when a node is complete.  `Grammar.step` gives one event, for which
it takes as many tokens as the event needs and looks at one more.

Looking further would change which documents can still be read from a text that goes wrong later:
a document is complete as soon as the token behind it shows that it has ended.
-/

namespace LintLocator
namespace Yaml

/-- What may come next. -/
inductive Expecting where
  /-- A document; it may start without `---` if it is a `bare` one. -/
  | document (bare : Bool)
  /-- What follows `---`. -/
  | content
  | documentEnd
  | node
  | blockEntry
  /-- An item of a sequence that is indented as little as the mapping around it. -/
  | inlineEntry
  | blockKey
  | blockValue
  | flowEntry (first : Bool)
  | flowKey (first : Bool)
  | flowValue
  /-- The value of a key that is an entry by itself. -/
  | missingValue
  | pairKey
  | pairValue
  | pairEnd (mark : Mark)
  deriving DecidableEq, Repr, Inhabited

/-- The state of the automaton. -/
structure Grammar where
  tokens : List Token
  /-- What comes next, what comes then, and so on. -/
  stack : List Expecting
  /-- The anchors of the document, the last one first, with their numbers. -/
  anchors : List (List Char × Nat)
  /-- The number of the next anchor. -/
  nextAnchor : Nat
  /-- The handle that a directive declares. -/
  handle : Option (List Char)
  deriving DecidableEq, Repr, Inhabited

namespace Grammar

def start (tokens : List Token) : Grammar := ⟨tokens, [.document true], [], 1, none⟩

/-- The next token. -/
def peek? (g : Grammar) : Option Token := g.tokens.head?

def skip (g : Grammar) : Grammar := { g with tokens := g.tokens.drop 1 }

/-- Goes on with other expectations. -/
def expect (g : Grammar) (stack : List Expecting) : Grammar := { g with stack := stack }

/-- An empty scalar at a mark. -/
def emptyScalar (mark : Mark) : Event := ⟨.scalar .plain "" false none, mark⟩

/-! ## Nodes -/

/-- Gives an anchor the next number. -/
def addAnchor (g : Grammar) (name : List Char) : Nat × Grammar :=
  (g.nextAnchor,
    { g with anchors := (name, g.nextAnchor) :: g.anchors, nextAnchor := g.nextAnchor + 1 })

/-- Whether a tag's handle is known.  A handle between two `!` has to be declared, except `!!`. -/
def knowsHandle (g : Grammar) (handle : List Char) : Bool :=
  handle.length < 2 || handle == ['!', '!'] || handle.getLast? != some '!' ||
    g.handle == some handle

/-- Reads the anchor and the tag before a node, in either order. -/
def readProperties (g : Grammar) : Option (Option Nat × Bool × Grammar) := do
  let first ← g.peek?
  match first.kind with
  | .anchor name =>
    let (id, h) := g.skip.addAnchor name
    let second ← h.peek?
    match second.kind with
    | .tag handle _ => if h.knowsHandle handle then some (some id, true, h.skip) else none
    | _ => some (some id, false, h)
  | .tag handle _ =>
    if !g.knowsHandle handle then none
    else
      let h := g.skip
      let second ← h.peek?
      match second.kind with
      | .anchor name =>
        let (id, i) := h.skip.addAnchor name
        some (some id, true, i)
      | _ => some (none, true, h)
  | _ => some (none, false, g)

/-- Reads the start of a node, or all of it, and then expects `after`.  Block collections are
allowed where `block` is set, and an item of a sequence may come directly where `inline` is. -/
def readContent (g : Grammar) (block inline : Bool) (anchor : Option Nat) (tagged : Bool)
    (after : List Expecting) : Option (Event × Grammar) := do
  let token ← g.peek?
  let m := token.mark
  match token.kind with
  | .scalar style text =>
    some (⟨.scalar style (String.ofList text) tagged anchor, m⟩, g.skip.expect after)
  | .flowSequenceStart =>
    some (⟨.sequenceStart anchor, m⟩, g.skip.expect (.flowEntry true :: after))
  | .flowMappingStart =>
    some (⟨.mappingStart anchor, m⟩, g.skip.expect (.flowKey true :: after))
  | .blockEntry =>
    if inline then some (⟨.sequenceStart anchor, m⟩, g.expect (.inlineEntry :: after))
    else if tagged || anchor.isSome then
      some (⟨.scalar .plain "" tagged anchor, m⟩, g.expect after)
    else none
  | kind =>
    if block && kind == .blockSequenceStart then
      some (⟨.sequenceStart anchor, m⟩, g.skip.expect (.blockEntry :: after))
    else if block && kind == .blockMappingStart then
      some (⟨.mappingStart anchor, m⟩, g.skip.expect (.blockKey :: after))
    else if tagged || anchor.isSome then
      some (⟨.scalar .plain "" tagged anchor, m⟩, g.expect after)
    else none

/-- Reads a node, or its start, and then expects `after`. -/
def readNode (g : Grammar) (block inline : Bool) (after : List Expecting) :
    Option (Event × Grammar) := do
  let token ← g.peek?
  match token.kind with
  | .alias name =>
    let id ← g.anchors.lookup name
    some (⟨.alias id, token.mark⟩, g.skip.expect after)
  | _ =>
    let (anchor, tagged, h) ← g.readProperties
    h.readContent block inline anchor tagged after

/-! ## Documents -/

/-- Passes directives.  At most one of them may tell the version, and only the last of them may
declare a handle. -/
def readDirectives : (fuel : Nat) → (versioned : Bool) → Grammar → Option Grammar
  | 0, _, _ => none
  | fuel + 1, versioned, g => do
    let token ← g.peek?
    match token.kind with
    | .versionDirective _ _ =>
      if versioned then none else readDirectives fuel true { g.skip with handle := none }
    | .tagDirective handle _ => readDirectives fuel versioned { g.skip with handle := some handle }
    | _ => some g

/-- Reads directives and the `---` behind them. -/
def readMarkedStart (g : Grammar) (after : List Expecting) : Option (Event × Grammar) := do
  let h ← readDirectives g.tokens.length false g
  let token ← h.peek?
  match token.kind with
  | .documentStart =>
    some (⟨.documentStart, token.mark⟩,
      { h.skip with stack := .content :: .documentEnd :: after, anchors := [] })
  | _ => none

/-- Passes the marks that end documents. -/
def skipEnds (g : Grammar) : Grammar :=
  { g with tokens := g.tokens.dropWhile fun t => t.kind == .documentEnd }

/-- Reads the end of a document.  A directive may follow only an end that is marked. -/
def readDocumentEnd (g : Grammar) (after : List Expecting) : Option (Event × Grammar) := do
  let token ← g.peek?
  let h := { g with handle := none }
  match token.kind with
  | .documentEnd => some (⟨.documentEnd, token.mark⟩, h.skip.expect (.document true :: after))
  | .versionDirective _ _ => none
  | .tagDirective _ _ => none
  | _ => some (⟨.documentEnd, token.mark⟩, h.expect (.document false :: after))

/-! ## Collections -/

/-- What shows, behind the `-` of a block sequence, that its item is empty. -/
def endsItem : TokenKind → Bool
  | .blockEntry => true
  | .blockEnd => true
  | _ => false

/-- What shows, in a block mapping, that a key or a value is empty. -/
def endsPart : TokenKind → Bool
  | .key => true
  | .value => true
  | .blockEnd => true
  | _ => false

def readBlockEntry (g : Grammar) (after : List Expecting) : Option (Event × Grammar) := do
  let token ← g.peek?
  match token.kind with
  | .blockEnd => some (⟨.sequenceEnd, token.mark⟩, g.skip.expect after)
  | .blockEntry =>
    let item ← g.skip.peek?
    if endsItem item.kind then
      some (emptyScalar item.mark, g.skip.expect (.blockEntry :: after))
    else g.skip.readNode true false (.blockEntry :: after)
  | _ => none

def readInlineEntry (g : Grammar) (after : List Expecting) : Option (Event × Grammar) := do
  let token ← g.peek?
  match token.kind with
  | .blockEntry =>
    let item ← g.skip.peek?
    if endsItem item.kind || endsPart item.kind then
      some (emptyScalar item.mark, g.skip.expect (.inlineEntry :: after))
    else g.skip.readNode true false (.inlineEntry :: after)
  | _ => some (⟨.sequenceEnd, token.mark⟩, g.expect after)

def readBlockKey (g : Grammar) (after : List Expecting) : Option (Event × Grammar) := do
  let token ← g.peek?
  match token.kind with
  | .key =>
    let key ← g.skip.peek?
    if endsPart key.kind then
      some (emptyScalar key.mark, g.skip.expect (.blockValue :: after))
    else g.skip.readNode true true (.blockValue :: after)
  | .value => some (emptyScalar token.mark, g.expect (.blockValue :: after))
  | .blockEnd => some (⟨.mappingEnd, token.mark⟩, g.skip.expect after)
  | _ => none

def readBlockValue (g : Grammar) (after : List Expecting) : Option (Event × Grammar) := do
  let token ← g.peek?
  match token.kind with
  | .value =>
    let value ← g.skip.peek?
    if endsPart value.kind then
      some (emptyScalar value.mark, g.skip.expect (.blockKey :: after))
    else g.skip.readNode true true (.blockKey :: after)
  | _ => some (emptyScalar token.mark, g.expect (.blockKey :: after))

/-- Passes the comma before an entry that is not the first one.  The answer is `none` where the
comma is missing; the end of the collection needs none. -/
def skipComma (g : Grammar) (first : Bool) (closing : TokenKind) : Option Grammar := do
  let token ← g.peek?
  if first || token.kind == closing then some g
  else if token.kind == .flowEntry then some g.skip
  else none

def readFlowEntry (g : Grammar) (first : Bool) (after : List Expecting) :
    Option (Event × Grammar) := do
  let h ← g.skipComma first .flowSequenceEnd
  let token ← h.peek?
  match token.kind with
  | .flowSequenceEnd => some (⟨.sequenceEnd, token.mark⟩, h.skip.expect after)
  | .key =>
    some (⟨.mappingStart none, token.mark⟩,
      h.skip.expect (.pairKey :: .flowEntry false :: after))
  | _ => h.readNode false false (.flowEntry false :: after)

/-- What shows, in a pair without braces, that its key or value is empty. -/
def endsPair : TokenKind → Bool
  | .flowEntry => true
  | .flowSequenceEnd => true
  | _ => false

def readPairKey (g : Grammar) (after : List Expecting) : Option (Event × Grammar) := do
  let token ← g.peek?
  if endsPair token.kind || token.kind == .value then
    some (emptyScalar token.mark, g.skip.expect (.pairValue :: after))
  else g.readNode false false (.pairValue :: after)

def readPairValue (g : Grammar) (after : List Expecting) : Option (Event × Grammar) := do
  let token ← g.peek?
  match token.kind with
  | .value =>
    let value ← g.skip.peek?
    if endsPair value.kind then
      some (emptyScalar value.mark, g.skip.expect (.pairEnd value.mark :: after))
    else g.skip.readNode false false (.pairEnd value.mark :: after)
  | _ => some (emptyScalar token.mark, g.expect (.pairEnd token.mark :: after))

/-- What shows, in a flow mapping, that a key behind its `?` is empty. -/
def endsFlowKey : TokenKind → Bool
  | .value => true
  | .flowEntry => true
  | .flowMappingEnd => true
  | _ => false

def readFlowKey (g : Grammar) (first : Bool) (after : List Expecting) :
    Option (Event × Grammar) := do
  let h ← g.skipComma first .flowMappingEnd
  let token ← h.peek?
  match token.kind with
  | .flowMappingEnd => some (⟨.mappingEnd, token.mark⟩, h.skip.expect after)
  | .key =>
    let key ← h.skip.peek?
    if endsFlowKey key.kind then
      some (emptyScalar key.mark, h.skip.expect (.flowValue :: .flowKey false :: after))
    else h.skip.readNode false false (.flowValue :: .flowKey false :: after)
  | .value =>
    some (emptyScalar token.mark, h.expect (.flowValue :: .flowKey false :: after))
  | _ => h.readNode false false (.missingValue :: .flowKey false :: after)

def readFlowValue (g : Grammar) (after : List Expecting) : Option (Event × Grammar) := do
  let token ← g.peek?
  match token.kind with
  | .value =>
    let value ← g.skip.peek?
    if value.kind == .flowEntry || value.kind == .flowMappingEnd then
      some (emptyScalar token.mark, g.skip.expect after)
    else g.skip.readNode false false after
  | _ => some (emptyScalar token.mark, g.expect after)

/-! ## Steps -/

/-- What becomes of the stream: it goes on with an event, it is over, or it is not YAML. -/
inductive Step where
  | event (e : Event) (next : Grammar)
  | done
  | failed
  deriving Inhabited

/-- The step that an event makes. -/
def Step.ofEvent? : Option (Event × Grammar) → Step
  | some (e, g) => .event e g
  | none => .failed

/-- Reads the start of a document or the end of the stream. -/
def readDocument (g : Grammar) (bare : Bool) (after : List Expecting) : Step :=
  let h := g.skipEnds
  match h.peek? with
  | none => .failed
  | some token =>
    match token.kind with
    | .streamEnd => .done
    | .versionDirective _ _ => .ofEvent? (h.readMarkedStart after)
    | .tagDirective _ _ => .ofEvent? (h.readMarkedStart after)
    | .documentStart => .ofEvent? (h.readMarkedStart after)
    | _ =>
      if bare then
        .event ⟨.documentStart, token.mark⟩
          { h with stack := .node :: .documentEnd :: after, anchors := [] }
      else .failed

/-- Whether a token leaves a document empty behind its `---`. -/
def endsDocument : TokenKind → Bool
  | .versionDirective _ _ => true
  | .tagDirective _ _ => true
  | .documentStart => true
  | .documentEnd => true
  | .streamEnd => true
  | _ => false

/-- Reads what follows `---`. -/
def readDocumentContent (g : Grammar) (after : List Expecting) : Option (Event × Grammar) := do
  let token ← g.peek?
  if endsDocument token.kind then some (emptyScalar token.mark, g.expect after)
  else g.readNode true false after

/-- Gives the next event. -/
def step (g : Grammar) : Step :=
  match g.stack with
  | [] => .failed
  | .document bare :: after => g.readDocument bare after
  | .content :: after => .ofEvent? (g.readDocumentContent after)
  | .documentEnd :: after => .ofEvent? (g.readDocumentEnd after)
  | .node :: after => .ofEvent? (g.readNode true false after)
  | .blockEntry :: after => .ofEvent? (g.readBlockEntry after)
  | .inlineEntry :: after => .ofEvent? (g.readInlineEntry after)
  | .blockKey :: after => .ofEvent? (g.readBlockKey after)
  | .blockValue :: after => .ofEvent? (g.readBlockValue after)
  | .flowEntry first :: after => .ofEvent? (g.readFlowEntry first after)
  | .flowKey first :: after => .ofEvent? (g.readFlowKey first after)
  | .flowValue :: after => .ofEvent? (g.readFlowValue after)
  | .missingValue :: after =>
    match g.peek? with
    | some token => .event (emptyScalar token.mark) (g.expect after)
    | none => .failed
  | .pairKey :: after => .ofEvent? (g.readPairKey after)
  | .pairValue :: after => .ofEvent? (g.readPairValue after)
  | .pairEnd mark :: after => .event ⟨.mappingEnd, mark⟩ (g.expect after)

/-- Gives all events.  No token gives rise to more than four of them, so a multiple of the number of
tokens is enough `fuel`. -/
def steps : (fuel : Nat) → Grammar → List Event × Bool
  | 0, _ => ([], true)
  | fuel + 1, g =>
    match g.step with
    | .failed => ([], true)
    | .done => ([], false)
    | .event e h =>
      let later := steps fuel h
      (e :: later.1, later.2)

@[simp] theorem steps_zero (g : Grammar) : steps 0 g = ([], true) := rfl

theorem steps_of_failed {g : Grammar} (h : g.step = .failed) (fuel : Nat) :
    steps (fuel + 1) g = ([], true) := by
  rw [steps, h]

theorem steps_of_done {g : Grammar} (h : g.step = .done) (fuel : Nat) :
    steps (fuel + 1) g = ([], false) := by
  rw [steps, h]

theorem steps_of_event {g k : Grammar} {e : Event} (h : g.step = .event e k) (fuel : Nat) :
    steps (fuel + 1) g = (e :: (steps fuel k).1, (steps fuel k).2) := by
  rw [steps, h]

end Grammar

/-- The events that tokens stand for. -/
def EventStream.ofTokens (s : TokenStream) : EventStream :=
  let all := Grammar.steps (8 * s.tokens.length + 8) (Grammar.start s.tokens)
  ⟨all.1, all.2⟩

end Yaml
end LintLocator
