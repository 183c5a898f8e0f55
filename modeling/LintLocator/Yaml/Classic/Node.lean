import LintLocator.Yaml.Classic.Lexer

/-!
# Nodes in the older form of YAML

Settings are one document, and only what it says matters, so its tokens are read straight into a
tree of nodes.  Scalars keep their style and their tag, which together tell whether a text may be
anything but a text.

An anchor is known by a number, which is how many different names have been given before it.  An
alias stands for the last node with the number that its name has at that point.
-/

namespace LintLocator
namespace Yaml
namespace Classic

/-- A node; the number is that of its anchor. -/
inductive Node where
  | scalar (anchor : Option Nat) (style : Style) (tag : List Char) (text : List Char)
  | sequence (anchor : Option Nat) (items : List Node)
  | mapping (anchor : Option Nat) (entries : List (Node × Node))
  | alias (anchor : Nat)
  deriving Inhabited

/-- What is still to be read, and the names that have been declared so far. -/
structure Source where
  tokens : List Token
  /-- The handles of tags and the texts they stand for. -/
  handles : List (List Char × List Char)
  /-- The names of anchors and their numbers, the last one first. -/
  anchors : List (List Char × Nat)
  deriving Inhabited

namespace Source

def peek? (s : Source) : Option TokenKind := s.tokens.head?.map Token.kind

def skip (s : Source) : Source := { s with tokens := s.tokens.drop 1 }

/-- Gives an anchor its number. -/
def addAnchor (s : Source) (name : List Char) : Nat × Source :=
  let others := s.anchors.filter fun a => a.1 != name
  (s.anchors.length, { s with anchors := (name, s.anchors.length) :: others })

/-- The whole of a tag.  A tag without a handle is complete; any other handle has to be known. -/
def resolveTag? (s : Source) (handle suffix : List Char) : Option (List Char) :=
  if handle.isEmpty then some suffix else (s.handles.lookup handle).map (· ++ suffix)

/-- What stands before a node. -/
structure Properties where
  anchor : Option Nat
  tag : Option (List Char)

/-- Reads the anchor and the tag before a node, in either order. -/
def readProperties (s : Source) : Option (Properties × Source) :=
  match s.peek? with
  | some (.anchor name) =>
    let (id, t) := s.skip.addAnchor name
    match t.peek? with
    | some (.tag handle suffix) => (t.resolveTag? handle suffix).map fun tag =>
        (⟨some id, some tag⟩, t.skip)
    | _ => some (⟨some id, none⟩, t)
  | some (.tag handle suffix) =>
    (s.resolveTag? handle suffix).map fun tag =>
      match s.skip.peek? with
      | some (.anchor name) =>
        let (id, t) := s.skip.skip.addAnchor name
        (⟨some id, some tag⟩, t)
      | _ => (⟨none, some tag⟩, s.skip)
  | _ => some (⟨none, none⟩, s)

end Source

namespace Node

/-- A node that has been left out. -/
def missing : Node := .scalar none .plain [] []

/-- What shows, behind the `-` of a block sequence, that its item has been left out. -/
def endsItem : Option TokenKind → Bool
  | some .blockEntry => true
  | some .blockEnd => true
  | _ => false

/-- What shows, in a block mapping, that a key or a value has been left out. -/
def endsPart : Option TokenKind → Bool
  | some .key => true
  | some .value => true
  | some .blockEnd => true
  | _ => false

/-- What shows, in a flow collection that ends with `closing`, that a value has been left out. -/
def endsFlow (closing : TokenKind) (next : Option TokenKind) : Bool :=
  next == some .flowEntry || next == some closing

/-- Passes the comma behind an entry of a flow collection.  Without one, the collection has to
end. -/
def skipComma? (closing : TokenKind) (s : Source) : Option Source :=
  match s.peek? with
  | some .flowEntry => some s.skip
  | next => if next == some closing then some s else none

/-- The tag of a scalar that has not been left out: a mere `!` says no more than no tag. -/
def scalarTag : Option (List Char) → List Char
  | none => []
  | some tag => if tag == ['!'] then [] else tag

mutual

/-- Reads a node.  Block collections are allowed where `block` is set, and an item of a sequence
may come directly where `inline` is. -/
def readWithin? : (fuel : Nat) → (block inline : Bool) → Source → Option (Node × Source)
  | 0, _, _, _ => none
  | fuel + 1, block, inline, s =>
    match s.peek? with
    | some (.alias name) => (s.anchors.lookup name).map fun id => (.alias id, s.skip)
    | _ =>
      match s.readProperties with
      | none => none
      | some (p, t) =>
        match t.peek? with
        | some (.scalar style text) =>
          some (.scalar p.anchor style (scalarTag p.tag) text, t.skip)
        | some .flowSequenceStart =>
          (flowItems? fuel t.skip).map fun r => (.sequence p.anchor r.1, r.2)
        | some .flowMappingStart =>
          (flowEntries? fuel t.skip).map fun r => (.mapping p.anchor r.1, r.2)
        | next =>
          if inline && next == some .blockEntry then
            (inlineItems? fuel t).map fun r => (.sequence p.anchor r.1, r.2)
          else if block && next == some .blockSequenceStart then
            (blockItems? fuel t.skip).map fun r => (.sequence p.anchor r.1, r.2)
          else if block && next == some .blockMappingStart then
            (blockEntries? fuel t.skip).map fun r => (.mapping p.anchor r.1, r.2)
          else if p.anchor.isSome || p.tag.isSome then
            some (.scalar p.anchor .plain (p.tag.getD []) [], t)
          else none

/-- Reads a node unless it has been left out. -/
def readUnless? (fuel : Nat) (absent block inline : Bool) (s : Source) : Option (Node × Source) :=
  match fuel with
  | 0 => none
  | fuel + 1 => if absent then some (missing, s) else readWithin? fuel block inline s

/-- Reads the items of a block sequence. -/
def blockItems? : (fuel : Nat) → Source → Option (List Node × Source)
  | 0, _ => none
  | fuel + 1, s =>
    match s.peek? with
    | some .blockEnd => some ([], s.skip)
    | some .blockEntry =>
      match readUnless? fuel (endsItem s.skip.peek?) true false s.skip with
      | none => none
      | some (item, t) => (blockItems? fuel t).map fun r => (item :: r.1, r.2)
    | _ => none

/-- Reads the items of a sequence that is indented as little as the mapping around it. -/
def inlineItems? : (fuel : Nat) → Source → Option (List Node × Source)
  | 0, _ => none
  | fuel + 1, s =>
    match s.peek? with
    | some .blockEntry =>
      match readUnless? fuel (endsItem s.skip.peek? || endsPart s.skip.peek?) true false s.skip with
      | none => none
      | some (item, t) => (inlineItems? fuel t).map fun r => (item :: r.1, r.2)
    | _ => some ([], s)

/-- Reads the entries of a block mapping. -/
def blockEntries? : (fuel : Nat) → Source → Option (List (Node × Node) × Source)
  | 0, _ => none
  | fuel + 1, s =>
    match s.peek? with
    | some .blockEnd => some ([], s.skip)
    | some .key =>
      match readUnless? fuel (endsPart s.skip.peek?) true true s.skip with
      | none => none
      | some (key, t) =>
        match blockValue? fuel t with
        | none => none
        | some (value, u) => (blockEntries? fuel u).map fun r => ((key, value) :: r.1, r.2)
    | _ => none

/-- Reads the value behind the key of a block mapping. -/
def blockValue? : (fuel : Nat) → Source → Option (Node × Source)
  | 0, _ => none
  | fuel + 1, s =>
    match s.peek? with
    | some .value => readUnless? fuel (endsPart s.skip.peek?) true true s.skip
    | _ => some (missing, s)

/-- Reads the items of a flow sequence. -/
def flowItems? : (fuel : Nat) → Source → Option (List Node × Source)
  | 0, _ => none
  | fuel + 1, s =>
    match s.peek? with
    | some .flowSequenceEnd => some ([], s.skip)
    | next =>
      match (if next == some .key then flowPair? fuel s.skip
        else readWithin? fuel false false s) with
      | none => none
      | some (item, t) =>
        match skipComma? .flowSequenceEnd t with
        | none => none
        | some u => (flowItems? fuel u).map fun r => (item :: r.1, r.2)

/-- Reads a pair in a flow sequence behind its `?`, as a mapping of one entry.  Where the key has
been left out, the token that shows this is passed over. -/
def flowPair? : (fuel : Nat) → Source → Option (Node × Source)
  | 0, _ => none
  | fuel + 1, s =>
    if endsFlow .flowSequenceEnd s.peek? || s.peek? == some .value then
      (flowValue? fuel .flowSequenceEnd s.skip).map fun r =>
        (.mapping none [(missing, r.1)], r.2)
    else
      match readWithin? fuel false false s with
      | none => none
      | some (key, t) =>
        (flowValue? fuel .flowSequenceEnd t).map fun r => (.mapping none [(key, r.1)], r.2)

/-- Reads the value behind a key in a flow collection. -/
def flowValue? : (fuel : Nat) → (closing : TokenKind) → Source → Option (Node × Source)
  | 0, _, _ => none
  | fuel + 1, closing, s =>
    match s.peek? with
    | some .value => readUnless? fuel (endsFlow closing s.skip.peek?) false false s.skip
    | _ => some (missing, s)

/-- Reads the entries of a flow mapping.  An entry without a `:` is a key without a value. -/
def flowEntries? : (fuel : Nat) → Source → Option (List (Node × Node) × Source)
  | 0, _ => none
  | fuel + 1, s =>
    match s.peek? with
    | some .flowMappingEnd => some ([], s.skip)
    | next =>
      match (if next == some .key then flowEntry? fuel s.skip
        else (readWithin? fuel false false s).map fun r => ((r.1, missing), r.2)) with
      | none => none
      | some (entry, t) =>
        match skipComma? .flowMappingEnd t with
        | none => none
        | some u => (flowEntries? fuel u).map fun r => (entry :: r.1, r.2)

/-- Reads an entry of a flow mapping whose key has been announced. -/
def flowEntry? : (fuel : Nat) → Source → Option ((Node × Node) × Source)
  | 0, _ => none
  | fuel + 1, s =>
    let absent := endsFlow .flowMappingEnd s.peek? || s.peek? == some .value
    match readUnless? fuel absent false false s with
    | none => none
    | some (key, t) =>
      (flowValue? fuel .flowMappingEnd t).map fun r => ((key, r.1), r.2)

end

/-- The node that an anchor marks and all that are marked inside of it, each with its number, in the
order in which they start. -/
def mark (anchor : Option Nat) (n : Node) (inner : List (Nat × Node)) : List (Nat × Node) :=
  match anchor with
  | some id => (id, n) :: inner
  | none => inner

mutual

/-- The anchored nodes in a node, in the order in which they start. -/
def anchored : Node → List (Nat × Node)
  | .scalar anchor style tag text => mark anchor (.scalar anchor style tag text) []
  | .sequence anchor items => mark anchor (.sequence anchor items) (anchoredAll items)
  | .mapping anchor entries => mark anchor (.mapping anchor entries) (anchoredEntries entries)
  | .alias _ => []

def anchoredAll : List Node → List (Nat × Node)
  | [] => []
  | n :: ns => anchored n ++ anchoredAll ns

def anchoredEntries : List (Node × Node) → List (Nat × Node)
  | [] => []
  | (k, v) :: es => anchored k ++ anchored v ++ anchoredEntries es

end

end Node

/-! ## Documents -/

/-- The handles that are known without being declared. -/
def defaultHandles : List (List Char × List Char) :=
  [(['!'], ['!']), (['!', '!'], "tag:yaml.org,2002:".toList)]

/-- Passes directives.  At most one tells the version, which has to be 1.1 or 1.2, and none declares
a handle that has been declared already. -/
def readDirectives? : (fuel : Nat) → (versioned : Bool) → Source → Option Source
  | 0, _, _ => none
  | fuel + 1, versioned, s =>
    match s.peek? with
    | some (.versionDirective major minor) =>
      if versioned || major != 1 || (minor != 1 && minor != 2) then none
      else readDirectives? fuel true s.skip
    | some (.tagDirective handle replacement) =>
      if (s.handles.lookup handle).isSome then none
      else readDirectives? fuel versioned
        { s.skip with handles := s.handles ++ [(handle, replacement)] }
    | _ => some s

/-- Whether a token leaves a document empty behind its `---`. -/
def endsDocument : Option TokenKind → Bool
  | some (.versionDirective _ _) => true
  | some (.tagDirective _ _) => true
  | some .documentStart => true
  | some .documentEnd => true
  | some .streamEnd => true
  | _ => false

/-- Reads the only document of a text.  Without directives its `---` may be missing. -/
def readDocument? (tokens : List Token) : Option (Node × Source) := do
  let fuel := 4 * tokens.length + 4
  let s ← readDirectives? fuel false ⟨tokens, [], []⟩
  let marked := s.peek? == some .documentStart
  if s.tokens.length != tokens.length && !marked then none
  else
    let t := { (if marked then s.skip else s) with handles := s.handles ++ defaultHandles }
    Node.readUnless? fuel (marked && endsDocument t.peek?) true false t

/-- What a text says, if it says anything. -/
structure Document where
  root : Option Node
  /-- The anchored nodes in the order in which they start. -/
  anchored : List (Nat × Node)

namespace Document

/-- The node that an alias stands for. -/
def target? (d : Document) (anchor : Nat) : Option Node := d.anchored.reverse.lookup anchor

/-- Reads a text of at most one document. -/
def read? (source : List Char) : Option Document := do
  let tokens ← tokens? source
  if tokens.head?.map Token.kind == some .streamEnd then some ⟨none, []⟩
  else
    let (root, rest) ← readDocument? tokens
    let behind := rest.tokens.dropWhile fun t => t.kind == .documentEnd
    if behind.head?.map Token.kind == some .streamEnd then some ⟨some root, root.anchored⟩ else none

end Document
end Classic
end Yaml
end LintLocator
