/-!
# TOML values and tables

A text in TOML builds one table.  The same table can be written in several ways, but not in two of
them at once, so a table remembers what brought it about:

* a header, which may add to a table that only headers of its parts have implied;
* dotted keys, which may add to a table that dotted keys or headers of its parts have implied;
* braces, which leave nothing to add.

Of numbers and dates only the fact that they are none of the other values is kept.
-/

namespace LintLocator
namespace Toml

/-- What brought a table about. -/
inductive Origin where
  | header
  | impliedByHeader
  | dottedKey
  | braces
  deriving DecidableEq, Repr, Inhabited

inductive Value where
  | text (s : String)
  | boolean (b : Bool)
  /-- A number or a date. -/
  | other
  | array (items : List Value)
  | table (origin : Origin) (entries : List (String × Value))
  /-- The tables under headers in double brackets, the last one first. -/
  | tables (elements : List Value)
  deriving Inhabited

namespace Value

/-- The document before its first line. -/
def empty : Value := .table .header []

/-- Whether the parts of a key may lead into a table from outside. -/
def admits (dotted : Bool) : Origin → Bool
  | .braces => false
  | .header => !dotted
  | _ => true

/-- Changes the value under a key, which may also be a new key, unless the change is refused. -/
def alter (key : String) (change : Option Value → Option Value) :
    List (String × Value) → Option (List (String × Value))
  | [] => (change none).map fun v => [(key, v)]
  | e :: es =>
    if e.1 == key then (change (some e.2)).map fun v => (key, v) :: es
    else (alter key change es).map (e :: ·)

/-- Changes the table that the parts of a key lead to.  Tables on the way are made if they are
missing, and of several tables under one header the last one is meant. -/
def alterWithin (dotted : Bool) (change : Value → Option Value) : List String → Value → Option Value
  | [], v => change v
  | key :: keys, .table origin entries =>
    let step := fun old : Option Value =>
      match old with
      | none =>
        alterWithin dotted change keys (.table (if dotted then .dottedKey else .impliedByHeader) [])
      | some (.table o es) =>
        if admits dotted o then alterWithin dotted change keys (.table o es) else none
      | some (.tables (last :: before)) =>
        (alterWithin dotted change keys last).map fun v => .tables (v :: before)
      | some _ => none
    (alter key step entries).map (.table origin)
  | _ :: _, _ => none

/-- Adds a value under a key that is given in parts.  A key with more than one part cannot lead to
a table that has a header, and no key can be given twice. -/
def insert (t : Value) (keys : List String) (value : Value) : Option Value :=
  let path := keys.dropLast
  let add := fun v : Value =>
    match v with
    | .table origin entries =>
      if (origin == .dottedKey) == path.isEmpty then none
      else
        (alter (keys.getLast?.getD "")
          (fun old => if old.isSome then none else some value) entries).map
          (.table origin)
    | _ => none
  alterWithin true add path t

/-- Applies a change to the entry under the last part of a header. -/
def alterEntry (keys : List String) (change : Option Value → Option Value) (t : Value) :
    Option Value :=
  let add := fun v : Value =>
    match v with
    | .table origin entries => (alter (keys.getLast?.getD "") change entries).map (.table origin)
    | _ => none
  alterWithin false add keys.dropLast t

/-- Begins the table of a header.  Only a table that has been implied may be there already. -/
def openTable (keys : List String) (t : Value) : Option Value :=
  alterEntry keys (fun old =>
    match old with
    | none => some (.table .header [])
    | some (.table .impliedByHeader entries) => some (.table .header entries)
    | some _ => none) t

/-- Begins one more table of a header in double brackets. -/
def openElement (keys : List String) (t : Value) : Option Value :=
  alterEntry keys (fun old =>
    match old with
    | none => some (.tables [.table .header []])
    | some (.tables elements) => some (.tables (.table .header [] :: elements))
    | some _ => none) t

end Value
end Toml
end LintLocator
