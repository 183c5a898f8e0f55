import LintLocator.Proofs.Json.Readable
import LintLocator.Proofs.Json.Values
import Mathlib.Data.List.Forall2

/-!
# Strings, lists and fields as they may be written

There are many ways to write a string, a list or a record of named fields down, and here is what
each of them may look like, in terms of the grammar alone:

* a character of a string stands for itself, or there is a short escape for it, or its number is
  escaped, in one piece or as a surrogate pair (`Spells`);
* the members of an object come in any order, and others may stand among them (`Holds`, `Lacks`);
* a list that is empty need not be there (`ListAt`).

The lemmas say that `Value` finds in such a term what was written down.
-/

namespace LintLocator

namespace Json

/-! ## Strings -/

/-- The letters of the short escapes, and what they stand for. -/
def shortEscapes : List (Char × Char) :=
  [('"', '"'), ('\\', '\\'), ('/', '/'), ('b', '\x08'), ('f', '\x0c'), ('n', '\n'), ('r', '\r'),
    ('t', '\t')]

/-- The digits of the numbers up to fifteen, in either case. -/
def IsHexDigit (c : Char) (d : Nat) : Prop :=
  "0123456789abcdef".toList[d]? = some c ∨ "0123456789ABCDEF".toList[d]? = some c

/-- The digits of a number, the highest first. -/
def IsCode (digits : List Char) (n : Nat) : Prop :=
  ∃ ds, List.Forall₂ IsHexDigit digits ds ∧ n = ds.foldl (fun n d => n * 16 + d) 0

/-- The ways to write the characters of a string. -/
inductive Spells : List Piece → List Char → Prop where
  | nil : Spells [] []
  | plain {c : Char} {h} {ps : List Piece} {s : List Char} (hs : Spells ps s) :
      Spells (.plain c h :: ps) (c :: s)
  | short {letter x c : Char} {h} {ps : List Piece} {s : List Char}
      (hc : (letter, c) ∈ shortEscapes) (hs : Spells ps s) :
      Spells (.short letter x h :: ps) (c :: s)
  | code {digits : List Char} {n : Nat} {hl hv} {c : Char} {ps : List Piece} {s : List Char}
      (hc : IsCode digits c.toNat) (hs : Spells ps s) :
      Spells (.code digits n hl hv :: ps) (c :: s)
  /-- The bits of a character beyond the first plane, less its number, are shared by two halves. -/
  | pair {digits others : List Char} {m n : Nat} {hl hv hl' hv'} {c : Char} {high low : Nat}
      {ps : List Piece} {s : List Char} (hhigh : IsCode digits high) (hlow : IsCode others low)
      (hrange : 0xD800 ≤ high ∧ high < 0xDC00 ∧ 0xDC00 ≤ low ∧ low < 0xE000)
      (hc : c.toNat = 0x10000 + (high - 0xD800) * 0x400 + (low - 0xDC00)) (hs : Spells ps s) :
      Spells (.code digits m hl hv :: .code others n hl' hv' :: ps) (c :: s)

theorem shortEscape?_of_mem {letter c : Char} (h : (letter, c) ∈ shortEscapes) :
    shortEscape? letter = some c := by
  have hall : ∀ e ∈ shortEscapes, shortEscape? e.1 = some e.2 := by decide
  exact hall _ h

theorem hexDigit?_of_isHexDigit {c : Char} {d : Nat} (h : IsHexDigit c d) :
    hexDigit? c = some d := by
  have hlower : ∀ d < 16, "0123456789abcdef".toList[d]?.bind hexDigit? = some d := by decide
  have hupper : ∀ d < 16, "0123456789ABCDEF".toList[d]?.bind hexDigit? = some d := by decide
  rcases h with h | h
  · have hd := hlower d (List.getElem?_eq_some_iff.mp h).1
    rwa [h, Option.bind_some] at hd
  · have hd := hupper d (List.getElem?_eq_some_iff.mp h).1
    rwa [h, Option.bind_some] at hd

theorem hexValue?_of_forall₂ {digits : List Char} {ds : List Nat}
    (h : List.Forall₂ IsHexDigit digits ds) (acc : Nat) :
    hexValue? acc (digits.map some) = some (ds.foldl (fun n d => n * 16 + d) acc) := by
  induction h generalizing acc with
  | nil => rfl
  | cons hd _ ih =>
    rw [List.map_cons, hexValue?, hexDigit?_of_isHexDigit hd, Option.bind_some, ih]
    rfl

/-- The number that a part of a string was read as is the one that is written there. -/
theorem eq_of_isCode {digits : List Char} {m n : Nat}
    (hvalue : hexValue? 0 (digits.map some) = some m) (h : IsCode digits n) : m = n := by
  obtain ⟨ds, hds, rfl⟩ := h
  rw [hexValue?_of_forall₂ hds] at hvalue
  exact (Option.some.inj hvalue).symm

theorem isSurrogate_toNat (c : Char) : isSurrogate c.toNat = false := by
  have h : c.toNat < 0xD800 ∨ 0xDFFF < c.toNat ∧ c.toNat < 0x110000 := c.valid
  rw [isSurrogate, Bool.and_eq_false_iff, decide_eq_false_iff_not, decide_eq_false_iff_not]
  omega

theorem textOf?_pair {high low : Nat}
    (h : 0xD800 ≤ high ∧ high < 0xDC00 ∧ 0xDC00 ≤ low ∧ low < 0xE000) (r : List Atom) :
    textOf? (.unit high :: .unit low :: r) =
      (textOf? r).map
        (Char.ofNat (0x10000 + (high - 0xD800) * 0x400 + (low - 0xDC00)) :: ·) := by
  obtain ⟨hlow, hhigh, hlow', hhigh'⟩ := h
  rw [textOf?.eq_def]
  simp only [hlow, hhigh, hlow', hhigh', decide_true, Bool.and_true, if_true]

/-- **However the characters of a string are written**, they are what it says. -/
theorem decoded?_of_spells {ps : List Piece} {s : List Char} (h : Spells ps s) :
    decoded? ps = some s := by
  induction h with
  | nil => rfl
  | @plain c h ps s _ ih =>
    rw [decoded?] at ih
    rw [decoded?, List.map_cons, Piece.atom, textOf?, ih]
    rfl
  | @short letter x c h ps s hc _ ih =>
    have hx : x = c := Option.some.inj (h.symm.trans (shortEscape?_of_mem hc))
    rw [decoded?] at ih
    rw [decoded?, List.map_cons, Piece.atom, textOf?, ih, hx]
    rfl
  | @code digits n hl hv c ps s hc _ ih =>
    have hn : n = c.toNat := eq_of_isCode hv hc
    rw [decoded?] at ih
    rw [decoded?, List.map_cons, Piece.atom, hn, textOf?_unit (isSurrogate_toNat c), ih,
      Char.ofNat_toNat]
    rfl
  | @pair digits others m n hl hv hl' hv' c high low ps s hhigh hlow hrange hc _ ih =>
    have hm : m = high := eq_of_isCode hv hhigh
    have hn : n = low := eq_of_isCode hv' hlow
    rw [decoded?] at ih
    rw [decoded?, List.map_cons, List.map_cons, Piece.atom, Piece.atom, hm, hn,
      textOf?_pair hrange, ih, ← hc, Char.ofNat_toNat]
    rfl

/-- Characters that stand for themselves. -/
theorem spells_plain (s : List Char) (h : ∀ c ∈ s, ' ' ≤ c ∧ c ≠ '"' ∧ c ≠ '\\') :
    Spells (s.pmap Piece.plain h) s := by
  induction s with
  | nil => exact .nil
  | cons c s ih => exact .plain (ih fun d hd => h d (List.mem_cons_of_mem c hd))

theorem string?_of_spells {ps : List Piece} {s : String} (h : Spells ps s.toList) :
    string? ps = some s := by
  rw [string?, decoded?_of_spells h, Option.map_some, String.ofList_toList]

/-! ## Texts, lists and objects -/

def Items.toList : Items → List Term
  | .last _ item _ => [item]
  | .more _ item _ others => item :: others.toList

def Members.toList : Members → List (Name × Term)
  | .last name value _ => [(name, value)]
  | .more name value _ others => (name, value) :: others.toList

namespace Term

/-- A string that says `s`. -/
def IsText (t : Term) (s : String) : Prop := ∃ ps, t = .string ps ∧ Spells ps s.toList

def IsNull (t : Term) : Prop := ∃ h, t = .literal ['n', 'u', 'l', 'l'] h

/-- The items of an array, in their order. -/
def items? : Term → Option (List Term)
  | .emptyArray _ => some []
  | .array items => some items.toList
  | _ => none

/-- The members of an object, in their order. -/
def members? : Term → Option (List (Name × Term))
  | .emptyObject _ => some []
  | .object members => some members.toList
  | _ => none

/-- An array with an item for each of `xs`. -/
def IsArrayOf {α : Type} (R : Term → α → Prop) (t : Term) (xs : List α) : Prop :=
  ∃ ts, t.items? = some ts ∧ List.Forall₂ R ts xs

/-- An object with the names and values `ms`. -/
def IsObjectOf (t : Term) (ms : List (String × Term)) : Prop :=
  ∃ ns, t.members? = some ns ∧
    List.Forall₂ (fun n m => Spells n.1.pieces m.1.toList ∧ n.2 = m.2) ns ms

end Term

/-- The names and the values of members as they are read. -/
def namedValues (ms : List (String × Term)) : List (Option String × Value) :=
  ms.map fun m => (some m.1, m.2.value)

theorem Items.values_eq_map : ∀ items : Items, items.values = items.toList.map Term.value
  | .last _ _ _ => rfl
  | .more _ item _ others => congrArg (item.value :: ·) others.values_eq_map

theorem Members.values_eq_map : ∀ members : Members,
    members.values = members.toList.map fun m => (string? m.1.pieces, m.2.value)
  | .last _ _ _ => rfl
  | .more name value _ others =>
    congrArg ((string? name.pieces, value.value) :: ·) others.values_eq_map

theorem Term.value_of_items? {t : Term} {ts : List Term} (h : t.items? = some ts) :
    t.value = .array (ts.map Term.value) := by
  cases t with
  | emptyArray gap =>
    cases h
    rfl
  | array items =>
    cases h
    exact congrArg Value.array items.values_eq_map
  | literal | string | emptyObject | object => cases h

theorem Term.value_of_members? {t : Term} {ns : List (Name × Term)} (h : t.members? = some ns) :
    t.value = .object (ns.map fun n => (string? n.1.pieces, n.2.value)) := by
  cases t with
  | emptyObject gap =>
    cases h
    rfl
  | object members =>
    cases h
    exact congrArg Value.object members.values_eq_map
  | literal | string | emptyArray | array => cases h

theorem Term.IsText.text?_value {t : Term} {s : String} (h : t.IsText s) :
    t.value.text? = some s := by
  obtain ⟨ps, rfl, hps⟩ := h
  exact string?_of_spells hps

theorem Term.IsNull.value_eq {t : Term} (h : t.IsNull) : t.value = .null := by
  obtain ⟨_, rfl⟩ := h
  rfl

theorem Term.IsObjectOf.value_eq {t : Term} {ms : List (String × Term)} (h : t.IsObjectOf ms) :
    t.value = .object (namedValues ms) := by
  obtain ⟨ns, hns, hms⟩ := h
  rw [Term.value_of_members? hns]
  refine congrArg Value.object ?_
  clear hns
  induction hms with
  | nil => rfl
  | cons h _ ih =>
    obtain ⟨hname, hvalue⟩ := h
    rw [List.map_cons, ih, string?_of_spells hname, hvalue]
    rfl

/-- Items that are read one by one. -/
theorem mapM_of_forall₂ {α : Type} {R : Term → α → Prop} {read : Value → Option α}
    (hread : ∀ {t a}, R t a → read t.value = some a) {ts : List Term} {xs : List α}
    (h : List.Forall₂ R ts xs) : (ts.map Term.value).mapM read = some xs := by
  induction h with
  | nil => rfl
  | cons h _ ih =>
    rw [List.map_cons, List.mapM_cons, hread h, ih]
    rfl

/-! ## Fields -/

/-- The only member of a name, wherever it stands. -/
def Holds (ms : List (String × Term)) (name : String) (v : Term) : Prop :=
  ∃ before behind, ms = before ++ (name, v) :: behind ∧ ∀ m ∈ before ++ behind, m.1 ≠ name

/-- No member has the name. -/
def Lacks (ms : List (String × Term)) (name : String) : Prop := ∀ m ∈ ms, m.1 ≠ name

/-- A field that is a text. -/
def TextAt (ms : List (String × Term)) (name s : String) : Prop :=
  ∃ v, Holds ms name v ∧ v.IsText s

/-- A text that is empty if it is left out. -/
def TextAtOrEmpty (ms : List (String × Term)) (name s : String) : Prop :=
  TextAt ms name s ∨ Lacks ms name ∧ s = ""

/-- A list, which may be left out or be `null` if it is empty. -/
def ListAt {α : Type} (R : Term → α → Prop) (ms : List (String × Term)) (name : String)
    (xs : List α) : Prop :=
  (∃ v, Holds ms name v ∧ v.IsArrayOf R xs) ∨
    xs = [] ∧ (Lacks ms name ∨ ∃ v, Holds ms name v ∧ v.IsNull)

variable {ms : List (String × Term)} {name : String}

theorem Lacks.filter_eq_nil (h : Lacks ms name) :
    (namedValues ms).filter (fun m => m.1 == some name) = [] := by
  rw [List.filter_eq_nil_iff]
  intro m hm
  obtain ⟨n, hn, rfl⟩ := List.mem_map.mp hm
  simpa using h n hn

theorem Lacks.only? (h : Lacks ms name) : Value.only? name (namedValues ms) = some none := by
  rw [Value.only?, h.filter_eq_nil]

theorem Holds.only? {v : Term} (h : Holds ms name v) :
    Value.only? name (namedValues ms) = some (some v.value) := by
  obtain ⟨before, behind, rfl, hothers⟩ := h
  have hbefore : Lacks before name := fun m hm => hothers m (List.mem_append_left _ hm)
  have hbehind : Lacks behind name := fun m hm => hothers m (List.mem_append_right _ hm)
  have hfilter : (namedValues (before ++ (name, v) :: behind)).filter
      (fun m => m.1 == some name) = [(some name, v.value)] := by
    rw [namedValues, List.map_append, List.map_cons, List.filter_append]
    change (namedValues before).filter _ ++ (_ :: namedValues behind).filter _ = _
    rw [hbefore.filter_eq_nil, List.filter_cons_of_pos (by exact beq_self_eq_true (some name)),
      hbehind.filter_eq_nil, List.nil_append]
  rw [Value.only?, hfilter]

theorem TextAtOrEmpty.exists_only? {s : String} (h : TextAtOrEmpty ms name s) :
    ∃ v, Value.only? name (namedValues ms) = some v ∧ Value.textField? v = some s := by
  rcases h with ⟨v, hv, hs⟩ | ⟨hlacks, rfl⟩
  · exact ⟨_, hv.only?, hs.text?_value⟩
  · exact ⟨none, hlacks.only?, rfl⟩

theorem ListAt.exists_only? {α : Type} {R : Term → α → Prop} {read : Value → Option α}
    (hread : ∀ {t a}, R t a → read t.value = some a) {xs : List α} (h : ListAt R ms name xs) :
    ∃ v, Value.only? name (namedValues ms) = some v ∧ Value.listField? read v = some xs := by
  rcases h with ⟨v, hv, ts, hitems, hts⟩ | ⟨rfl, hlacks | ⟨v, hv, hnull⟩⟩
  · refine ⟨_, hv.only?, ?_⟩
    rw [Term.value_of_items? hitems]
    exact mapM_of_forall₂ hread hts
  · exact ⟨none, hlacks.only?, rfl⟩
  · refine ⟨_, hv.only?, ?_⟩
    rw [hnull.value_eq]
    rfl

/-- The fields of a record are looked up one by one. -/
theorem Term.IsObjectOf.fields? {t : Term} (h : t.IsObjectOf ms) (names : List String) :
    t.value.fields? names = names.mapM fun name => Value.only? name (namedValues ms) := by
  have hnamed : ((namedValues ms).all fun m => m.1.isSome) = true := by
    rw [List.all_eq_true]
    intro m hm
    obtain ⟨n, _, rfl⟩ := List.mem_map.mp hm
    rfl
  rw [h.value_eq, Value.fields?, if_pos hnamed]

end Json
end LintLocator
