import LintLocator.Proofs.Path.Conditions
import LintLocator.Proofs.Path.Nesting
import LintLocator.Proofs.Path.Scanning
import LintLocator.Proofs.Path.Spelling

/-!
# The rules that paths follow

A path leads from node to node, each a child of the one before it that a step chooses, or there is a
first step that chooses none, and one cause why.  Both are laid down here as rules, in the manner of
a big-step semantics: for steps and for rows of steps, and for the conditions in predicates, whose
comparisons hold paths again.  The rules name no order in which anything is looked at, and they do
not mention the functions that follow a path.

* `Selector.Chooses`, `Selector.Leads`, `Condition.Decides`: the rules for success;
* `Selector.Refuses`, `Selector.Strays`, `Condition.Fails`: the rules for failure;
* `FollowsRules`: something comes to what rules say, and the rules have something to say of it;
* `Selector.Exact`, `Condition.Exact`: steps and conditions follow their rules, each kind of them if
  those inside of it do;
* `Path.lookup_iff_leads_or_strays`: a look-up comes to what the rules say, whatever the path.
-/

namespace LintLocator

/-! ## The rules -/

/-- A name counts an item of a sequence if it is made of digits and its value fits a word. -/
structure CountsItem (name : String) (place : Nat) : Prop where
  nonempty : name ≠ ""
  digits : ∀ d ∈ name.toList, '0' ≤ d ∧ d ≤ '9'
  fits : Decimal.value name.toList < 2 ^ 64
  value : place = Decimal.value name.toList

/-- Why a name counts no item. -/
inductive CountsNothing (name : String) : Prop where
  | empty (h : name = "")
  | notDigit {d : Char} (mem : d ∈ name.toList) (h : ¬ ('0' ≤ d ∧ d ≤ '9'))
  | tooLarge (h : 2 ^ 64 ≤ Decimal.value name.toList)

mutual

/-- A step chooses a child of a node. -/
inductive Selector.Chooses : Selector → Tree → Tree → Prop where
  /-- The value of the first entry whose key has the text. -/
  | value {name : String} {before after : List (Tree × Tree)} {key u : Tree} {pos : Position}
      (others : ∀ e ∈ before, e.1.text ≠ name) (text : key.text = name) :
      Selector.Chooses (.property name) (.mapping (before ++ (key, u) :: after) pos) u
  /-- The item that a name counts. -/
  | counted {name : String} {place : Nat} {items : List Tree} {u : Tree} {pos : Position}
      (counts : CountsItem name place) (item : items[place]? = some u) :
      Selector.Chooses (.property name) (.sequence items pos) u
  /-- The item at a place. -/
  | item {place : Nat} {items : List Tree} {u : Tree} {pos : Position}
      (item : items[place]? = some u) :
      Selector.Chooses (.index place) (.sequence items pos) u
  /-- The first item of which a condition is true, which has to be false of those before it. -/
  | first {c : Condition} {before after : List Tree} {u : Tree} {pos : Position}
      (missed : ∀ v ∈ before, Condition.Decides c v false) (meets : Condition.Decides c u true) :
      Selector.Chooses (.predicate c) (.sequence (before ++ u :: after) pos) u

/-- Steps lead from a node to a node, by way of the children that they choose. -/
inductive Selector.Leads : List Selector → Tree → Tree → Prop where
  | nil {t : Tree} : Selector.Leads [] t t
  | cons {s : Selector} {ss : List Selector} {t u v : Tree}
      (step : Selector.Chooses s t u) (rest : Selector.Leads ss u v) : Selector.Leads (s :: ss) t v

/-- A condition is true or false of a node. -/
inductive Condition.Decides : Condition → Tree → Bool → Prop where
  | any {members : List Condition} {t : Tree} {bs : List Bool}
      (each : Condition.DecidesEach members t bs) : Condition.Decides (.any members) t (bs.any id)
  | all {members : List Condition} {t : Tree} {bs : List Bool}
      (each : Condition.DecidesEach members t bs) : Condition.Decides (.all members) t (bs.all id)
  | equals {path : Path} {literal source : String} {t u : Tree}
      (leads : Selector.Leads path.selectors t u) :
      Condition.Decides (.equals path literal source) t (u.text == literal)

/-- Each of several conditions is true or false of a node. -/
inductive Condition.DecidesEach : List Condition → Tree → List Bool → Prop where
  | nil {t : Tree} : Condition.DecidesEach [] t []
  | cons {c : Condition} {cs : List Condition} {t : Tree} {b : Bool} {bs : List Bool}
      (head : Condition.Decides c t b) (tail : Condition.DecidesEach cs t bs) :
      Condition.DecidesEach (c :: cs) t (b :: bs)

end

mutual

/-- A step chooses no child of a node, and why. -/
inductive Selector.Refuses : Selector → Tree → LookupError.Cause → Prop where
  | noChild {name : String} {entries : List (Tree × Tree)} {pos : Position}
      (others : ∀ e ∈ entries, e.1.text ≠ name) :
      Selector.Refuses (.property name) (.mapping entries pos) (.noChild name)
  | notAnIndex {name : String} {items : List Tree} {pos : Position} (h : CountsNothing name) :
      Selector.Refuses (.property name) (.sequence items pos) (.notAnIndex name)
  | countedOutOfRange {name : String} {place : Nat} {items : List Tree} {pos : Position}
      (counts : CountsItem name place) (beyond : items.length ≤ place) :
      Selector.Refuses (.property name) (.sequence items pos) (.indexOutOfRange place items.length)
  | expectedContainer {name text : String} {pos : Position} :
      Selector.Refuses (.property name) (.scalar text pos) (.expectedContainer .scalar)
  | outOfRange {place : Nat} {items : List Tree} {pos : Position} (beyond : items.length ≤ place) :
      Selector.Refuses (.index place) (.sequence items pos) (.indexOutOfRange place items.length)
  | expectedSequence {place : Nat} {t : Tree} (kind : t.kind ≠ .sequence) :
      Selector.Refuses (.index place) t (.expectedSequence t.kind)
  | expectedSequenceOfItems {c : Condition} {t : Tree} (kind : t.kind ≠ .sequence) :
      Selector.Refuses (.predicate c) t (.expectedSequence t.kind)
  /-- A condition is false of some items, and cannot be decided on the one behind them. -/
  | undecided {c : Condition} {before after : List Tree} {u : Tree} {inner : LookupError}
      {pos : Position} (missed : ∀ v ∈ before, Condition.Decides c v false)
      (fails : Condition.Fails c u inner) :
      Selector.Refuses (.predicate c) (.sequence (before ++ u :: after) pos)
        (.predicate before.length inner)
  | noMatch {c : Condition} {items : List Tree} {pos : Position}
      (missed : ∀ v ∈ items, Condition.Decides c v false) :
      Selector.Refuses (.predicate c) (.sequence items pos) (.noMatch c.render)

/-- Steps lead to a node, and the next step chooses none of its children.  The error has the number
of the step, the step as it is written, the position of the node and the cause. -/
inductive Selector.Strays : List Selector → Tree → LookupError → Prop where
  | step {ss before after : List Selector} {s : Selector} {t u : Tree} {cause : LookupError.Cause}
      (split : ss = before ++ s :: after) (leads : Selector.Leads before t u)
      (refuses : Selector.Refuses s u cause) :
      Selector.Strays ss t ⟨before.length, s.render, u.pos, cause⟩

/-- A condition cannot be decided on a node, and the error. -/
inductive Condition.Fails : Condition → Tree → LookupError → Prop where
  | any {members : List Condition} {t : Tree} {e : LookupError}
      (fails : Condition.FailsAmong members t e) : Condition.Fails (.any members) t e
  | all {members : List Condition} {t : Tree} {e : LookupError}
      (fails : Condition.FailsAmong members t e) : Condition.Fails (.all members) t e
  | equals {path : Path} {literal source : String} {t : Tree} {e : LookupError}
      (strays : Selector.Strays path.selectors t e) :
      Condition.Fails (.equals path literal source) t e

/-- One of several conditions cannot be decided on a node, but those before it can. -/
inductive Condition.FailsAmong : List Condition → Tree → LookupError → Prop where
  | head {c : Condition} {cs : List Condition} {t : Tree} {e : LookupError}
      (fails : Condition.Fails c t e) : Condition.FailsAmong (c :: cs) t e
  | tail {c : Condition} {cs : List Condition} {t : Tree} {b : Bool} {e : LookupError}
      (head : Condition.Decides c t b) (fails : Condition.FailsAmong cs t e) :
      Condition.FailsAmong (c :: cs) t e

end

/-! ## What follows rules -/

/-- Something comes to what rules say of it, and they have something to say. -/
structure FollowsRules {ε α : Type} (x : Except ε α) (succeeds : α → Prop) (fails : ε → Prop) :
    Prop where
  ok {a : α} (h : succeeds a) : x = .ok a
  error {e : ε} (h : fails e) : x = .error e
  total : (∃ a, succeeds a) ∨ ∃ e, fails e

namespace FollowsRules

variable {ε α : Type} {x : Except ε α} {succeeds : α → Prop} {fails : ε → Prop}

theorem ok_iff (h : FollowsRules x succeeds fails) {a : α} : x = .ok a ↔ succeeds a := by
  refine ⟨fun hx => ?_, h.ok⟩
  obtain ⟨b, hb⟩ | ⟨e, he⟩ := h.total
  · obtain rfl := Except.ok.inj (hx.symm.trans (h.ok hb))
    exact hb
  · cases hx.symm.trans (h.error he)

theorem error_iff (h : FollowsRules x succeeds fails) {e : ε} : x = .error e ↔ fails e := by
  refine ⟨fun hx => ?_, h.error⟩
  obtain ⟨b, hb⟩ | ⟨d, hd⟩ := h.total
  · cases hx.symm.trans (h.ok hb)
  · obtain rfl := Except.error.inj (hx.symm.trans (h.error hd))
    exact hd

/-- Rules do not say two things of something that follows them. -/
theorem unique (h : FollowsRules x succeeds fails) {e : ε} (he : fails e) :
    (∀ a, ¬ succeeds a) ∧ ∀ d, fails d → d = e := by
  constructor
  · intro a ha
    cases (h.ok ha).symm.trans (h.error he)
  · intro d hd
    exact Except.error.inj ((h.error hd).symm.trans (h.error he))

end FollowsRules

/-- A step follows the rules on every node. -/
def Selector.Exact (s : Selector) : Prop :=
  ∀ t, FollowsRules (s.apply t) (s.Chooses t) (s.Refuses t)

/-- A condition follows the rules on every node. -/
def Condition.Exact (c : Condition) : Prop :=
  ∀ t, FollowsRules (c.holds t) (c.Decides t) (c.Fails t)

/-! ## Plain steps -/

theorem countsItem_iff {name : String} {place : Nat} :
    CountsItem name place ↔ Decimal.index? name.toList = some place := by
  have hfits : Decimal.value name.toList < 2 ^ 64 ↔ Decimal.value name.toList ≤ 2 ^ 64 - 1 := by
    omega
  rw [Selector.Spelling.index?_eq_some_iff, ← hfits, Ne, String.toList_eq_nil_iff]
  constructor
  · rintro ⟨hne, hdigits, hvalue, hplace⟩
    exact ⟨hne, hdigits, hvalue, hplace⟩
  · rintro ⟨hne, hdigits, hvalue, hplace⟩
    exact ⟨hne, hdigits, hvalue, hplace⟩

/-- A name counts an item or there is a reason why not, but not both. -/
theorem countsNothing_iff {name : String} :
    CountsNothing name ↔ Decimal.index? name.toList = none := by
  constructor
  · intro h
    cases hindex : Decimal.index? name.toList with
    | none => rfl
    | some place =>
      obtain ⟨hne, hdigits, hvalue, -⟩ := countsItem_iff.mpr hindex
      cases h with
      | empty h => exact absurd h hne
      | notDigit mem h => exact absurd (hdigits _ mem) h
      | tooLarge h => omega
  · intro hindex
    by_contra h
    have hcounts : CountsItem name (Decimal.value name.toList) := by
      refine ⟨fun hempty => h (.empty hempty), fun d hd => ?_, ?_, rfl⟩
      · by_contra hdigit
        exact h (.notDigit hd hdigit)
      · by_contra hlarge
        exact h (.tooLarge (by omega))
    rw [countsItem_iff.mp hcounts] at hindex
    cases hindex

theorem Tree.entry?_eq_none_iff {key : String} {entries : List (Tree × Tree)} :
    Tree.entry? key entries = none ↔ ∀ e ∈ entries, e.1.text ≠ key := by
  simp [Tree.entry?]

/-- The first entry with a key is the one that is found. -/
theorem Tree.entry?_append_cons {name : String} {before : List (Tree × Tree)} {key u : Tree}
    (others : ∀ e ∈ before, e.1.text ≠ name) (text : key.text = name)
    (after : List (Tree × Tree)) : Tree.entry? name (before ++ (key, u) :: after) = some u := by
  have hbefore : before.find? (fun e => e.1.text == name) = none := by simpa using others
  rw [Tree.entry?, List.find?_append, hbefore, Option.none_or,
    List.find?_cons_of_pos (by simpa using text), Option.map_some]

/-- A key stands in no entry, or there is a first entry in which it stands. -/
theorem Tree.forall_others_or_exists (name : String) (entries : List (Tree × Tree)) :
    (∀ e ∈ entries, e.1.text ≠ name) ∨ ∃ before key u after,
      entries = before ++ (key, u) :: after ∧ (∀ e ∈ before, e.1.text ≠ name) ∧
        key.text = name := by
  cases h : entries.find? fun e => e.1.text == name with
  | none => exact .inl (by simpa using h)
  | some e =>
    obtain ⟨htext, before, after, rfl, hbefore⟩ := List.find?_eq_some_iff_append.mp h
    exact .inr ⟨before, e.1, e.2, after, rfl, by simpa using hbefore, by simpa using htext⟩

namespace Selector

theorem item_of_getElem? {items : List Tree} {place : Nat} {u : Tree}
    (h : items[place]? = some u) : item items place = .ok u := by
  rw [item, h]

theorem item_of_length_le {items : List Tree} {place : Nat} (h : items.length ≤ place) :
    item items place = .error (.indexOutOfRange place items.length) := by
  rw [item, List.getElem?_eq_none h]

theorem itemsOf_of_kind_ne {t : Tree} (h : t.kind ≠ .sequence) :
    itemsOf t = .error (.expectedSequence t.kind) := by
  cases t with
  | sequence => exact absurd rfl h
  | scalar => rfl
  | mapping => rfl

theorem exact_property (name : String) : (property name).Exact := by
  intro t
  constructor
  · intro u h
    rw [apply_property]
    cases h with
    | value others text => rw [child, Tree.entry?_append_cons others text]
    | counted counts item =>
      rw [child, countsItem_iff.mp counts]
      exact item_of_getElem? item
  · intro cause h
    rw [apply_property]
    cases h with
    | noChild others => rw [child, Tree.entry?_eq_none_iff.mpr others]
    | notAnIndex h => rw [child, countsNothing_iff.mp h]
    | countedOutOfRange counts beyond =>
      rw [child, countsItem_iff.mp counts]
      exact item_of_length_le beyond
    | expectedContainer => rw [child]
  · cases t with
    | scalar => exact .inr ⟨_, .expectedContainer⟩
    | mapping entries =>
      obtain hnone | ⟨before, key, u, after, rfl, others, text⟩ :=
        Tree.forall_others_or_exists name entries
      · exact .inr ⟨_, .noChild hnone⟩
      · exact .inl ⟨u, .value others text⟩
    | sequence items =>
      cases hindex : Decimal.index? name.toList with
      | none => exact .inr ⟨_, .notAnIndex (countsNothing_iff.mpr hindex)⟩
      | some place =>
        have hcounts : CountsItem name place := countsItem_iff.mpr hindex
        cases hitem : items[place]? with
        | none => exact .inr ⟨_, .countedOutOfRange hcounts (List.getElem?_eq_none_iff.mp hitem)⟩
        | some u => exact .inl ⟨u, .counted hcounts hitem⟩

theorem exact_index (place : Nat) : (index place).Exact := by
  intro t
  constructor
  · intro u h
    cases h with
    | item item =>
      rw [apply_index, itemsOf]
      exact item_of_getElem? item
  · intro cause h
    cases h with
    | outOfRange beyond =>
      rw [apply_index, itemsOf]
      exact item_of_length_le beyond
    | expectedSequence kind => rw [apply_index, itemsOf_of_kind_ne kind]
  · by_cases hkind : t.kind = .sequence
    · cases t with
      | scalar => cases hkind
      | mapping => cases hkind
      | sequence items =>
        cases hitem : items[place]? with
        | none => exact .inr ⟨_, .outOfRange (List.getElem?_eq_none_iff.mp hitem)⟩
        | some u => exact .inl ⟨u, .item hitem⟩
    · exact .inr ⟨_, .expectedSequence hkind⟩

/-! ## Predicates -/

/-- A predicate follows the rules if its condition does. -/
theorem exact_predicate {c : Condition} (hc : c.Exact) : (predicate c).Exact := by
  have hmissed : ∀ {items : List Tree}, (∀ v ∈ items, c.Decides v false) ↔
      ∀ v ∈ items, c.holds v = .ok false := by
    intro items
    simp only [(hc _).ok_iff]
  intro t
  constructor
  · intro u h
    cases h with
    | first missed meets =>
      rw [apply_predicate_eq]
      exact firstMatch_of_true (hmissed.mp missed) ((hc u).ok meets)
  · intro cause h
    cases h with
    | expectedSequenceOfItems kind => rw [apply_predicate, itemsOf_of_kind_ne kind]
    | @undecided _ before after u inner pos missed fails =>
      rw [apply_predicate_eq, firstMatch_of_error (hmissed.mp missed) ((hc u).error fails),
        Nat.zero_add]
    | noMatch missed =>
      rw [apply_predicate_eq]
      exact firstMatch_of_missed (hmissed.mp missed)
  · by_cases hkind : t.kind = .sequence
    · cases t with
      | scalar => cases hkind
      | mapping => cases hkind
      | sequence items =>
        obtain hall | ⟨before, u, after, rfl, hbefore, hu⟩ |
          ⟨before, u, after, inner, rfl, hbefore, hu⟩ :=
            missed_or_found_or_undecided (fun v => c.holds v) items
        · exact .inr ⟨_, .noMatch (hmissed.mpr hall)⟩
        · exact .inl ⟨u, .first (hmissed.mpr hbefore) ((hc u).ok_iff.mp hu)⟩
        · exact .inr ⟨_, .undecided (hmissed.mpr hbefore) ((hc u).error_iff.mp hu)⟩
    · exact .inr ⟨_, .expectedSequenceOfItems hkind⟩

/-! ## Steps in a row -/

theorem not_strays_nil {t : Tree} {e : LookupError} : ¬ Strays [] t e := by
  rintro ⟨split, -, -⟩
  simp at split

/-- Steps stray at the first of them or behind it, and errors behind it count it. -/
theorem strays_cons_iff {s : Selector} {ss : List Selector} {t : Tree} {e : LookupError} :
    Strays (s :: ss) t e ↔
      (∃ cause, s.Refuses t cause ∧ e = ⟨0, s.render, t.pos, cause⟩) ∨
        ∃ u d, s.Chooses t u ∧ Strays ss u d ∧ e = { d with step := d.step + 1 } := by
  constructor
  · intro h
    cases h with
    | @step _ before after r _ u cause split leads refuses =>
      -- either no step was taken before the one that refuses, or `s` was the first
      cases leads with
      | nil =>
        obtain ⟨rfl, -⟩ := List.cons.inj split
        exact .inl ⟨cause, refuses, rfl⟩
      | cons step rest =>
        obtain ⟨rfl, hss⟩ := List.cons.inj split
        exact .inr ⟨_, _, step, .step hss rest refuses, rfl⟩
  · rintro (⟨cause, hrefuses, rfl⟩ | ⟨u, d, hchooses, hstrays, rfl⟩)
    · exact @Strays.step (s :: ss) [] ss s t t cause rfl .nil hrefuses
    · cases hstrays with
      | step split leads refuses =>
        exact .step (congrArg (List.cons s) split) (.cons hchooses leads) refuses

/-- Steps that follow the rules do so in a row.  The first of them may have any number, which all
errors then count. -/
theorem applyAll_followsRules {ss : List Selector} (hss : ∀ s ∈ ss, s.Exact) (n : Nat) (t : Tree) :
    FollowsRules (applyAll ss n t) (Leads ss t) fun e =>
      ∃ d, Strays ss t d ∧ e = { d with step := n + d.step } := by
  -- each step hands the next one another node and a number that is greater by one
  induction ss generalizing n t with
  | nil =>
    refine ⟨fun h => ?_, fun h => ?_, .inl ⟨t, .nil⟩⟩
    · cases h
      rw [applyAll_nil]
    · obtain ⟨d, hd, -⟩ := h
      exact absurd hd not_strays_nil
  | cons s ss ih =>
    obtain ⟨hs, hss⟩ := List.forall_mem_cons.mp hss
    refine ⟨fun h => ?_, fun h => ?_, ?_⟩
    · cases h with
      | cons step rest =>
        rw [applyAll_cons, (hs t).ok step]
        exact (ih hss (n + 1) _).ok rest
    · obtain ⟨d, hd, rfl⟩ := h
      obtain ⟨cause, hrefuses, rfl⟩ | ⟨u, d, hchooses, hstrays, rfl⟩ := strays_cons_iff.mp hd
      · rw [applyAll_cons, (hs t).error hrefuses]
        rfl
      · rw [applyAll_cons, (hs t).ok hchooses]
        exact (ih hss (n + 1) u).error ⟨d, hstrays, by rw [Nat.add_assoc, Nat.add_comm 1]⟩
    · obtain ⟨u, hu⟩ | ⟨cause, hcause⟩ := (hs t).total
      · obtain ⟨v, hv⟩ | ⟨e, d, hd, -⟩ := (ih hss (n + 1) u).total
        · exact .inl ⟨v, .cons hu hv⟩
        · exact .inr ⟨_, _, strays_cons_iff.mpr (.inr ⟨u, d, hu, hd, rfl⟩), rfl⟩
      · exact .inr ⟨_, _, strays_cons_iff.mpr (.inl ⟨cause, hcause, rfl⟩), rfl⟩

end Selector

/-- A path follows the rules if its steps do. -/
theorem Path.lookup_followsRules {p : Path} (hp : ∀ s ∈ p.selectors, s.Exact) (t : Tree) :
    FollowsRules (p.lookup t) (Selector.Leads p.selectors t) (Selector.Strays p.selectors t) := by
  have hrow := Selector.applyAll_followsRules hp 0 t
  rw [Path.lookup_eq]
  refine ⟨hrow.ok, fun {e} he => hrow.error ⟨e, he, ?_⟩, ?_⟩
  · cases e
    rw [Nat.zero_add]
  obtain hok | ⟨-, d, hd, -⟩ := hrow.total
  · exact .inl hok
  · exact .inr ⟨d, hd⟩

/-! ## Conditions -/

namespace Condition

/-- Conditions that follow the rules do so in a row. -/
theorem holdsEach_followsRules {cs : List Condition} (hcs : ∀ c ∈ cs, c.Exact) (t : Tree) :
    FollowsRules (holdsEach cs t) (DecidesEach cs t) (FailsAmong cs t) := by
  induction cs with
  | nil =>
    refine ⟨fun h => ?_, fun h => ?_, .inl ⟨_, .nil⟩⟩
    · cases h
      rw [holdsEach_nil]
    · cases h
  | cons c cs ih =>
    obtain ⟨hc, hcs⟩ := List.forall_mem_cons.mp hcs
    refine ⟨fun h => ?_, fun h => ?_, ?_⟩
    · cases h with
      | cons head tail => rw [holdsEach_cons, (hc t).ok head, (ih hcs).ok tail]
    · cases h with
      | head fails => rw [holdsEach_cons, (hc t).error fails]
      | tail head fails => rw [holdsEach_cons, (hc t).ok head, (ih hcs).error fails]
    · obtain ⟨b, hb⟩ | ⟨e, he⟩ := (hc t).total
      · obtain ⟨bs, hbs⟩ | ⟨e, he⟩ := (ih hcs).total
        · exact .inl ⟨_, .cons hb hbs⟩
        · exact .inr ⟨e, .tail hb he⟩
      · exact .inr ⟨e, .head he⟩

theorem exact_any {members : List Condition} (h : ∀ c ∈ members, c.Exact) :
    (Condition.any members).Exact := by
  intro t
  have heach := holdsEach_followsRules h t
  refine ⟨fun hb => ?_, fun he => ?_, ?_⟩
  · cases hb with
    | any each => rw [holds_any, heach.ok each]
  · cases he with
    | any fails => rw [holds_any, heach.error fails]
  · obtain ⟨bs, hbs⟩ | ⟨e, he⟩ := heach.total
    · exact .inl ⟨_, .any hbs⟩
    · exact .inr ⟨e, .any he⟩

theorem exact_all {members : List Condition} (h : ∀ c ∈ members, c.Exact) :
    (Condition.all members).Exact := by
  intro t
  have heach := holdsEach_followsRules h t
  refine ⟨fun hb => ?_, fun he => ?_, ?_⟩
  · cases hb with
    | all each => rw [holds_all, heach.ok each]
  · cases he with
    | all fails => rw [holds_all, heach.error fails]
  · obtain ⟨bs, hbs⟩ | ⟨e, he⟩ := heach.total
    · exact .inl ⟨_, .all hbs⟩
    · exact .inr ⟨e, .all he⟩

/-- A comparison follows the rules if the steps of its path do. -/
theorem exact_equals {path : Path} (h : ∀ s ∈ path.selectors, s.Exact) (literal source : String) :
    (Condition.equals path literal source).Exact := by
  intro t
  have hpath := Path.lookup_followsRules h t
  refine ⟨fun hb => ?_, fun he => ?_, ?_⟩
  · cases hb with
    | equals leads => rw [holds_equals, hpath.ok leads]
  · cases he with
    | equals strays => rw [holds_equals, hpath.error strays]
  · obtain ⟨u, hu⟩ | ⟨e, he⟩ := hpath.total
    · exact .inl ⟨_, .equals hu⟩
    · exact .inr ⟨e, .equals he⟩

end Condition

/-! ## Look-ups -/

/-- Every step follows the rules. -/
theorem Selector.exact (s : Selector) : s.Exact :=
  (Selector.induction exact_property exact_index (fun _ hc => exact_predicate hc)
    (fun _ h => Condition.exact_any h) (fun _ h => Condition.exact_all h)
    fun _ literal source h => Condition.exact_equals h literal source).1 s

/-- **A look-up comes to what the rules say.**  It reaches a node just if the steps lead there, each
to the child that it chooses.  It fails just if the first steps lead to a node and the next one
refuses it, and the error says which step that is, how it is written, where the node stands and why.
A node that a step refuses has no child that the step chooses, and there is one cause only. -/
theorem Path.lookup_iff_leads_or_strays (p : Path) (t : Tree) :
    (∀ u, p.lookup t = .ok u ↔ Selector.Leads p.selectors t u) ∧
      (∀ e, p.lookup t = .error e ↔ Selector.Strays p.selectors t e) ∧
      ∀ s u cause, Selector.Refuses s u cause →
        (∀ v, ¬ Selector.Chooses s u v) ∧ ∀ cause', Selector.Refuses s u cause' → cause' = cause := by
  have h := Path.lookup_followsRules (fun s (_ : s ∈ p.selectors) => s.exact) t
  exact ⟨fun _ => h.ok_iff, fun _ => h.error_iff, fun s u _ hcause => (s.exact u).unique hcause⟩

/-- A name that is no index fails at the step that it is, and with the position of the sequence. -/
example (p q r : Position) (items : List Tree) :
    (⟨.absolute, [.property "a", .property "b"]⟩ : Path).lookup
      (.mapping [(.scalar "a" p, .sequence items q)] r) =
        .error ⟨1, ".b", q, .notAnIndex "b"⟩ := by rfl

end LintLocator
