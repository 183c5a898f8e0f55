import LintLocator.Proofs.FileTree.Routes
import LintLocator.Proofs.Glob.Escaping
import Mathlib.Data.List.Forall2

/-!
# The ways along which a pattern is searched for

Part by part, a search goes along rows of steps.  Most parts are one step; a part behind `**` is a row
of names of which the last is compared with the part, and `**` at the end of a pattern is any row of
names to a folder.  Together these rows are the way to what is found, and the way gives it its name.
So what a pattern leads to can be said without the search: all that is reached along a row of steps
for each part.

* `Glob.search_eq`: a search goes along ways;
* `Glob.mem_ways_iff`: these are all the ways that fit the pattern and lead anywhere;
* `Glob.Outset.expand_eq_names`: what is found is named by the way to it.
-/

namespace LintLocator
namespace Glob

open FileTree (routes lastName IsName)

/-! ## Moves -/

/-- How the parts of a pattern are searched for: one step, all folders below, or a part behind `**`
which is compared with the names of everything below. -/
inductive Move where
  | name (tokens : List Token)
  | folders
  | deep (part : Part)
  deriving DecidableEq, Repr

def moves : List Part → List Move
  | [] => []
  | .name tokens :: parts => .name tokens :: moves parts
  | [.folders] => [.folders]
  | .folders :: part :: parts => .deep part :: moves parts

/-- The steps that tokens stand for in a folder, in the order in which they are tried. -/
def stepNames (tokens : List Token) (t : FileTree) : List String :=
  match literal? tokens with
  | some text => [String.ofList text]
  | none => dots tokens ++ (t.entries.map Prod.fst).filter fun name => matchName tokens name.toList

/-- The rows of steps that a move tries. -/
def Move.rows (t : FileTree) : Move → List (List String)
  | .name tokens => (stepNames tokens t).map ([·])
  | .folders => routes t
  | .deep part => (routes t).filter fun r => part.accepts (lastName r)

/-- The places that a move leads to. -/
def Move.reach (m : Move) (p : Place) : List (List String × Place) :=
  (m.rows p.here).filterMap p.along?

/-- A row of steps for each move. -/
abbrev Way := List (List String)

/-- The ways that moves go from a place, and the places at their ends. -/
def ways : List Move → Place → List (Way × Place)
  | [], p => [([], p)]
  | m :: ms, p => (m.reach p).flatMap fun s => (ways ms s.2).map fun w => (s.1 :: w.1, w.2)

@[simp] theorem ways_nil (p : Place) : ways [] p = [([], p)] := rfl

theorem ways_cons (m : Move) (ms : List Move) (p : Place) :
    ways (m :: ms) p =
      (m.reach p).flatMap fun s => (ways ms s.2).map fun w => (s.1 :: w.1, w.2) := rfl

/-! ## Searching is going along ways -/

variable {p q : Place} {tokens : List Token} {r : List String}

theorem mem_reach_iff {m : Move} :
    (r, q) ∈ m.reach p ↔ r ∈ m.rows p.here ∧ Place.walk? r p = some q := by
  rw [Move.reach, List.mem_filterMap]
  constructor
  · rintro ⟨r', hr', halong⟩
    obtain ⟨rfl, hwalk⟩ := Place.along?_eq_some_iff.mp halong
    exact ⟨hr', hwalk⟩
  · rintro ⟨hr, hwalk⟩
    exact ⟨r, hr, Place.along?_eq_some_iff.mpr ⟨rfl, hwalk⟩⟩

theorem matching_eq (hp : p.WellFormed) (tokens : List Token) :
    matching tokens p = ((Move.name tokens).reach p).map Prod.snd := by
  have hstep : (fun s : String => Place.walk? [s] p) = p.step? :=
    funext fun s => Place.walk?_singleton s p
  rw [Move.reach, Move.rows, Place.map_snd_along?, List.filterMap_map, matching, stepNames]
  cases hliteral : literal? tokens with
  | some text =>
    rw [Function.comp_def, hstep]
    cases hto : p.step? (String.ofList text) <;> simp [hto]
  | none =>
    rw [Function.comp_def, hstep]
    cases hfolder : p.isFolder with
    | false =>
      have hnone : p.step? = fun _ => none := funext fun s => Place.step?_of_file hfolder s
      simp [hnone]
    | true =>
      have hentries : (p.here.entries.map Prod.fst).filterMap
          (fun s => if matchName tokens s.toList then p.step? s else none) =
          (p.children.filter fun c => matchName tokens c.1.toList).map Prod.snd := by
        rw [Place.children, List.filterMap_map, List.filter_map, List.map_map, ← List.filterMap_eq_map,
          List.filterMap_filter]
        refine List.filterMap_congr fun e he => ?_
        obtain ⟨name, t⟩ := e
        simp only [Function.comp_apply, FileTree.step?_of_mem hp.here he]
      simp only [if_true, List.filterMap_append, List.filterMap_filter, hentries]

theorem below_folders (hp : p.WellFormed) :
    p.below.map Prod.snd = (Move.folders.reach p).map Prod.snd := by
  rw [Place.below_eq hp, List.map_map]
  rfl

theorem below_deep (hp : p.WellFormed) (part : Part) :
    (p.below.filter fun c => part.accepts c.1).map Prod.snd =
      ((Move.deep part).reach p).map Prod.snd := by
  rw [Place.below_eq hp, Move.reach, Move.rows, List.filterMap_filter, List.filter_map, List.map_map,
    List.filter_filterMap, Function.comp_def]
  congr 1
  refine List.filterMap_congr fun r _ => ?_
  rw [Place.along?]
  cases Place.walk? r p <;> simp [Option.filter]

/-- What is wanted at the end of moves: folders, if the last of them is `**`. -/
def keeps (ms : List Move) (p : Place) : Bool := !ms.contains .folders || p.isFolder

/-- One move, and then the search for the other parts. -/
theorem flatMap_search {m : Move} {ms : List Move} {parts : List Part} (hp : p.WellFormed)
    (hm : m ≠ .folders)
    (ih : ∀ q : Place, q.WellFormed →
      search parts q = ((ways ms q).filter fun w => keeps ms w.2).map Prod.snd) :
    ((m.reach p).map Prod.snd).flatMap (search parts) =
      ((ways (m :: ms) p).filter fun w => keeps (m :: ms) w.2).map Prod.snd := by
  have hkeeps : keeps (m :: ms) = keeps ms := by
    funext q
    simp [keeps, hm.symm]
  rw [ways_cons, hkeeps, List.filter_flatMap, List.map_flatMap, List.flatMap_map]
  refine List.flatMap_congr fun s hs => ?_
  obtain ⟨-, hwalk⟩ := mem_reach_iff.mp hs
  rw [ih _ (hp.walk? hwalk), List.filter_map, List.map_map]
  rfl

/-- **A search goes along ways.** -/
theorem search_eq (hp : p.WellFormed) (parts : List Part) :
    search parts p = ((ways (moves parts) p).filter fun w => keeps (moves parts) w.2).map Prod.snd := by
  induction parts using moves.induct generalizing p with
  | case1 => simp [search, moves, keeps]
  | case2 tokens parts ih =>
    rw [search, matching_eq hp, moves]
    exact flatMap_search hp (by simp) fun q hq => ih hq
  | case3 =>
    have hways : ways [.folders] p = (Move.folders.reach p).map fun s => ([s.1], s.2) := by
      rw [ways_cons, ← List.flatMap_pure_eq_map]
      rfl
    rw [search, below_folders hp, moves, hways, List.filter_map, List.filter_map, List.map_map]
    rfl
  | case4 part parts ih =>
    rw [search, below_deep hp, moves]
    exact flatMap_search hp (by simp) fun q hq => ih hq

/-! ## Ways that fit a pattern -/

/-- A row of steps fits a move.  Only a part that stands for one name, or one that begins with a dot,
goes along steps that are no names. -/
def Move.Fits (r : List String) : Move → Prop
  | .name tokens => ∃ s, r = [s] ∧ matchName tokens s.toList = true ∧
      ((literal? tokens).isSome ∨ IsName s ∨ s ∈ dots tokens)
  | .folders => r ≠ [] ∧ ∀ s ∈ r, IsName s
  | .deep part => r ≠ [] ∧ (∀ s ∈ r, IsName s) ∧ part.accepts (lastName r) = true

theorem matchName_of_literal? {tokens : List Token} {text s : List Char}
    (h : literal? tokens = some text) : matchName tokens s = true ↔ s = text := by
  induction tokens generalizing text s with
  | nil =>
    obtain rfl := Option.some.inj h
    simp [matchName]
  | cons token tokens ih =>
    cases token with
    | char c =>
      obtain ⟨text', htext, rfl⟩ := Option.map_eq_some_iff.mp h
      cases s with
      | nil => simp [matchName]
      | cons d s => simp [matchName, Token.accepts, ih htext]
    | _ => cases h

theorem mem_dots {s : String} (h : s ∈ dots tokens) : s = ".." ∨ s = "." := by
  rw [dots] at h
  split at h
  · simpa using (List.mem_filter.mp h).1
  · cases h

theorem matchName_of_mem_dots {s : String} (h : s ∈ dots tokens) :
    matchName tokens s.toList = true := by
  rw [dots] at h
  split at h
  · exact (List.mem_filter.mp h).2
  · cases h

theorem mem_stepNames_iff (hp : p.WellFormed) {s : String} (hstep : p.step? s = some q) :
    s ∈ stepNames tokens p.here ↔ matchName tokens s.toList = true ∧
      ((literal? tokens).isSome ∨ IsName s ∨ s ∈ dots tokens) := by
  rw [stepNames]
  cases hliteral : literal? tokens with
  | some text =>
    rw [matchName_of_literal? hliteral, List.mem_singleton]
    simp [String.ext_iff]
  | none =>
    simp only [Option.isSome_none, Bool.false_eq_true, false_or, List.mem_append, List.mem_filter,
      List.mem_map]
    constructor
    · rintro (hdots | ⟨⟨e, he, rfl⟩, hmatch⟩)
      · exact ⟨matchName_of_mem_dots hdots, .inr hdots⟩
      · exact ⟨hmatch, .inl (hp.here.named e he).toIsName⟩
    · rintro ⟨hmatch, hname | hdots⟩
      · rw [Place.step?_of_isName hname] at hstep
        obtain ⟨t, hchild, -⟩ := Option.map_eq_some_iff.mp hstep
        exact .inr ⟨⟨(s, t), hp.here.child?_eq_some_iff.mp hchild, rfl⟩, hmatch⟩
      · exact .inl hdots

/-- **A move leads along all rows of steps that fit it.** -/
theorem mem_reach_iff_fits (hp : p.WellFormed) {m : Move} :
    (r, q) ∈ m.reach p ↔ m.Fits r ∧ Place.walk? r p = some q := by
  rw [mem_reach_iff]
  refine and_congr_left fun hwalk => ?_
  cases m with
  | name tokens =>
    have hone (s : String) (hs : r = [s]) : p.step? s = some q := by
      rw [← Place.walk?_singleton, ← hs, hwalk]
    rw [Move.rows, List.mem_map, Move.Fits]
    constructor
    · rintro ⟨s, hs, rfl⟩
      exact ⟨s, rfl, (mem_stepNames_iff hp (hone s rfl)).mp hs⟩
    · rintro ⟨s, rfl, hs⟩
      exact ⟨s, (mem_stepNames_iff hp (hone s rfl)).mpr hs, rfl⟩
  | folders =>
    rw [Move.rows, FileTree.mem_routes_iff hp, Move.Fits]
    exact ⟨fun ⟨hne, hnames, _⟩ => ⟨hne, hnames⟩, fun ⟨hne, hnames⟩ => ⟨hne, hnames, q, hwalk⟩⟩
  | deep part =>
    rw [Move.rows, List.mem_filter, FileTree.mem_routes_iff hp, Move.Fits]
    exact ⟨fun ⟨⟨hne, hnames, _⟩, haccepts⟩ => ⟨hne, hnames, haccepts⟩,
      fun ⟨hne, hnames, haccepts⟩ => ⟨⟨hne, hnames, q, hwalk⟩, haccepts⟩⟩

/-- A way fits moves, row by row. -/
def Fits (ms : List Move) (w : Way) : Prop := List.Forall₂ Move.Fits w ms

/-- **The ways are all those that fit and lead anywhere.** -/
theorem mem_ways_iff (hp : p.WellFormed) {ms : List Move} {w : Way} :
    (w, q) ∈ ways ms p ↔ Fits ms w ∧ Place.walk? w.flatten p = some q := by
  induction ms generalizing p w with
  | nil =>
    rw [ways_nil, List.mem_singleton, Prod.mk.injEq, Fits, List.forall₂_nil_right_iff]
    refine and_congr_right fun hw => ?_
    rw [hw]
    simp [eq_comm]
  | cons m ms ih =>
    rw [ways_cons, List.mem_flatMap, Fits, List.forall₂_cons_right_iff]
    constructor
    · rintro ⟨⟨r, mid⟩, hreach, hmem⟩
      obtain ⟨⟨v, q'⟩, hv, heq⟩ := List.mem_map.mp hmem
      cases heq
      obtain ⟨hfits, hwalk⟩ := (mem_reach_iff_fits hp).mp hreach
      obtain ⟨hrest, hend⟩ := (ih (hp.walk? hwalk)).mp hv
      refine ⟨⟨r, v, hfits, hrest, rfl⟩, ?_⟩
      rw [List.flatten_cons, Place.walk?_append, hwalk]
      exact hend
    · rintro ⟨⟨r, v, hfits, hrest, rfl⟩, hwalk⟩
      rw [List.flatten_cons, Place.walk?_append] at hwalk
      obtain ⟨mid, hmid, hend⟩ := Option.bind_eq_some_iff.mp hwalk
      exact ⟨(r, mid), (mem_reach_iff_fits hp).mpr ⟨hfits, hmid⟩,
        List.mem_map.mpr ⟨(v, q), (ih (hp.walk? hmid)).mpr ⟨hrest, hend⟩, rfl⟩⟩

/-! ## Names of what is found -/

/-- Whether a pattern matches folders only, by its end or by its last part. -/
def wantsFolder (pattern : String) (ms : List Move) : Bool :=
  foldersOnly pattern || ms.contains .folders

/-- The ways that a pattern leads along, and what is found at their ends. -/
def found (pattern : String) (ms : List Move) (origin : Option Place) : List (Way × Place) :=
  (origin.toList.flatMap (ways ms)).filter fun w => !wantsFolder pattern ms || w.2.isFolder

/-- **What is found is named by the way to it.** -/
theorem Outset.expand_eq_names {root : FileTree} {base : String} {origin : Option Place}
    (h : Outset root base origin) (pattern : String) :
    expand root base pattern =
      match readParts? pattern.toList with
      | none => .error ⟨[.searching pattern], .malformed .glob⟩
      | some parts =>
        .ok ((found pattern (moves parts) origin).map fun w => nameOf w.1.flatten) := by
  rw [h.expand_eq]
  cases readParts? pattern.toList with
  | none => rfl
  | some parts =>
    refine congrArg Except.ok ?_
    cases horigin : origin with
    | none => rfl
    | some p =>
      have hp := h.wellFormed p (by simp [horigin])
      have hwanted : (fun w : Way × Place =>
          wanted pattern w.2 && keeps (moves parts) w.2) =
          fun w => !wantsFolder pattern (moves parts) || w.2.isFolder := by
        funext w
        rw [wanted, keeps, wantsFolder]
        cases w.2.isFolder <;> simp
      rw [found, Option.toList_some, List.flatMap_singleton, List.flatMap_singleton, search_eq hp,
        List.filter_map, List.filter_filter, List.map_map]
      simp only [Function.comp_apply, hwanted]
      refine List.map_congr_left fun w hw => ?_
      obtain ⟨-, hwalk⟩ := (mem_ways_iff hp).mp (List.mem_of_mem_filter hw)
      rw [Function.comp_apply, Place.path_of_walk? hwalk]
      exact h.relativeTo_eq p (by simp [horigin]) _ (hp.noSlash_of_walk? hwalk)

end Glob
end LintLocator
