import LintLocator.Glob.Expansion
import LintLocator.Proofs.FileTree.Steps
import LintLocator.Proofs.Glob.Names
import Mathlib.Data.List.DropRight

/-!
# The folder in front of a pattern

The folder in which a pattern is searched for becomes a part of the pattern, after its text has been
escaped.  Escaped or not, the text is cut at the same slashes, and each part of it stands for its own
name and no other.  So the search first walks to the folder, just as one follows its path, and only
then does the pattern itself begin.

* `Glob.matchName_map_tokenFor`, `Glob.matching_namePart`: what an escaped part stands for;
* `Glob.readParts?_escape`: the parts of a pattern with an escaped text in front of it;
* `Glob.exists_outset`: a search begins in the folder, whatever the folder is called.
-/

namespace LintLocator
namespace Glob

/-! ## Escaped texts -/

/-- The characters that have a meaning in patterns. -/
def isSpecial (c : Char) : Bool := c == '?' || c == '*' || c == '[' || c == ']'

/-- How a character is escaped. -/
def escapeChar (c : Char) : List Char := if isSpecial c then ['[', c, ']'] else [c]

/-- What an escaped character stands for. -/
def tokenFor (c : Char) : Token := if isSpecial c then .oneOf [(c, c)] else .char c

/-- The part of a pattern that stands for a name. -/
def namePart (name : String) : Part := .name (name.toList.map tokenFor)

section

variable {c : Char}

theorem escapeChar_of_special (h : isSpecial c = true) : escapeChar c = ['[', c, ']'] := if_pos h

theorem escapeChar_of_plain (h : isSpecial c = false) : escapeChar c = [c] :=
  if_neg (Bool.eq_false_iff.mp h)

theorem tokenFor_of_special (h : isSpecial c = true) : tokenFor c = .oneOf [(c, c)] := if_pos h

theorem tokenFor_of_plain (h : isSpecial c = false) : tokenFor c = .char c :=
  if_neg (Bool.eq_false_iff.mp h)

theorem escape_cons_of_special (h : isSpecial c = true) (s : List Char) :
    escape (c :: s) = '[' :: c :: ']' :: escape s := if_pos h

theorem escape_cons_of_plain (h : isSpecial c = false) (s : List Char) :
    escape (c :: s) = c :: escape s := if_neg (Bool.eq_false_iff.mp h)

end

theorem escape_eq_flatMap (s : List Char) : escape s = s.flatMap escapeChar := by
  induction s with
  | nil => rfl
  | cons c s ih =>
    cases hc : isSpecial c with
    | true =>
      rw [escape_cons_of_special hc, List.flatMap_cons, escapeChar_of_special hc, ih]
      rfl
    | false =>
      rw [escape_cons_of_plain hc, List.flatMap_cons, escapeChar_of_plain hc, ih]
      rfl

theorem escape_append (s r : List Char) : escape (s ++ r) = escape s ++ escape r := by
  simp [escape_eq_flatMap]

theorem slash_mem_escape_iff {s : List Char} : '/' ∈ escape s ↔ '/' ∈ s := by
  rw [escape_eq_flatMap, List.mem_flatMap]
  constructor
  · rintro ⟨c, hc, hslash⟩
    cases hspecial : isSpecial c with
    | true =>
      rw [escapeChar_of_special hspecial] at hslash
      have hcases : '/' = c := by simpa using hslash
      exact hcases ▸ hc
    | false =>
      rw [escapeChar_of_plain hspecial] at hslash
      exact (List.mem_singleton.mp hslash) ▸ hc
  · intro h
    exact ⟨'/', h, by decide⟩

theorem splitOn_escape (s : List Char) :
    Text.splitOn ['/'] (escape s) = (Text.splitOn ['/'] s).map escape := by
  refine Text.splitOn_induction (List.cons_ne_nil '/' [])
    (motive := fun s ps => Text.splitOn ['/'] (escape s) = ps.map escape)
    (fun s hs => ?_) (fun p r hfirst ih => ?_) s
  · rw [List.singleton_infix_iff] at hs
    rw [Text.splitOn_of_notMem (mt slash_mem_escape_iff.mp hs), List.map_singleton]
  · have hp : '/' ∉ p := by simpa [List.singleton_infix_iff] using hfirst
    have hcut : escape (p ++ ['/'] ++ r) = escape p ++ '/' :: escape r := by
      rw [List.append_assoc, escape_append, escape_append]
      rfl
    rw [hcut, Text.splitOn_append_cons, Text.splitOn_of_notMem (mt slash_mem_escape_iff.mp hp), ih,
      List.map_cons, List.singleton_append]

/-! ## What escaped parts stand for -/

theorem bracket?_special {c : Char} (hc : isSpecial c = true) (r : List Char) :
    bracket? (c :: ']' :: r) = some (.oneOf [(c, c)], r) := by
  have hclosed : untilBracket? (']' :: r) = some ([], r) := rfl
  have hne : c ≠ '!' := by
    rintro rfl
    exact absurd hc (by decide)
  rw [bracket?, hclosed]
  · rfl
  all_goals simp [hne]

/-- **Each character becomes one token.** -/
theorem tokensWithin?_escape {fuel : Nat} {s : List Char} (h : s.length ≤ fuel) :
    tokensWithin? fuel (escape s) = some (s.map tokenFor) := by
  induction s generalizing fuel with
  | nil => cases fuel <;> rfl
  | cons c s ih =>
    obtain ⟨fuel, rfl⟩ := Nat.exists_eq_succ_of_ne_zero (Nat.ne_of_gt (Nat.lt_of_lt_of_le
      (Nat.succ_pos s.length) h))
    have hrest := ih (Nat.le_of_succ_le_succ h)
    rw [List.map_cons]
    cases hc : isSpecial c with
    | true =>
      rw [escape_cons_of_special hc, tokenFor_of_special hc]
      show (bracket? (c :: ']' :: escape s)).bind _ = _
      rw [bracket?_special hc, Option.bind_some, hrest]
      rfl
    | false =>
      rw [escape_cons_of_plain hc, tokenFor_of_plain hc]
      simp only [isSpecial, Bool.or_eq_false_iff, beq_eq_false_iff_ne] at hc
      obtain ⟨⟨⟨hany, htext⟩, hopen⟩, -⟩ := hc
      rw [tokensWithin?, hrest]
      · rfl
      all_goals simp_all

theorem length_le_length_escape (s : List Char) : s.length ≤ (escape s).length := by
  induction s with
  | nil => exact Nat.zero_le _
  | cons c s ih =>
    cases hc : isSpecial c with
    | true =>
      rw [escape_cons_of_special hc]
      simp only [List.length_cons]
      omega
    | false =>
      rw [escape_cons_of_plain hc]
      exact Nat.succ_le_succ ih

theorem read?_escape (s : List Char) :
    Part.read? (escape s) = some (.name (s.map tokenFor)) := by
  have hstars : escape s ≠ ['*', '*'] := by
    intro h
    cases s with
    | nil => cases h
    | cons c s =>
      cases hc : isSpecial c with
      | true =>
        rw [escape_cons_of_special hc] at h
        cases h
      | false =>
        rw [escape_cons_of_plain hc] at h
        obtain ⟨rfl, -⟩ := List.cons.inj h
        exact absurd hc (by decide)
  rw [Part.read?, if_neg (by simpa using hstars), tokensWithin?_escape (length_le_length_escape s),
    Option.map_some]

theorem accepts_tokenFor {c d : Char} : (tokenFor c).accepts d = true ↔ d = c := by
  cases hc : isSpecial c with
  | true =>
    rw [tokenFor_of_special hc]
    simp only [Token.accepts, inRanges, List.any_cons, List.any_nil, Bool.or_false,
      Bool.and_eq_true, decide_eq_true_eq]
    exact ⟨fun ⟨hle, hge⟩ => Char.le_antisymm hge hle,
      fun h => h ▸ ⟨Char.le_refl _, Char.le_refl _⟩⟩
  | false => simp [tokenFor_of_plain hc, Token.accepts]

theorem matchName_tokenFor_cons (c : Char) (ts : List Token) (t : List Char) :
    matchName (tokenFor c :: ts) t =
      match t with
      | [] => false
      | d :: r => (tokenFor c).accepts d && matchName ts r := by
  cases hc : isSpecial c with
  | true =>
    rw [tokenFor_of_special hc]
    rfl
  | false =>
    rw [tokenFor_of_plain hc]
    rfl

/-- **An escaped name matches itself only.** -/
theorem matchName_map_tokenFor {s t : List Char} : matchName (s.map tokenFor) t = true ↔ t = s := by
  induction s generalizing t with
  | nil => simp [matchName]
  | cons c s ih =>
    rw [List.map_cons, matchName_tokenFor_cons]
    cases t with
    | nil => simp
    | cons d t => simp [accepts_tokenFor, ih]

theorem matchName_name (name other : String) :
    matchName (name.toList.map tokenFor) other.toList = (other == name) := by
  rw [Bool.eq_iff_iff, matchName_map_tokenFor, String.toList_inj, beq_iff_eq]

theorem literal?_map_tokenFor (s : List Char) :
    literal? (s.map tokenFor) = if s.any isSpecial then none else some s := by
  induction s with
  | nil => rfl
  | cons c s ih =>
    rw [List.map_cons, List.any_cons]
    cases hc : isSpecial c with
    | true =>
      rw [tokenFor_of_special hc]
      rfl
    | false =>
      rw [tokenFor_of_plain hc]
      simp only [literal?, ih, Bool.false_or]
      split <;> rfl

/-- **An escaped part is a step**: it leads to where its name leads. -/
theorem matching_namePart {p : Place} (hp : p.WellFormed) (name : String) :
    matching (name.toList.map tokenFor) p = (p.step? name).toList := by
  rw [matching, literal?_map_tokenFor]
  cases hspecial : name.toList.any isSpecial with
  | false => simp
  | true =>
    have hne : ∀ plain : String, plain.toList.any isSpecial = false → name ≠ plain := by
      rintro plain hplain rfl
      rw [hspecial] at hplain
      cases hplain
    have hname : FileTree.IsName name :=
      ⟨hne "" (by decide), hne "." (by decide), hne ".." (by decide)⟩
    have hdots : dots (name.toList.map tokenFor) = [] := by
      rw [dots]
      split
      · simp [matchName_name, hname.ne_dot.symm, hname.ne_up.symm]
      · rfl
    have hpred : ((fun c : String × Place => matchName (name.toList.map tokenFor) c.1.toList) ∘
        fun e : String × FileTree =>
          (e.1, (⟨FileTree.joinPath p.path e.1, p.here :: p.above, e.2⟩ : Place))) =
        fun e => e.1 == name := funext fun e => matchName_name name e.1
    simp only [if_true]
    cases hfolder : p.isFolder with
    | false => simp [Place.step?_of_file hfolder]
    | true =>
      rw [if_pos rfl, hdots, List.filterMap_nil, List.nil_append, Place.children, List.filter_map,
        hpred, hp.here.filter_entries, Place.step?_of_isName hname]
      cases p.here.child? name <;> rfl

/-! ## Texts in front of a pattern -/

theorem partTexts_append (s r : List Char) :
    partTexts (s ++ '/' :: r) = Text.splitOn ['/'] s ++ partTexts r := by
  have hne := Text.splitOn_ne_nil ['/'] r
  rw [partTexts, partTexts, Text.splitOn_append_cons, List.getLast?_append_of_ne_nil _ hne,
    List.dropLast_append_of_ne_nil hne]
  split <;> rfl

theorem collapse_map_append (names : List String) (parts : List Part) :
    collapse (names.map namePart ++ parts) = names.map namePart ++ collapse parts := by
  induction names with
  | nil => rfl
  | cons name names ih =>
    rw [List.map_cons, List.cons_append, List.cons_append, ← ih]
    rfl

theorem mapM_read?_escape (pieces : List (List Char)) :
    (pieces.map escape).mapM Part.read? =
      some ((pieces.map String.ofList).map namePart) := by
  induction pieces with
  | nil => rfl
  | cons s pieces ih => simp [List.mapM_cons, read?_escape, ih, namePart]

/-- **The parts of a text are parts of the pattern behind it.** -/
theorem readParts?_escape (folder : String) (r : List Char) :
    readParts? (escape folder.toList ++ '/' :: r) =
      (readParts? r).map ((FileTree.pathParts folder).map namePart ++ ·) := by
  rw [readParts?, readParts?, partTexts_append, splitOn_escape, List.mapM_append,
    mapM_read?_escape, FileTree.pathParts]
  cases (partTexts r).mapM Part.read? with
  | none => rfl
  | some parts => exact congrArg some (collapse_map_append _ parts)

/-! ## Where a search begins -/

theorem trimSlashes_concat_slash (s : List Char) : trimSlashes (s ++ ['/']) = trimSlashes s :=
  List.rdropWhile_concat_pos _ _ _ rfl

theorem trimSlashes_concat_of_ne (s : List Char) {c : Char} (hc : c ≠ '/') :
    trimSlashes (s ++ [c]) = s ++ [c] :=
  List.rdropWhile_concat_neg _ _ _ (by simpa using hc)

theorem trimSlashes_escape (s : List Char) : trimSlashes (escape s) = escape (trimSlashes s) := by
  induction s using List.reverseRecOn with
  | nil => rfl
  | append_singleton s c ih =>
    rw [escape_append]
    by_cases hc : c = '/'
    · subst hc
      rw [trimSlashes_concat_slash, ← ih]
      exact trimSlashes_concat_slash (escape s)
    · rw [trimSlashes_concat_of_ne s hc, escape_append]
      cases hspecial : isSpecial c with
      | true =>
        have hsingle : escape [c] = ['[', c] ++ [']'] := escape_cons_of_special hspecial []
        rw [hsingle, ← List.append_assoc]
        exact trimSlashes_concat_of_ne _ (by decide)
      | false =>
        have hsingle : escape [c] = [c] := escape_cons_of_plain hspecial []
        rw [hsingle]
        exact trimSlashes_concat_of_ne _ hc

/-- Slashes at the end of a text leave empty pieces behind it. -/
theorem exists_splitOn_trimSlashes (s : List Char) :
    ∃ trail, (∀ t ∈ trail, t = []) ∧
      Text.splitOn ['/'] s = Text.splitOn ['/'] (trimSlashes s) ++ trail := by
  induction s using List.reverseRecOn with
  | nil => exact ⟨[], by simp, rfl⟩
  | append_singleton s c ih =>
    by_cases hc : c = '/'
    · obtain ⟨trail, htrail, hsplit⟩ := ih
      refine ⟨trail ++ [[]], by simpa [or_imp, forall_and] using htrail, ?_⟩
      rw [hc, trimSlashes_concat_slash, Text.splitOn_append_cons, hsplit, List.append_assoc]
      rfl
    · exact ⟨[], by simp, by rw [trimSlashes_concat_of_ne s hc, List.append_nil]⟩

/-- The parts by which a search spells the folder `base`, from the path `path` on. -/
structure Route (base path : String) (folder : List String) : Prop where
  path_eq : path = "" ∨ path = "/"
  spelled : ∃ lead trail, (∀ s ∈ lead, s = "") ∧ (∀ s ∈ trail, s = "") ∧
    FileTree.pathParts base = lead ++ folder ++ trail
  start_eq : ∀ root pattern, ∃ rest,
    start root (fullPattern base pattern) = (⟨path, [], root⟩, rest) ∧
    readParts? rest = (readParts? pattern.toList).map (folder.map namePart ++ ·)

/-- **A search spells its folder** by the parts of its path, but for slashes at the ends. -/
theorem exists_route (base : String) : ∃ path folder, Route base path folder := by
  obtain ⟨trail, htrail, hsplit⟩ := exists_splitOn_trimSlashes base.toList
  have htrail' : ∀ s ∈ trail.map String.ofList, s = "" := by
    intro s hs
    obtain ⟨t, ht, rfl⟩ := List.mem_map.mp hs
    rw [htrail t ht]
  have hparts : FileTree.pathParts base =
      FileTree.pathParts (String.ofList (trimSlashes base.toList)) ++ trail.map String.ofList := by
    rw [FileTree.pathParts, hsplit, List.map_append, FileTree.pathParts, String.toList_ofList]
  cases htrim : trimSlashes base.toList with
  | nil =>
    rw [htrim] at hparts
    have hempty : FileTree.pathParts (String.ofList []) = [""] := rfl
    rw [hempty] at hparts
    refine ⟨"/", [], .inr rfl, ⟨[], [""] ++ trail.map String.ofList, by simp, ?_, hparts⟩,
      fun root pattern => ⟨pattern.toList, ?_, ?_⟩⟩
    · exact List.forall_mem_append.mpr ⟨by simp, htrail'⟩
    · rw [fullPattern, trimSlashes_escape, htrim]
      rfl
    · simp
  | cons c s =>
    by_cases hc : c = '/'
    · subst hc
      refine ⟨"/", FileTree.pathParts (String.ofList s), .inr rfl,
        ⟨[""], _, by simp, htrail', ?_⟩,
        fun root pattern => ⟨escape s ++ '/' :: pattern.toList, ?_, ?_⟩⟩
      · have hslash : String.ofList ('/' :: s) = "" ++ "/" ++ String.ofList s := by
          apply String.toList_injective
          simp
        rw [hparts, htrim, hslash, FileTree.pathParts_append]
        rfl
      · rw [fullPattern, trimSlashes_escape, htrim]
        rfl
      · have hescape := readParts?_escape (String.ofList s) pattern.toList
        rwa [String.toList_ofList] at hescape
    · refine ⟨"", FileTree.pathParts (String.ofList (c :: s)), .inl rfl,
        ⟨[], _, by simp, htrail', ?_⟩,
        fun root pattern => ⟨escape (c :: s) ++ '/' :: pattern.toList, ?_, ?_⟩⟩
      · rw [hparts, htrim, List.nil_append]
      · rw [fullPattern, trimSlashes_escape, htrim]
        cases hspecial : isSpecial c with
        | true =>
          rw [escape_cons_of_special hspecial]
          rfl
        | false =>
          rw [escape_cons_of_plain hspecial, start]
          simpa using hc
      · have hescape := readParts?_escape (String.ofList (c :: s)) pattern.toList
        rwa [String.toList_ofList] at hescape

/-- **The search walks to its folder.** -/
theorem search_append {p : Place} (hp : p.WellFormed) (folder : List String) (parts : List Part) :
    search (folder.map namePart ++ parts) p =
      (Place.walk? folder p).toList.flatMap (search parts) := by
  induction folder generalizing p with
  | nil => simp
  | cons name folder ih =>
    rw [List.map_cons, List.cons_append, namePart, search, matching_namePart hp, Place.walk?_cons]
    cases hstep : p.step? name with
    | none => rfl
    | some q => simpa using ih (hp.step? hstep)

/-- Whether a pattern matches folders only. -/
def foldersOnly (pattern : String) : Bool := ('/' :: pattern.toList).getLast? == some '/'

/-- What is wanted of the places that a pattern leads to. -/
def wanted (pattern : String) (p : Place) : Bool := !foldersOnly pattern || p.isFolder

/-- The place where the search for patterns relative to a folder begins, if there is such a folder. -/
structure Outset (root : FileTree) (base : String) (origin : Option Place) : Prop where
  wellFormed : ∀ p ∈ origin, p.WellFormed
  /-- It is where the path of the folder leads to. -/
  follow_iff : ∀ steps t, steps ≠ [] ∨ t.isFolder = true →
    (FileTree.follow [] root (FileTree.pathParts base ++ steps) = .ok t ↔
      ∃ p ∈ origin, ∃ q, Place.walk? steps p = some q ∧ q.here = t)
  /-- Names are relative to it. -/
  relativeTo_eq : ∀ p ∈ origin, ∀ steps, (∀ s ∈ steps, '/' ∉ s.toList) →
    relativeTo base (steps.foldl FileTree.joinPath p.path) = nameOf steps
  expand_eq : ∀ pattern, expand root base pattern =
    match readParts? pattern.toList with
    | none => .error ⟨[.searching pattern], .malformed .glob⟩
    | some parts =>
      .ok (((origin.toList.flatMap (search parts)).filter (wanted pattern)).map fun p =>
        relativeTo base p.path)

/-- Empty parts around those of a folder change nothing. -/
theorem walk?_between_idle {top : Place} {lead folder trail steps : List String} {t : FileTree}
    (hlead : ∀ s ∈ lead, s = "") (htrail : ∀ s ∈ trail, s = "")
    (hend : steps ≠ [] ∨ t.isFolder = true) :
    (∃ q, Place.walk? (lead ++ (folder ++ (trail ++ steps))) top = some q ∧ q.here = t) ↔
      ∃ p ∈ Place.walk? folder top, ∃ q, Place.walk? steps p = some q ∧ q.here = t := by
  have hlead' : ∀ s ∈ lead, s = "" ∨ s = "." := fun s hs => .inl (hlead s hs)
  have htrail' : ∀ s ∈ trail, s = "" ∨ s = "." := fun s hs => .inl (htrail s hs)
  constructor
  · rintro ⟨q, hwalk, rfl⟩
    simp only [Place.walk?_append, Option.bind_eq_some_iff] at hwalk
    obtain ⟨p₁, h₁, p₂, h₂, p₃, h₃, h₄⟩ := hwalk
    have hspot₁ := Place.sameSpot_of_walk?_idle hlead' h₁
    have hspot₃ := Place.sameSpot_of_walk?_idle htrail' h₃
    obtain ⟨p, hp, hspot₂⟩ := hspot₁.symm.walk? h₂
    obtain ⟨q', hq', hspot⟩ := (hspot₂.symm.trans hspot₃).symm.walk? h₄
    exact ⟨p, hp, q', hq', hspot.here.symm⟩
  · rintro ⟨p, hp, q, hq, rfl⟩
    have hfolder : p.isFolder = true := Place.isFolder_of_walk? hq hend
    have htop : top.isFolder = true := Place.isFolder_of_walk? hp (.inr hfolder)
    obtain ⟨p₁, h₁, hspot₁⟩ := Place.exists_walk?_idle htop hlead'
    obtain ⟨p₂, h₂, hspot₂⟩ := hspot₁.walk? hp
    have hfolder₂ : p₂.isFolder = true := by rw [Place.isFolder, ← hspot₂.here]; exact hfolder
    obtain ⟨p₃, h₃, hspot₃⟩ := Place.exists_walk?_idle hfolder₂ htrail'
    obtain ⟨q', h₄, hspot⟩ := (hspot₂.trans hspot₃).walk? hq
    refine ⟨q', ?_, hspot.here.symm⟩
    simp only [Place.walk?_append, Option.bind_eq_some_iff]
    exact ⟨p₁, h₁, p₂, h₂, p₃, h₃, h₄⟩

/-- **A search begins in its folder**, whatever the folder is called. -/
theorem exists_outset {root : FileTree} (hroot : root.WellFormed) (base : String) :
    ∃ origin, Outset root base origin := by
  obtain ⟨path, folder, hpath, ⟨lead, trail, hlead, htrail, hbase⟩, hstart⟩ := exists_route base
  have htop : Place.WellFormed ⟨path, [], root⟩ := ⟨hroot, by simp⟩
  refine ⟨Place.walk? folder ⟨path, [], root⟩, fun p hp => htop.walk? hp, fun steps t hend => ?_,
    fun p hp steps hsteps => ?_, fun pattern => ?_⟩
  · rw [hbase, FileTree.follow_eq_ok_iff path, List.append_assoc, List.append_assoc]
    exact walk?_between_idle hlead htrail hend
  · rw [Place.path_of_walk? hp, ← List.foldl_append]
    exact relativeTo_foldl hbase hlead htrail hpath hsteps
  · obtain ⟨rest, hrest, hparts⟩ := hstart root pattern
    have hends : ((fullPattern base pattern).getLast? == some '/') = foldersOnly pattern := by
      rw [fullPattern, foldersOnly, List.getLast?_append_of_ne_nil _ (List.cons_ne_nil _ _)]
    simp only [expand, hrest, hparts, hends]
    cases readParts? pattern.toList with
    | none => rfl
    | some parts =>
      rw [Option.map_some]
      dsimp only
      rw [search_append htop]
      cases hfolders : foldersOnly pattern with
      | false =>
        have hwanted : wanted pattern = fun _ => true := funext fun p => by simp [wanted, hfolders]
        simp [hwanted]
      | true =>
        have hwanted : wanted pattern = Place.isFolder := funext fun p => by simp [wanted, hfolders]
        simp [hwanted]

end Glob
end LintLocator
