import LintLocator.Proofs.Yaml.JsonLiteral
import LintLocator.Proofs.Yaml.JsonString

/-!
# Reading tokens inside of flow collections

Inside of flow collections there is no indentation, and if the outermost of them starts the text,
it may still turn out to be a key.  So nothing is settled until it ends, and a text that goes wrong
inside of it leaves no tokens at all.  `Layout.Inside` says what else is known there; it is kept by
every token that is read:

* `next_of_stops`: what is between tokens is passed, and the next character decides;
* `readFlowStart_of_inside`, `readFlowEnd_of_inside`, `readFlowEntry_of_inside`: the brackets and
  the comma;
* `readQuotedScalar_of_inside`, `readPlainScalar_of_inside`, `readValue_of_inside`: the scalars, and
  the `:` that turns one into a key.
-/

namespace LintLocator
namespace Yaml
namespace Layout

/-- The candidates inside of `depth` flow collections.  None is a required one, and the outermost
one stands at the start of the text. -/
inductive Opened : Nat → List (Option Candidate) → Prop where
  | root (mark : Mark) : Opened 0 [some ⟨0, mark, false⟩]
  | inner {depth : Nat} {outer : List (Option Candidate)} (head : Option Candidate)
      (hhead : ∀ c ∈ head, c.required = false) (h : Opened depth outer) :
      Opened (depth + 1) (head :: outer)

/-- What is known inside of `depth` flow collections, when tokens of the given kinds have been
read. -/
structure Inside (s : Layout) (depth : Nat) (kinds : List TokenKind) : Prop where
  levels : s.levels = []
  indent : s.indent = -1
  depth_eq : s.depth = depth
  inPair : s.inPair = false
  inMapping : s.inMapping = true
  settled : s.settled = 0
  count : s.count = s.tokens.length
  kinds_eq : s.tokens.reverse.map Token.kind = kinds
  candidates : Opened depth s.candidates
  isFinished : s.isFinished = false

theorem Opened.firstPlace_eq {depth : Nat} {cs : List (Option Candidate)} (h : Opened depth cs)
    (n : Nat) : firstPlace n cs = 0 := by
  induction h generalizing n with
  | root mark => exact Nat.min_zero n
  | inner head hhead h ih =>
    cases head with
    | none => exact ih n
    | some c => exact ih (min n c.place)

/-- The state with other open collections. -/
def within (s : Layout) (depth : Nat) (candidates : List (Option Candidate)) : Layout :=
  { s with depth := depth, candidates := candidates }

/-! ## What does nothing here -/

theorem expireCandidates_of_inFlow {s : Layout} (h : s.inFlow = true) :
    s.expireCandidates = some s := by
  have hexpired : ∀ c, s.isExpired c = false := by
    intro c
    rw [isExpired, h]
    rfl
  have hkeep : (s.candidates.map fun c => c.filter fun _ => true) = s.candidates := by
    have hid : (fun c : Option Candidate => c.filter fun _ => true) = id := by
      funext c
      cases c with
      | none => rfl
      | some c => rfl
    rw [hid, List.map_id]
  have hnone : (s.candidates.any fun c => c.any fun _ => false) = false := by
    rw [List.any_eq_false]
    intro c _
    cases c with
    | none => decide
    | some c => simp
  simp only [expireCandidates, hexpired, Bool.false_and, Bool.not_false, hnone, hkeep]
  rfl

theorem indentLoosely_of_levels {s : Layout} (h : s.levels = []) : s.indentLoosely = s := by
  simp only [indentLoosely, h]

theorem forgetAllLoose_of_levels {s : Layout} (h : s.levels = []) : s.forgetAllLoose = s := by
  obtain ⟨_, _, _, _, _, _, _, levels, _⟩ := s
  obtain rfl : levels = [] := h
  rfl

theorem dedentTo_of_inFlow {s : Layout} (h : s.inFlow = true) (column : Int) :
    s.dedentTo column = s := by
  rw [dedentTo, if_pos h]

theorem indentTo_of_inFlow {s : Layout} (h : s.inFlow = true) (column : Int) (place : Option Nat)
    (kind : TokenKind) (mark : Mark) : s.indentTo column place kind mark = s := by
  rw [indentTo, if_pos h]

theorem closePair_of_inPair {s : Layout} (h : s.inPair = false) : s.closePair = s := by
  rw [closePair, if_neg (by simp [h])]

namespace Inside

variable {s : Layout} {depth : Nat} {kinds : List TokenKind}

theorem inFlow (h : s.Inside (depth + 1) kinds) : s.inFlow = true := by
  rw [Layout.inFlow, h.depth_eq]
  rfl

theorem moveTo (h : s.Inside depth kinds) (c : Cursor) : (s.moveTo c).Inside depth kinds :=
  ⟨h.levels, h.indent, h.depth_eq, h.inPair, h.inMapping, h.settled, h.count, h.kinds_eq,
    h.candidates, h.isFinished⟩

theorem allowKey (h : s.Inside depth kinds) (allowed : Bool) :
    (s.allowKey allowed).Inside depth kinds :=
  ⟨h.levels, h.indent, h.depth_eq, h.inPair, h.inMapping, h.settled, h.count, h.kinds_eq,
    h.candidates, h.isFinished⟩

theorem withAdjacentValue (h : s.Inside depth kinds) (n : Nat) :
    ({ s with adjacentValue := n } : Layout).Inside depth kinds :=
  ⟨h.levels, h.indent, h.depth_eq, h.inPair, h.inMapping, h.settled, h.count, h.kinds_eq,
    h.candidates, h.isFinished⟩

theorem withMapping (h : s.Inside depth kinds) (b : Bool) :
    ({ s with inMapping := s.inMapping || b } : Layout).Inside depth kinds :=
  ⟨h.levels, h.indent, h.depth_eq, h.inPair, by simp [h.inMapping], h.settled, h.count,
    h.kinds_eq, h.candidates, h.isFinished⟩

theorem within (h : s.Inside depth kinds) {n : Nat} {cs : List (Option Candidate)}
    (hcs : Opened n cs) : (s.within n cs).Inside n kinds :=
  ⟨h.levels, h.indent, rfl, h.inPair, h.inMapping, h.settled, h.count, h.kinds_eq, hcs,
    h.isFinished⟩

theorem push (h : s.Inside depth kinds) (kind : TokenKind) (hkind : kind ≠ .streamEnd)
    (mark : Mark) : (s.push kind mark).Inside depth (kinds ++ [kind]) := by
  refine ⟨h.levels, h.indent, h.depth_eq, h.inPair, h.inMapping, h.settled, ?_, ?_, h.candidates,
    ?_⟩
  · show s.count + 1 = (⟨kind, mark⟩ :: s.tokens : List Token).length
    rw [h.count, List.length_cons]
  · show ((⟨kind, mark⟩ :: s.tokens : List Token).reverse.map Token.kind) = _
    rw [List.reverse_cons, List.map_append, h.kinds_eq]
    rfl
  · rw [Layout.isFinished, Layout.push]
    cases kind <;> first | rfl | exact absurd rfl hkind

/-- A key is put in before the last token. -/
theorem insertKey {kind : TokenKind} (h : s.Inside depth (kinds ++ [kind])) (mark : Mark) :
    (s.insert (s.count - 1) .key mark).Inside depth (kinds ++ [.key, kind]) := by
  have hkinds := h.kinds_eq
  have hcount := h.count
  have hfinished := h.isFinished
  rcases htokens : s.tokens with _ | ⟨token, tokens⟩
  · rw [htokens] at hkinds
    exact absurd hkinds (by simp)
  · rw [htokens, List.reverse_cons, List.map_append] at hkinds
    rw [htokens, List.length_cons] at hcount
    rw [Layout.isFinished, htokens] at hfinished
    obtain ⟨hothers, hlast⟩ := List.append_inj' hkinds rfl
    have hinsert : (s.insert (s.count - 1) .key mark).tokens = token :: ⟨.key, mark⟩ :: tokens := by
      have hplace : s.count - (s.count - 1) = 1 := by omega
      rw [insert, htokens, hplace]
      rfl
    refine ⟨h.levels, h.indent, h.depth_eq, h.inPair, h.inMapping, h.settled, ?_, ?_,
      h.candidates, ?_⟩
    · rw [hinsert, insert, hcount]
      rfl
    · rw [hinsert, List.reverse_cons, List.reverse_cons, List.map_append, List.map_append, hothers,
        hlast, List.append_assoc]
      rfl
    · rw [Layout.isFinished, hinsert]
      obtain ⟨kind, mark⟩ := token
      cases kind <;> first | rfl | exact absurd hfinished (by simp)

/-- Nothing is settled behind a token. -/
theorem settleAll_eq (h : s.Inside (depth + 1) kinds) : s.settleAll = some s := by
  have hsettle : s.settle = s := by
    have hsettled := h.settled
    rw [settle, h.candidates.firstPlace_eq]
    cases s
    simp only at hsettled
    rw [hsettled]
  rw [settleAll, expireCandidates_of_inFlow h.inFlow, Option.map_some, hsettle]
  split <;> rfl

/-- The candidate of the innermost collection is replaced. -/
theorem exists_candidates (h : s.Inside (depth + 1) kinds) :
    ∃ head outer, s.candidates = head :: outer ∧ (∀ c ∈ head, c.required = false) ∧
      Opened depth outer := by
  have hopened := h.candidates
  generalize s.candidates = cs at hopened ⊢
  cases hopened with
  | inner head hhead h => exact ⟨head, _, rfl, hhead, h⟩

/-- A candidate is given up. -/
theorem dropCandidate (h : s.Inside (depth + 1) kinds) :
    ∃ outer, s.dropCandidate = some (s.within (depth + 1) (none :: outer)) ∧
      Opened depth outer := by
  obtain ⟨head, outer, hcs, hhead, houter⟩ := h.exists_candidates
  refine ⟨outer, ?_, houter⟩
  rw [Layout.within, ← h.depth_eq]
  cases head with
  | none =>
    simp only [Layout.dropCandidate, hcs]
    rw [← hcs]
  | some c =>
    have hrequired := hhead c rfl
    simp [Layout.dropCandidate, hcs, hrequired]

end Inside

/-! ## One token -/

section

variable {s : Layout} {depth : Nat} {kinds : List TokenKind}

theorem atDocumentStart_of_atDocumentMark {r : List Char} (h : atDocumentMark r = false) :
    atDocumentStart r = false ∧ atDocumentEnd r = false := by
  constructor
  · unfold atDocumentStart
    split
    · exact h
    · rfl
  · unfold atDocumentEnd
    split
    · exact h
    · rfl

/-- **What is between tokens is passed, and the next character decides.** -/
theorem next_of_stops (h : s.Inside (depth + 1) kinds) {ch : Char} {r : List Char}
    (hbefore : s.cursor.IsBefore (ch :: r)) (hch : isGap ch = false ∧ ch ≠ '#')
    (hdirective : ch ≠ '%') (hmark : atDocumentMark (ch :: r) = false) :
    ∃ c, c.rest = ch :: r ∧ s.next = (s.moveTo c).readToken ch r ∧
      (s.cursor.rest = ch :: r → c = s.cursor) := by
  obtain ⟨c, allowed, hskip, hc, hflow, -, hstay⟩ :=
    skipToToken_of_stops h.levels (stops_cons hch) hbefore
  obtain rfl := hflow h.inFlow
  have hskip : s.skipToToken = some (s.moveTo c) := hskip
  have hinFlow : (s.moveTo c).inFlow = true := (h.moveTo c).inFlow
  obtain ⟨hstart, hend⟩ := atDocumentStart_of_atDocumentMark hmark
  have hcolumn : ¬ (s.moveTo c).column < (s.moveTo c).indent := by
    rw [(h.moveTo c).indent, column, Cursor.column]
    omega
  have hrest : (s.moveTo c).cursor.rest = ch :: r := hc
  refine ⟨c, hc, ?_, hstay⟩
  simp [next, hskip, expireCandidates_of_inFlow hinFlow, dedentTo_of_inFlow hinFlow, hrest,
    hdirective, hstart, hend, hcolumn]

/-- An indicator is passed with the blanks of the line behind it. -/
theorem skipMargin_behind (t : Layout) {r : List Char} (hr : Stops r)
    (h : (t.cursor.skip 1).IsBefore r) :
    ∃ c, (t.moveTo (t.cursor.skip 1)).skipMargin = some (t.moveTo c) ∧ c.IsBefore r := by
  obtain ⟨gap, hgap, hrest⟩ := h
  obtain ⟨c, hskip, -⟩ := Cursor.skipMargin_of_stops hgap hr hrest
  refine ⟨c, ?_, Cursor.skipMargin_isBefore hgap hr hrest hskip⟩
  have hskip : (t.moveTo (t.cursor.skip 1)).cursor.skipMargin true = some (_, c) := hskip
  rw [skipMargin, hskip]
  rfl

/-- A key that may start here is noted. -/
theorem markCandidate_of_inside (h : s.Inside (depth + 1) kinds) :
    ∃ head outer, s.markCandidate = s.within (depth + 1) (head :: outer) ∧
      (∀ c ∈ head, c.required = false) ∧ Opened depth outer ∧
      (s.keyAllowed = true → head = some ⟨s.count, s.mark, false⟩) := by
  obtain ⟨head, outer, hcs, hhead, houter⟩ := h.exists_candidates
  by_cases hkey : s.keyAllowed = true
  · refine ⟨some ⟨s.count, s.mark, false⟩, outer, ?_, ?_, houter, fun _ => rfl⟩
    · simp [markCandidate, hkey, h.inFlow, hcs, Layout.within, ← h.depth_eq]
    · intro c hc
      obtain rfl := Option.some.inj hc
      rfl
  · refine ⟨head, outer, ?_, hhead, houter, fun h => absurd h hkey⟩
    rw [markCandidate, if_neg hkey, ← hcs, ← h.depth_eq]
    rfl

/-- A bracket opens a collection, unless there are too many around it. -/
theorem readFlowStart_of_inside (h : s.Inside (depth + 1) kinds) {kind : TokenKind}
    (hkind : kind ≠ .streamEnd) {r : List Char} (hr : Stops r)
    (hbehind : (s.cursor.skip 1).IsBefore r) :
    (depth + 1 < maxDepth → ∃ u, s.readFlowStart kind = some u ∧
        u.Inside (depth + 2) (kinds ++ [kind]) ∧ u.cursor.IsBefore r ∧ u.keyAllowed = true) ∧
      (¬ depth + 1 < maxDepth → s.readFlowStart kind = none) := by
  obtain ⟨head, outer, hmark, hhead, houter, -⟩ := markCandidate_of_inside h
  have hloose := indentLoosely_of_levels (s := s.within (depth + 1) (head :: outer)) h.levels
  have hopen : (s.within (depth + 1) (head :: outer)).openFlow =
      if depth + 1 < maxDepth then some (s.within (depth + 2) (none :: head :: outer)) else none :=
    rfl
  refine ⟨fun hdepth => ?_, fun hdepth => ?_⟩
  · rw [if_pos hdepth] at hopen
    have ht := ((h.within (.inner none (by simp) (.inner head hhead houter))).withMapping
      (kind == TokenKind.flowMappingStart)).allowKey true
    obtain ⟨c, hskip, hc⟩ := skipMargin_behind
      (({ s.within (depth + 2) (none :: head :: outer) with
          inMapping := s.inMapping || kind == TokenKind.flowMappingStart } : Layout).allowKey true)
      hr hbehind
    refine ⟨_, ?_, (ht.moveTo c).push kind hkind s.mark, hc, rfl⟩
    simp only [readFlowStart, hmark, hloose, hopen, Option.bind_eq_bind, Option.bind_some]
    exact congrArg (fun v : Option Layout => v.bind fun v => some (v.push kind s.mark)) hskip
  · rw [if_neg hdepth] at hopen
    simp [readFlowStart, hmark, hloose, hopen]

/-- A bracket closes the innermost collection. -/
theorem readFlowEnd_of_inside (h : s.Inside (depth + 1) kinds) {kind : TokenKind}
    (hkind : kind ≠ .streamEnd) {r : List Char} (hr : Stops r)
    (hbehind : (s.cursor.skip 1).IsBefore r) :
    ∃ u, s.readFlowEnd kind = some u ∧ u.Inside depth (kinds ++ [kind]) ∧ u.cursor.IsBefore r := by
  obtain ⟨outer, hdrop, houter⟩ := h.dropCandidate
  have hclose : (s.within (depth + 1) (none :: outer)).closeFlow = s.within depth outer := rfl
  have ht := (h.within houter).allowKey false
  have hpair := closePair_of_inPair ht.inPair
  obtain ⟨c, hskip, hc⟩ := skipMargin_behind ((s.within depth outer).allowKey false) hr hbehind
  have hv := ht.moveTo c
  -- a `:` may come directly behind a collection, but none does
  let v := ((s.within depth outer).allowKey false).moveTo c
  let w : Layout := if v.inFlow then { v with adjacentValue := v.mark.index } else v
  have hw : w.Inside depth kinds ∧ w.cursor = c := by
    by_cases hflow : v.inFlow = true
    · rw [show w = _ from if_pos hflow]
      exact ⟨hv.withAdjacentValue _, rfl⟩
    · rw [show w = _ from if_neg hflow]
      exact ⟨hv, rfl⟩
  refine ⟨w.push kind s.mark, ?_, hw.1.push kind hkind s.mark, hw.2 ▸ hc⟩
  simp only [readFlowEnd, hdrop, Option.bind_eq_bind, Option.bind_some, hclose, hpair]
  exact congrArg (fun o : Option Layout => o.bind fun v => some (Layout.push
    (if v.inFlow then { v with adjacentValue := v.mark.index } else v) kind s.mark)) hskip

/-- A comma leads to the next entry. -/
theorem readFlowEntry_of_inside (h : s.Inside (depth + 1) kinds) {r : List Char} (hr : Stops r)
    (hbehind : (s.cursor.skip 1).IsBefore r) :
    ∃ u, s.readFlowEntry = some u ∧ u.Inside (depth + 1) (kinds ++ [.flowEntry]) ∧
      u.cursor.IsBefore r ∧ u.keyAllowed = true := by
  obtain ⟨outer, hdrop, houter⟩ := h.dropCandidate
  have ht := (h.within (.inner none (by simp) houter)).allowKey true
  have hpair := closePair_of_inPair ht.inPair
  obtain ⟨c, hskip, hc⟩ :=
    skipMargin_behind ((s.within (depth + 1) (none :: outer)).allowKey true) hr hbehind
  refine ⟨_, ?_, (ht.moveTo c).push _ TokenKind.noConfusion s.mark, hc, rfl⟩
  simp only [readFlowEntry, hdrop, Option.bind_eq_bind, Option.bind_some, hpair]
  exact congrArg (fun v : Option Layout => v.bind fun v => some (v.push .flowEntry s.mark)) hskip

/-- **A string is read as a scalar**, unless an escape in it stands for no character.  Behind it a
`:` may come directly, and where a key is allowed the string may be one. -/
theorem readQuotedScalar_of_inside (h : s.Inside (depth + 1) kinds) {ps : List Json.Piece}
    {r : List Char} (hr : Stops r)
    (hfollow : startsWith (fun ch => ch == ',' || ch == '}' || ch == ']' || ch == ':') r = true)
    {gap : List Char} (hgap : ∀ ch ∈ gap, isGap ch = true)
    (hrest : s.cursor.rest = Json.quoted ps ++ (gap ++ r)) :
    (Json.IsPlainText ps → ∃ u, s.readQuotedScalar '"' = some u ∧
        u.Inside (depth + 1) (kinds ++ [.scalar .doubleQuoted (Json.plainText ps)]) ∧
        u.cursor.rest = r ∧ u.adjacentValue = u.mark.index ∧
        (s.keyAllowed = true → ∃ outer,
          u.candidates = some ⟨u.count - 1, s.mark, false⟩ :: outer)) ∧
      (¬ Json.IsPlainText ps → s.readQuotedScalar '"' = none) := by
  obtain ⟨head, outer, hmark, hhead, houter, hkey⟩ := markCandidate_of_inside h
  have ht := (h.within (.inner head hhead houter)).allowKey false
  have hinFlow := ht.inFlow
  obtain ⟨hplain, hother⟩ := readQuoted_quoted (c := s.cursor) hgap hr hfollow hrest
  have hread : readQuoted '"' ((s.within (depth + 1) (head :: outer)).allowKey false).inFlow
      ((s.within (depth + 1) (head :: outer)).allowKey false).indent
      ((s.within (depth + 1) (head :: outer)).allowKey false).cursor =
        readQuoted '"' true (-1) s.cursor := by
    rw [hinFlow, ht.indent]
    rfl
  refine ⟨fun hps => ?_, fun hps => ?_⟩
  · obtain ⟨d, hd, hbefore⟩ := hplain hps
    obtain ⟨c, allowed, hskip, hc, -, -, -⟩ := skipToToken_of_stops
      (s := ((s.within (depth + 1) (head :: outer)).allowKey false).moveTo d) h.levels hr hbefore
    have hu := (((ht.moveTo d).moveTo c).allowKey allowed).withAdjacentValue c.mark.index
    refine ⟨_, ?_, hu.push _ TokenKind.noConfusion s.mark, hc, rfl, fun hallowed => ⟨outer, ?_⟩⟩
    · simp only [readQuotedScalar, hmark, hread, hd, Option.bind_eq_bind, Option.bind_some, hskip]
      rfl
    · rw [hkey hallowed]
      rfl
  · simp [readQuotedScalar, hmark, hread, hother hps]

/-- **A literal is read as a scalar.** -/
theorem readPlainScalar_of_inside (h : s.Inside (depth + 1) kinds) {text gap r : List Char}
    (htext : Json.IsLiteral text) (hgap : ∀ ch ∈ gap, isGap ch = true) (hr : EndsValue r)
    (hrest : s.cursor.rest = text ++ (gap ++ r)) :
    ∃ u, s.readPlainScalar = some u ∧ u.Inside (depth + 1) (kinds ++ [.scalar .plain text]) ∧
      u.cursor.rest = r := by
  obtain ⟨head, outer, hmark, hhead, houter, -⟩ := markCandidate_of_inside h
  have ht := (h.within (.inner head hhead houter)).allowKey false
  obtain ⟨d, hd, hd'⟩ := readPlain_literal htext hgap hr hrest
  have hforget := forgetAllLoose_of_levels
    (s := (s.within (depth + 1) (head :: outer)).allowKey false) h.levels
  refine ⟨_, ?_, ((ht.moveTo d).allowKey d.fresh).push _ TokenKind.noConfusion s.mark, hd'⟩
  have hread : readPlain ((s.within (depth + 1) (head :: outer)).allowKey false).inFlow
      (((s.within (depth + 1) (head :: outer)).allowKey false).indent + 1)
      ((s.within (depth + 1) (head :: outer)).allowKey false).cursor = some (text, d) := by
    rw [ht.inFlow, ht.indent]
    exact hd
  simp only [readPlainScalar, hmark, hforget, hread, Option.bind_eq_bind, Option.bind_some]
  rfl

/-- A `:` is read behind what may be a key. -/
theorem readValue_of_candidate {s : Layout} (hpair : (s.inFlow && !s.inMapping) = s.inPair)
    {candidate : Candidate} {outer : List (Option Candidate)}
    (hkey : s.candidates = some candidate :: outer) :
    s.readValue = (skipValueIndicator s.cursor).bind fun c =>
      readSimpleValue s (s.moveTo c) s.inPair candidate := by
  cases s
  subst hkey
  simp only [readValue, hpair]
  rfl

/-- **A `:` behind a key makes it one**, unless only tabs lead from the `:` to a word. -/
theorem readValue_of_inside {kind : TokenKind} (h : s.Inside (depth + 1) (kinds ++ [kind]))
    {mark : Mark} {outer : List (Option Candidate)}
    (hkey : s.candidates = some ⟨s.count - 1, mark, false⟩ :: outer) {gap r : List Char}
    (hgap : ∀ ch ∈ gap, isGap ch = true) (hr : Stops r)
    (hrest : s.cursor.rest = ':' :: (gap ++ r)) :
    (¬ IsTabbed gap r → ∃ u, s.readValue = some u ∧
        u.Inside (depth + 1) (kinds ++ [.key, kind, .value]) ∧ u.cursor.IsBefore r) ∧
      (IsTabbed gap r → s.readValue = none) := by
  have hpair : (s.inFlow && !s.inMapping) = s.inPair := by
    rw [h.inFlow, h.inMapping, h.inPair]
    rfl
  have hread := readValue_of_candidate hpair hkey
  obtain ⟨hfree, htabbed⟩ := skipValueIndicator_of_stops hgap hr hrest
  refine ⟨fun htab => ?_, fun htab => ?_⟩
  · obtain ⟨c, hskip, hc⟩ := hfree htab
    have hu := (h.moveTo c).insertKey mark
    obtain ⟨head, outer', hcs, -, houter⟩ := h.exists_candidates
    obtain ⟨-, rfl⟩ := List.cons.inj (hkey.symm.trans hcs)
    have hw := ((hu.within (.inner none (by simp) houter)).allowKey false).push
      .value TokenKind.noConfusion s.mark
    rw [List.append_assoc] at hw
    refine ⟨_, ?_, hw, hc⟩
    have hindent : ((s.moveTo c).insert (s.count - 1) .key mark).indentTo mark.col
        (some (s.count - 1)) .blockMappingStart s.mark =
          (s.moveTo c).insert (s.count - 1) .key mark := indentTo_of_inFlow hu.inFlow _ _ _ _
    have hloose : ((s.moveTo c).insert (s.count - 1) .key mark).indentLoosely =
        (s.moveTo c).insert (s.count - 1) .key mark := indentLoosely_of_levels hu.levels
    have hsimple : readSimpleValue s (s.moveTo c) s.inPair ⟨s.count - 1, mark, false⟩ =
        some (((((s.moveTo c).insert (s.count - 1) .key mark).within s.depth
          (none :: s.candidates.drop 1)).allowKey false).push .value s.mark) := by
      simp only [readSimpleValue, h.inPair, Bool.false_and, Bool.false_eq_true, if_false, hindent,
        hloose]
      rfl
    rw [h.depth_eq, hkey] at hsimple
    rw [hread, hskip, Option.bind_some]
    exact hsimple
  · rw [hread, htabbed htab]
    rfl

end

end Layout
end Yaml
end LintLocator
