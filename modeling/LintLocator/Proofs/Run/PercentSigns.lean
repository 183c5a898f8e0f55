import LintLocator.Proofs.Run.Templates

/-!
# Percent signs in pairs

Templates of this kind are usually read in pairs: a percent sign and the character behind it belong
together, whatever that character is, and reading goes on behind the two.  So `%%` is a pair of its
own, and in `%%m` nothing is a slot.  Here a percent sign that does not begin a slot stands for
itself alone, and the next one is looked at again.

For most templates this comes to the same.  The two ways of reading part where `%%` is a pair and
the letter of a slot stands right behind it, and nowhere else.  So what counts is how many percent
signs stand in a row before such a letter: the last one begins a slot in any case here, and only if
their number is odd where signs are read in pairs.

* `Diagnostic.tokens`: a template read in pairs;
* `Diagnostic.fillTokens`: what becomes of it, with the place where the two ways part;
* `Diagnostic.flatMap_fill_pieces`: this is what becomes of the pieces;
* `Diagnostic.hasEvenRow_of_hasStray`, `Diagnostic.hasStray_of_hasEvenRow`: the place where the two
  ways part, in tokens and in the text;
* `Diagnostic.format_by_tokens`: how diagnostics are written, and which templates can be read in
  pairs.
-/

namespace LintLocator
namespace Diagnostic

/-! ## Reading in pairs -/

/-- What a template consists of if each percent sign is taken together with the character behind it.
A percent sign at the end is a character like any other. -/
inductive Token where
  | plain (c : Char)
  /-- A percent sign and the letter of a slot. -/
  | slot (s : Slot)
  /-- A percent sign and any other character. -/
  | other (c : Char)
  deriving DecidableEq, Repr

namespace Token

/-- The pair of a percent sign and a character. -/
def pair (next : Char) : Token :=
  match Slot.ofLetter? next with
  | some s => slot s
  | none => other next

/-- What a token becomes by itself: a slot is filled, and everything else is copied. -/
def fill (d : Diagnostic) : Token → List Char
  | plain c => [c]
  | slot s => Piece.fill d (.slot s)
  | other c => ['%', c]

/-- The slot that the second percent sign of a pair would begin. -/
def stray? : Token → Token → Option Slot
  | other c, plain next => slotAt? c next
  | _, _ => none

end Token

/-- A template read from the left, a percent sign always with the character behind it. -/
def tokens : List Char → List Token
  | [] => []
  | [c] => [.plain c]
  | c :: next :: r => if c = '%' then .pair next :: tokens r else .plain c :: tokens (next :: r)

/-- What becomes of a template that is read in pairs: each token is filled in by itself, unless the
second percent sign of a pair and the character behind it are a slot. -/
def fillTokens (d : Diagnostic) : List Token → List Char
  | [] => []
  | [u] => u.fill d
  | u :: v :: us =>
    match u.stray? v with
    | some s => '%' :: (Piece.fill d (.slot s) ++ fillTokens d us)
    | none => u.fill d ++ fillTokens d (v :: us)

namespace Token

theorem stray?_eq_some_iff {u v : Token} {s : Slot} :
    u.stray? v = some s ↔ u = .other '%' ∧ v = .plain s.letter := by
  constructor
  · intro h
    cases u with
    | plain => cases h
    | slot => cases h
    | other c =>
      cases v with
      | slot => cases h
      | other => cases h
      | plain next =>
        obtain ⟨rfl, rfl⟩ := slotAt?_eq_some_iff.mp h
        exact ⟨rfl, rfl⟩
  · rintro ⟨rfl, rfl⟩
    exact slotAt?_eq_some_iff.mpr ⟨rfl, rfl⟩

theorem pair_of_some {next : Char} {s : Slot} (h : Slot.ofLetter? next = some s) :
    pair next = slot s := by
  rw [pair, h]

theorem pair_of_none {next : Char} (h : Slot.ofLetter? next = none) : pair next = other next := by
  rw [pair, h]

theorem pair_letter (s : Slot) : pair s.letter = slot s := pair_of_some (Slot.ofLetter?_letter s)

/-- A pair is a slot, or it keeps its second character. -/
theorem pair_eq_slot_or_other (next : Char) :
    (∃ s, pair next = slot s) ∨ pair next = other next := by
  cases h : Slot.ofLetter? next with
  | none => exact .inr (pair_of_none h)
  | some s => exact .inl ⟨s, pair_of_some h⟩

end Token

theorem tokens_cons_cons (c next : Char) (r : List Char) :
    tokens (c :: next :: r) =
      if c = '%' then .pair next :: tokens r else .plain c :: tokens (next :: r) := rfl

variable {d : Diagnostic}

theorem tokens_percent (next : Char) (r : List Char) :
    tokens ('%' :: next :: r) = .pair next :: tokens r := by
  rw [tokens_cons_cons, if_pos rfl]

theorem tokens_of_ne {c : Char} (hc : c ≠ '%') (r : List Char) :
    tokens (c :: r) = .plain c :: tokens r := by
  cases r with
  | nil => rfl
  | cons next r => rw [tokens_cons_cons, if_neg hc]

theorem fillTokens_nil : fillTokens d [] = [] := rfl

theorem fillTokens_singleton (u : Token) : fillTokens d [u] = u.fill d := rfl

theorem fillTokens_cons_cons (u v : Token) (us : List Token) :
    fillTokens d (u :: v :: us) =
      match u.stray? v with
      | some s => '%' :: (Piece.fill d (.slot s) ++ fillTokens d us)
      | none => u.fill d ++ fillTokens d (v :: us) := rfl

/-- A token that is not followed by a stray letter is filled in by itself. -/
theorem fillTokens_cons {u : Token} {us : List Token} (h : ∀ v ∈ us.head?, u.stray? v = none) :
    fillTokens d (u :: us) = u.fill d ++ fillTokens d us := by
  cases us with
  | nil => rw [fillTokens_singleton, fillTokens_nil, List.append_nil]
  | cons v us => rw [fillTokens_cons_cons, h v rfl]

theorem fillTokens_stray (s : Slot) (us : List Token) :
    fillTokens d (.other '%' :: .plain s.letter :: us) =
      '%' :: (Piece.fill d (.slot s) ++ fillTokens d us) := by
  rw [fillTokens_cons_cons, Token.stray?_eq_some_iff.mpr ⟨rfl, rfl⟩]

/-! ## How diagnostics are written

Filling in the tokens of a template and filling in its pieces obey the same equations, one for each
way in which a template can begin. -/

/-- A letter is stray only if it is the first character of what stands behind the pair. -/
theorem stray?_eq_none_of_head {c : Char} {r : List Char}
    (h : ∀ next ∈ r.head?, slotAt? c next = none) :
    ∀ v ∈ (tokens r).head?, (Token.other c).stray? v = none := by
  intro v hv
  cases r with
  | nil => cases hv
  | cons a r =>
    cases r with
    | nil =>
      cases hv
      exact h a rfl
    | cons b r =>
      by_cases ha : a = '%'
      · subst ha
        rw [tokens_percent] at hv
        cases hv
        obtain ⟨s, hs⟩ | hb := Token.pair_eq_slot_or_other b
        · rw [hs]
          rfl
        · rw [hb]
          rfl
      · rw [tokens_of_ne ha] at hv
        cases hv
        exact h a rfl

theorem fillTokens_tokens_of_ne {c : Char} (hc : c ≠ '%') (r : List Char) :
    fillTokens d (tokens (c :: r)) = c :: fillTokens d (tokens r) := by
  rw [tokens_of_ne hc, fillTokens_cons fun _ _ => rfl]
  rfl

theorem fillTokens_tokens_slot (s : Slot) (r : List Char) :
    fillTokens d (tokens ('%' :: s.letter :: r)) =
      Piece.fill d (.slot s) ++ fillTokens d (tokens r) := by
  rw [tokens_percent, Token.pair_letter, fillTokens_cons fun _ _ => rfl]
  rfl

/-- Behind a percent sign stands the letter of a slot or not. -/
theorem slotAt?_eq_none_or_exists_letter (r : List Char) :
    (∀ next ∈ r.head?, slotAt? '%' next = none) ∨ ∃ s r', r = Slot.letter s :: r' := by
  cases r with
  | nil => simp
  | cons next r =>
    cases hslot : slotAt? '%' next with
    | none => simp [hslot]
    | some s =>
      obtain ⟨-, rfl⟩ := slotAt?_eq_some_iff.mp hslot
      exact .inr ⟨s, r, rfl⟩

/-- A percent sign that does not begin a slot stands for itself, and the next character is looked at
again. -/
theorem fillTokens_tokens_percent {r : List Char} (h : ∀ next ∈ r.head?, slotAt? '%' next = none) :
    fillTokens d (tokens ('%' :: r)) = '%' :: fillTokens d (tokens r) := by
  induction r with
  | nil => rfl
  | cons next r ih =>
    have hpair : Token.pair next = .other next := by
      have hnone : Slot.ofLetter? next = none := by
        rw [← h next rfl, slotAt?_eq, if_pos rfl]
      exact Token.pair_of_none hnone
    rw [tokens_percent, hpair]
    by_cases hnext : next = '%'
    · subst hnext
      -- both signs are text in any case, or the second one begins a slot in both ways of reading
      obtain hr | ⟨s, r, rfl⟩ := slotAt?_eq_none_or_exists_letter r
      · rw [fillTokens_cons (stray?_eq_none_of_head hr), ih hr]
        rfl
      · rw [fillTokens_tokens_slot, tokens_of_ne s.letter_ne_percent, fillTokens_stray]
    · have hnone : ∀ c ∈ r.head?, slotAt? next c = none := fun c _ => by
        rw [slotAt?_eq, if_neg hnext]
      rw [fillTokens_cons (stray?_eq_none_of_head hnone), fillTokens_tokens_of_ne hnext]
      rfl

/-- The pieces of a template come to the same as its tokens. -/
theorem flatMap_fill_pieces (template : List Char) :
    (pieces template).flatMap (Piece.fill d) = fillTokens d (tokens template) := by
  fun_induction pieces template with
  | case1 => rfl
  | case2 c => rfl
  | case3 c next r s hs ih =>
    obtain ⟨rfl, rfl⟩ := slotAt?_eq_some_iff.mp hs
    rw [List.flatMap_cons, ih, fillTokens_tokens_slot]
  | case4 c next r hnone ih =>
    rw [List.flatMap_cons, ih]
    by_cases hc : c = '%'
    · subst hc
      rw [fillTokens_tokens_percent (by simpa using hnone)]
      rfl
    · rw [fillTokens_tokens_of_ne hc]
      rfl

/-! ## Rows of percent signs -/

/-- The letter of a slot stands behind an even number of percent signs, and behind at least two. -/
def HasEvenRow (template : List Char) : Prop :=
  ∃ before n s after, before.getLast? ≠ some '%' ∧
    template = before ++ List.replicate (2 * (n + 1)) '%' ++ Slot.letter s :: after

/-- The letter of a slot stands behind a pair. -/
def HasStray (us : List Token) : Prop :=
  ∃ before s after, us = before ++ .other '%' :: .plain (Slot.letter s) :: after

/-- Behind a text that does not end with a percent sign, reading begins anew. -/
theorem tokens_append {before : List Char} (h : before.getLast? ≠ some '%') (r : List Char) :
    tokens (before ++ r) = tokens before ++ tokens r := by
  fun_induction tokens before with
  | case1 => rfl
  | case2 c =>
    have hc : c ≠ '%' := by simpa using h
    rw [List.singleton_append, tokens_of_ne hc, List.singleton_append]
  | case3 next before ih =>
    have hlast : before.getLast? ≠ some '%' := by
      cases before with
      | nil => simp
      | cons c before => simpa using h
    rw [List.cons_append, List.cons_append, tokens_percent, ih hlast, List.cons_append]
  | case4 c next before hc ih =>
    rw [List.cons_append, tokens_of_ne hc, ih (by simpa using h), List.cons_append]

theorem tokens_replicate (n : Nat) (r : List Char) :
    tokens (List.replicate (2 * n) '%' ++ r) = List.replicate n (.other '%') ++ tokens r := by
  induction n with
  | zero => rfl
  | succ n ih =>
    rw [Nat.mul_succ, List.replicate_succ, List.replicate_succ, List.cons_append, List.cons_append,
      tokens_percent, ih]
    rfl

theorem hasStray_of_hasEvenRow {template : List Char} (h : HasEvenRow template) :
    HasStray (tokens template) := by
  obtain ⟨before, n, s, after, hlast, rfl⟩ := h
  refine ⟨tokens before ++ List.replicate n (.other '%'), s, tokens after, ?_⟩
  rw [List.append_assoc, tokens_append hlast, tokens_replicate, tokens_of_ne s.letter_ne_percent,
    List.replicate_succ', List.append_assoc, List.append_assoc, List.singleton_append]

theorem eq_of_pair_eq_other {next c : Char} (h : Token.pair next = .other c) : next = c := by
  obtain ⟨s, hs⟩ | hnext := Token.pair_eq_slot_or_other next
  · rw [hs] at h
    cases h
  · exact Token.other.inj (hnext.symm.trans h)

/-- A token that is plain is the first character. -/
theorem exists_of_tokens_eq_plain {template : List Char} {c : Char} {us : List Token}
    (h : tokens template = .plain c :: us) : ∃ r, template = c :: r := by
  cases template with
  | nil => cases h
  | cons a r =>
    by_cases ha : a = '%'
    · subst ha
      cases r with
      | nil =>
        cases h
        exact ⟨[], rfl⟩
      | cons next r =>
        rw [tokens_percent] at h
        obtain ⟨s, hs⟩ | hnext := Token.pair_eq_slot_or_other next
        · rw [hs] at h
          cases h
        · rw [hnext] at h
          cases h
    · rw [tokens_of_ne ha] at h
      cases h
      exact ⟨r, rfl⟩

theorem getLast?_cons_ne_percent {c : Char} {r : List Char} (hc : c ≠ '%' ∨ r ≠ [])
    (h : r.getLast? ≠ some '%') : (c :: r).getLast? ≠ some '%' := by
  cases r with
  | nil => simpa using hc
  | cons a r => simpa using h

theorem HasEvenRow.cons {c : Char} (hc : c ≠ '%') {r : List Char} (h : HasEvenRow r) :
    HasEvenRow (c :: r) := by
  obtain ⟨before, n, s, after, hlast, rfl⟩ := h
  exact ⟨c :: before, n, s, after, getLast?_cons_ne_percent (.inl hc) hlast, rfl⟩

/-- A pair makes a row longer by two, or it stands before the row. -/
theorem HasEvenRow.pair (next : Char) {r : List Char} (h : HasEvenRow r) :
    HasEvenRow ('%' :: next :: r) := by
  obtain ⟨before, n, s, after, hlast, rfl⟩ := h
  by_cases hrow : next = '%' ∧ before = []
  · obtain ⟨rfl, rfl⟩ := hrow
    exact ⟨[], n + 1, s, after, by simp, rfl⟩
  · refine ⟨'%' :: next :: before, n, s, after, ?_, rfl⟩
    have hnext : next ≠ '%' ∨ before ≠ [] := Classical.not_and_iff_not_or_not.mp hrow
    exact getLast?_cons_ne_percent (.inr (List.cons_ne_nil _ _))
      (getLast?_cons_ne_percent hnext hlast)

theorem hasEvenRow_of_hasStray {template : List Char} (h : HasStray (tokens template)) :
    HasEvenRow template := by
  obtain ⟨us, s, vs, h⟩ := h
  fun_induction tokens template generalizing us with
  | case1 => simp at h
  | case2 c =>
    have hlength := congrArg List.length h
    simp only [List.length_append, List.length_cons, List.length_nil] at hlength
    omega
  | case3 next r ih =>
    cases us with
    | nil =>
      obtain ⟨hpair, hrest⟩ := List.cons.inj h
      obtain rfl := eq_of_pair_eq_other hpair
      obtain ⟨r, rfl⟩ := exists_of_tokens_eq_plain hrest
      exact ⟨[], 0, s, r, by simp, rfl⟩
    | cons u us => exact (ih us (List.cons.inj h).2).pair next
  | case4 c next r hc ih =>
    cases us with
    | nil => cases (List.cons.inj h).1
    | cons u us => exact (ih us (List.cons.inj h).2).cons hc

/-! ## Where the two ways of reading part -/

/-- Where no letter is stray, all tokens are filled in by themselves. -/
theorem fillTokens_eq_flatMap {us : List Token} (h : ¬ HasStray us) :
    fillTokens d us = us.flatMap (Token.fill d) := by
  induction us with
  | nil => rfl
  | cons u us ih =>
    have hrest : ¬ HasStray us := by
      rintro ⟨before, s, after, rfl⟩
      exact h ⟨u :: before, s, after, rfl⟩
    have hfirst : ∀ v ∈ us.head?, u.stray? v = none := by
      intro v hv
      rw [Option.eq_none_iff_forall_ne_some]
      intro s hs
      obtain ⟨rfl, rfl⟩ := Token.stray?_eq_some_iff.mp hs
      obtain ⟨after, rfl⟩ := List.head?_eq_some_iff.mp hv
      exact h ⟨[], s, after, rfl⟩
    rw [fillTokens_cons hfirst, ih hrest, List.flatMap_cons]

/-- What is filled into a slot takes more room than the slot. -/
theorem two_lt_length_fill (s : Slot) : 2 < (Piece.fill sample (.slot s)).length := by
  have hnumber : 2 < (Nat.toDigits 10 100).length := by decide
  cases s <;> simp [Piece.fill, sample, hnumber]

theorem length_flatMap_le (us : List Token) :
    (us.flatMap (Token.fill sample)).length ≤ (fillTokens sample us).length := by
  fun_induction fillTokens sample us with
  | case1 => exact Nat.le_refl _
  | case2 u => simp
  | case3 u v us s hs ih =>
    obtain ⟨rfl, rfl⟩ := Token.stray?_eq_some_iff.mp hs
    have hwide := two_lt_length_fill s
    simp only [List.flatMap_cons, List.length_append, List.length_cons, Token.fill,
      List.length_nil]
    omega
  | case4 u v us hnone ih =>
    rw [List.flatMap_cons, List.length_append, List.length_append]
    omega

/-- What stands before a pair is filled in by itself. -/
theorem fillTokens_append_other (before : List Token) (c : Char) (us : List Token) :
    fillTokens d (before ++ .other c :: us) =
      fillTokens d before ++ fillTokens d (.other c :: us) := by
  fun_induction fillTokens d before with
  | case1 => rfl
  | case2 u =>
    have hnone : ∀ v ∈ (Token.other c :: us).head?, u.stray? v = none := by
      intro v hv
      cases hv
      cases u <;> rfl
    rw [List.singleton_append, fillTokens_cons hnone]
  | case3 u v before s hs ih =>
    obtain ⟨rfl, rfl⟩ := Token.stray?_eq_some_iff.mp hs
    rw [List.cons_append, List.cons_append, fillTokens_stray, ih, List.cons_append,
      List.append_assoc]
  | case4 u v before hnone ih =>
    rw [List.cons_append, List.cons_append, fillTokens_cons_cons, hnone]
    rw [List.cons_append] at ih
    simp only [ih, List.append_assoc]

/-- Where a letter is stray, the two ways of reading differ. -/
theorem fillTokens_ne_flatMap {us : List Token} (h : HasStray us) :
    fillTokens sample us ≠ us.flatMap (Token.fill sample) := by
  obtain ⟨before, s, after, rfl⟩ := h
  intro heq
  have hlength := congrArg List.length heq
  have hwide := two_lt_length_fill s
  have hbefore := length_flatMap_le before
  have hafter := length_flatMap_le after
  rw [fillTokens_append_other, fillTokens_stray, List.flatMap_append, List.flatMap_cons,
    List.flatMap_cons] at hlength
  simp only [List.length_append, List.length_cons, Token.fill, List.length_nil] at hlength
  omega

/-- **Percent signs are read one by one.**  What a template comes to is what its tokens come to, but
for one exception: the second percent sign of a pair and the letter of a slot right behind it are a
slot.  So a template is read in pairs for all diagnostics just if no such letter stands behind an
even number of percent signs. -/
theorem format_by_tokens (template : String) :
    (∀ d : Diagnostic, (d.format template).toList = fillTokens d (tokens template.toList)) ∧
    ((∀ d : Diagnostic,
        (d.format template).toList = (tokens template.toList).flatMap (Token.fill d)) ↔
      ¬ HasEvenRow template.toList) := by
  have hformat : ∀ d : Diagnostic,
      (d.format template).toList = fillTokens d (tokens template.toList) := by
    intro d
    rw [format, String.toList_ofList, flatMap_fill_pieces]
  refine ⟨hformat, fun h hrow => ?_, fun h d => ?_⟩
  · exact fillTokens_ne_flatMap (hasStray_of_hasEvenRow hrow)
      ((hformat sample).symm.trans (h sample))
  · rw [hformat, fillTokens_eq_flatMap fun hstray => h (hasEvenRow_of_hasStray hstray)]

/-- Not every template is read in pairs: the second percent sign begins a slot here. -/
theorem letter_behind_pair :
    ¬ ∀ (template : String) (d : Diagnostic),
      (d.format template).toList = (tokens template.toList).flatMap (Token.fill d) := by
  intro h
  exact absurd (h "%%f" ⟨"a.yaml", ⟨1, 2⟩, "m"⟩) (by decide +kernel)

end Diagnostic
end LintLocator
