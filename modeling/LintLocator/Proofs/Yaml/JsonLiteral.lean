import LintLocator.Proofs.Json.Term
import LintLocator.Proofs.Yaml.Gaps

/-!
# Literals of JSON as plain scalars

Numbers and words are made of letters, digits, signs and points, none of which means anything inside
of flow collections.  What ends them there ends a plain scalar too: a comma or a closing bracket,
with or without a gap before it.
-/

namespace LintLocator

namespace Json

/-! ## What literals are made of -/

/-- The characters of numbers and words. -/
def IsLiteralChar (c : Char) : Prop := c.isAlphanum = true ∨ c = '+' ∨ c = '-' ∨ c = '.'

theorem isLiteralChar_of_isDigit {c : Char} (h : c.isDigit = true) : IsLiteralChar c :=
  .inl (by rw [Char.isAlphanum, h, Bool.or_true])

theorem IsFraction.forall_mem {s : List Char} (h : IsFraction s) : ∀ c ∈ s, IsLiteralChar c := by
  rcases h with rfl | ⟨digits, ⟨-, hdigits⟩, rfl⟩
  · simp
  · intro c hc
    rcases List.mem_cons.mp hc with rfl | hc
    · exact .inr (.inr (.inr rfl))
    · exact isLiteralChar_of_isDigit (hdigits c hc)

theorem IsExponent.forall_mem {s : List Char} (h : IsExponent s) : ∀ c ∈ s, IsLiteralChar c := by
  rcases h with rfl | ⟨mark, sign, digits, hmark, hsign, ⟨-, hdigits⟩, rfl⟩
  · simp
  · intro c hc
    rcases List.mem_cons.mp hc with rfl | hc
    · rcases hmark with rfl | rfl
      · exact .inl rfl
      · exact .inl rfl
    · rcases List.mem_append.mp hc with hc | hc
      · rcases hsign with rfl | rfl | rfl
        · exact absurd hc (by simp)
        · exact .inr (.inl (List.mem_singleton.mp hc))
        · exact .inr (.inr (.inl (List.mem_singleton.mp hc)))
      · exact isLiteralChar_of_isDigit (hdigits c hc)

/-- How a literal starts: with a letter or a digit, or with a minus sign and a digit. -/
inductive Starts : List Char → Prop where
  | word (c : Char) (r : List Char) (h : c.isAlphanum = true) : Starts (c :: r)
  | minus (c : Char) (r : List Char) (h : c.isAlphanum = true) : Starts ('-' :: c :: r)

/-- **What literals are made of.** -/
theorem IsLiteral.starts_and_forall {s : List Char} (h : IsLiteral s) :
    Starts s ∧ ∀ c ∈ s, IsLiteralChar c := by
  rcases h with rfl | rfl | rfl | ⟨sign, whole, fraction, exponent, hsign, hwhole, hfraction,
    hexponent, rfl⟩
  · exact ⟨.word _ _ rfl, fun c hc => .inl (List.all_eq_true.mp rfl c hc)⟩
  · exact ⟨.word _ _ rfl, fun c hc => .inl (List.all_eq_true.mp rfl c hc)⟩
  · exact ⟨.word _ _ rfl, fun c hc => .inl (List.all_eq_true.mp rfl c hc)⟩
  · obtain ⟨d, left, rfl, hd, hleft⟩ := hwhole.exists_digit
    have halnum : d.isAlphanum = true := by rw [Char.isAlphanum, hd, Bool.or_true]
    have hdigits : ∀ c ∈ d :: (left ++ (fraction ++ exponent)), IsLiteralChar c := by
      intro c hc
      rcases List.mem_cons.mp hc with rfl | hc
      · exact .inl halnum
      · rcases List.mem_append.mp hc with hc | hc
        · exact isLiteralChar_of_isDigit (hleft c hc)
        · rcases List.mem_append.mp hc with hc | hc
          · exact hfraction.forall_mem c hc
          · exact hexponent.forall_mem c hc
    rcases hsign with rfl | rfl
    · exact ⟨.word d _ halnum, hdigits⟩
    · refine ⟨.minus d _ halnum, fun c hc => ?_⟩
      rcases List.mem_cons.mp hc with rfl | hc
      · exact .inr (.inr (.inl rfl))
      · exact hdigits c hc

end Json

namespace Yaml

/-- A letter or digit is none of the characters that YAML has a use for. -/
theorem ne_of_isAlphanum {c d : Char} (hc : c.isAlphanum = true) (hd : d.isAlphanum = false) :
    c ≠ d := by
  rintro rfl
  rw [hc] at hd
  exact absurd hd (by decide)

/-- The characters of literals end no plain scalar. -/
theorem isGap_isFlow_of_isLiteralChar {c : Char} (h : Json.IsLiteralChar c) :
    isGap c = false ∧ isFlow c = false ∧ c ≠ ':' := by
  rcases h with h | rfl | rfl | rfl
  · have hne : ∀ d : Char, d.isAlphanum = false → c ≠ d := fun d hd => ne_of_isAlphanum h hd
    refine ⟨?_, ?_, hne ':' rfl⟩
    · simp [isGap, isSpace, isBreak, hne ' ' rfl, hne '\t' rfl, hne '\n' rfl, hne '\r' rfl]
    · simp [isFlow, hne ',' rfl, hne '[' rfl, hne ']' rfl, hne '{' rfl, hne '}' rfl]
  · decide
  · decide
  · decide

/-- What may come behind a value in a flow collection. -/
def EndsValue (r : List Char) : Prop :=
  ∃ ch later, r = ch :: later ∧ (ch = ',' ∨ ch = ']' ∨ ch = '}')

/-- The indicators of flow collections have no other use. -/
theorem ne_of_isFlow {ch : Char} (h : isFlow ch = true) :
    isGap ch = false ∧ ch ≠ '#' ∧ ch ≠ '%' ∧ ch ≠ '-' ∧ ch ≠ '.' := by
  simp only [isFlow, Bool.or_eq_true, beq_iff_eq] at h
  rcases h with (((rfl | rfl) | rfl) | rfl) | rfl
  all_goals decide

theorem isFlow_of_endsValue {ch : Char} (h : ch = ',' ∨ ch = ']' ∨ ch = '}') :
    isFlow ch = true := by
  rcases h with rfl | rfl | rfl
  all_goals rfl

theorem EndsValue.stops {r : List Char} (h : EndsValue r) : Stops r := by
  obtain ⟨ch, later, rfl, hch⟩ := h
  obtain ⟨hgap, hcomment, -⟩ := ne_of_isFlow (isFlow_of_endsValue hch)
  exact stops_cons ⟨hgap, hcomment⟩

/-- A word goes up to a blank or an indicator of a flow collection. -/
theorem plainWord_append {w r : List Char} (hw : ∀ c ∈ w, Json.IsLiteralChar c)
    (hr : startsWith (fun c => isGap c || isFlow c) r = true) : plainWord true (w ++ r) = w := by
  induction w with
  | nil =>
    rcases r with _ | ⟨c, r⟩
    · rfl
    · have hc : (isGap c || isFlow c) = true := hr
      rw [List.nil_append, plainWord, if_pos (by simpa using hc)]
  | cons c w ih =>
    obtain ⟨hgap, hflow, hcolon⟩ := isGap_isFlow_of_isLiteralChar (hw c List.mem_cons_self)
    rw [List.cons_append, plainWord, if_neg (by simp [hgap, hflow]), if_neg (by simp [hcolon]),
      ih fun d hd => hw d (List.mem_cons_of_mem _ hd)]

/-- The gap behind a word is passed. -/
theorem readPlainGap_of_stops {gap r : List Char} (hgap : ∀ c ∈ gap, isGap c = true)
    (hr : Stops r) {c : Cursor} (hrest : c.rest = gap ++ r) (fuel : Nat)
    (hfuel : gap.length < fuel) (g : Gap) :
    ∃ h d, readPlainGap 0 fuel g c = some (h, d) ∧ d.rest = r := by
  induction fuel generalizing c g gap with
  | zero => omega
  | succ fuel ih =>
    rw [readPlainGap]
    rcases gap with _ | ⟨ch, gap⟩
    · rw [List.nil_append] at hrest
      refine ⟨g, c, ?_, hrest⟩
      rcases r with _ | ⟨ch, r⟩
      · simp only [hrest]
      · obtain ⟨hspace, hbreak⟩ := isGap_eq_false.mp (hr ch rfl).1
        simp [hrest, hspace, hbreak]
    · have hch := hgap ch List.mem_cons_self
      have hgap' : ∀ c ∈ gap, isGap c = true := fun c hc => hgap c (List.mem_cons_of_mem _ hc)
      have hcolumn : ¬ c.column < 0 := by
        rw [Cursor.column]
        omega
      rw [List.cons_append] at hrest
      rw [List.length_cons] at hfuel
      by_cases hspace : isSpace ch = true
      · have hbehind : (c.skipBlanks 1).rest = gap ++ r := by rw [Cursor.skipBlanks, hrest]; rfl
        by_cases hfresh : c.fresh = true
        · obtain ⟨h, d, hread, hd⟩ := ih hgap' hbehind (by omega) g
          exact ⟨h, d, by simp [hrest, hspace, hfresh, hcolumn, hread], hd⟩
        · obtain ⟨h, d, hread, hd⟩ := ih hgap' hbehind (by omega) (g.addBlank ch)
          exact ⟨h, d, by simp [hrest, hspace, hfresh, hread], hd⟩
      · have hbreak : isBreak ch = true := by simpa [isGap, hspace] using hch
        obtain ⟨left, hleft, hbehind⟩ := Cursor.skipBreak_of_stops hbreak hr hrest
        have hlength := hleft.length_le
        obtain ⟨h, d, hread, hd⟩ :=
          ih (fun c hc => hgap' c (hleft.mem hc)) hbehind (by omega)
            (if c.fresh then g.addEmptyLine else g.breakLine)
        exact ⟨h, d, by simp [hrest, hspace, hbreak, hread], hd⟩

theorem atDocumentMark_eq_false {c : Char} {r : List Char} (hdash : c ≠ '-') (hdot : c ≠ '.') :
    atDocumentMark (c :: r) = false := by
  unfold atDocumentMark
  split
  · next h => exact absurd (List.cons.inj h).1 hdash
  · next h => exact absurd (List.cons.inj h).1 hdot
  · rfl

theorem atFlowDash_eq_false {c : Char} {r : List Char} (hdash : c ≠ '-') :
    atFlowDash (c :: r) = false := by
  unfold atFlowDash
  split
  · next h => exact absurd (List.cons.inj h).1 hdash
  · rfl

theorem ne_nil_of_starts {s : List Char} (h : Json.Starts s) : s ≠ [] := by
  rintro rfl
  cases h

/-- A literal is no mark between documents, no comment and no dash before an indicator. -/
theorem not_mark_of_starts {s : List Char} (h : Json.Starts s) (r : List Char) :
    atDocumentMark (s ++ r) = false ∧ startsWith (· == '#') (s ++ r) = false ∧
      atFlowDash (s ++ r) = false := by
  cases h with
  | word c s h =>
    have hne : ∀ d : Char, d.isAlphanum = false → c ≠ d := fun d hd => ne_of_isAlphanum h hd
    refine ⟨atDocumentMark_eq_false (hne '-' rfl) (hne '.' rfl), ?_,
      atFlowDash_eq_false (hne '-' rfl)⟩
    simpa [startsWith] using hne '#' rfl
  | minus c s h =>
    have hne : ∀ d : Char, d.isAlphanum = false → c ≠ d := fun d hd => ne_of_isAlphanum h hd
    refine ⟨?_, rfl, ?_⟩
    · rw [List.cons_append, List.cons_append]
      unfold atDocumentMark
      split
      · next h => exact absurd (List.cons.inj (List.cons.inj h).2).1 (hne '-' rfl)
      · next h => exact absurd (List.cons.inj h).1 (by decide)
      · rfl
    · show isFlow c = false
      exact (isGap_isFlow_of_isLiteralChar (.inl h)).2.1

/-- Behind the gap a plain scalar ends before the indicator of a flow collection. -/
theorem readPlainWords_of_endsValue {r : List Char} (hr : EndsValue r) {c : Cursor}
    (hrest : c.rest = r) {fuel : Nat} (hfuel : 0 < fuel) (text : List Char) (g : Gap) :
    readPlainWords true 0 fuel text g c = some (text, c) := by
  obtain ⟨fuel, rfl⟩ : ∃ n, fuel = n + 1 := ⟨fuel - 1, by omega⟩
  obtain ⟨ch, later, rfl, hch⟩ := hr
  have hflow := isFlow_of_endsValue hch
  obtain ⟨-, hcomment, -, hdash, hdot⟩ := ne_of_isFlow hflow
  have hword : plainWord true (ch :: later) = [] := by
    rw [plainWord, if_pos (by simp [hflow])]
  rw [readPlainWords, hrest]
  simp [atDocumentMark_eq_false hdash hdot, startsWith, hcomment, atFlowDash_eq_false hdash, hword]

/-- What ends a value ends a word, with or without a gap before it. -/
theorem startsWith_of_endsValue {gap r : List Char} (hgap : ∀ c ∈ gap, isGap c = true)
    (hr : EndsValue r) : startsWith (fun c => isGap c || isFlow c) (gap ++ r) = true := by
  rcases gap with _ | ⟨b, gap⟩
  · obtain ⟨ch, later, rfl, hch⟩ := hr
    simp [startsWith, isFlow_of_endsValue hch]
  · simp [startsWith, hgap b List.mem_cons_self]

/-- The first word of a plain scalar is read, and a gap behind it. -/
theorem readPlainWords_word {s r : List Char} {c : Cursor} (hne : s ≠ [])
    (hmark : atDocumentMark c.rest = false) (hcomment : startsWith (· == '#') c.rest = false)
    (hdash : atFlowDash c.rest = false) (hword : plainWord true c.rest = s)
    (hbehind : (c.skip s.length).rest = r) (fuel : Nat) :
    readPlainWords true 0 (fuel + 1) [] Gap.none c =
      if !startsWith isGap r then some (s.reverse, c.skip s.length)
      else (readPlainGap 0 r.length Gap.none (c.skip s.length)).bind fun p =>
        readPlainWords true 0 fuel s.reverse p.1 p.2 := by
  obtain ⟨b, w, rfl⟩ := List.exists_cons_of_ne_nil hne
  rw [readPlainWords, hword]
  simp only [hmark, hcomment, hdash, hbehind, Bool.and_false, Bool.or_false, Bool.false_eq_true,
    if_false, Gap.text_none, List.reverse_nil, List.append_nil]
  cases readPlainGap 0 r.length Gap.none (c.skip (b :: w).length) with
  | none => rfl
  | some found => rfl

theorem readPlainWords_literal {s gap r : List Char} (hs : Json.IsLiteral s)
    (hgap : ∀ c ∈ gap, isGap c = true) (hr : EndsValue r) {c : Cursor}
    (hrest : c.rest = s ++ (gap ++ r)) :
    ∃ d, readPlainWords true 0 (c.rest.length + 1) [] Gap.none c = some (s.reverse, d) ∧
      d.rest = r := by
  obtain ⟨hstarts, hchars⟩ := hs.starts_and_forall
  obtain ⟨hmark, hcomment, hdash⟩ := not_mark_of_starts hstarts (gap ++ r)
  have hword := plainWord_append hchars (startsWith_of_endsValue hgap hr)
  rw [← hrest] at hmark hcomment hdash hword
  have hbehind : (c.skip s.length).rest = gap ++ r := by
    rw [Cursor.skip, hrest]
    exact List.drop_left
  rw [readPlainWords_word (ne_nil_of_starts hstarts) hmark hcomment hdash hword hbehind]
  by_cases hbare : gap = []
  · subst hbare
    obtain ⟨ch, later, rfl, hch⟩ := hr
    have hstop : startsWith isGap ([] ++ ch :: later) = false :=
      (ne_of_isFlow (isFlow_of_endsValue hch)).1
    exact ⟨c.skip s.length, by rw [hstop]; rfl, hbehind⟩
  · obtain ⟨b, left, rfl⟩ := List.exists_cons_of_ne_nil hbare
    have hstart : startsWith isGap (b :: left ++ r) = true := hgap b List.mem_cons_self
    have hfuel : 0 < c.rest.length := by
      rw [hrest, List.length_append, List.length_append, List.length_cons]
      omega
    obtain ⟨g, d, hpass, hd⟩ := readPlainGap_of_stops hgap hr.stops hbehind
      (b :: left ++ r).length (by obtain ⟨ch, later, rfl, -⟩ := hr; simp) Gap.none
    refine ⟨d, ?_, hd⟩
    rw [hstart, hpass]
    exact readPlainWords_of_endsValue hr hd hfuel s.reverse g

/-- **A literal is read as it is written**, with the gap behind it. -/
theorem readPlain_literal {s gap r : List Char} (hs : Json.IsLiteral s)
    (hgap : ∀ c ∈ gap, isGap c = true) (hr : EndsValue r) {c : Cursor}
    (hrest : c.rest = s ++ (gap ++ r)) :
    ∃ d, readPlain true 0 c = some (s, d) ∧ d.rest = r := by
  obtain ⟨d, hread, hd⟩ := readPlainWords_literal hs hgap hr hrest
  have hne := ne_nil_of_starts hs.starts_and_forall.1
  have hcolumn : ¬ c.column < 0 := by
    rw [Cursor.column]
    omega
  exact ⟨d, by simp [readPlain, hcolumn, hread, hne], hd⟩

end Yaml
end LintLocator
