import LintLocator.Proofs.Json.Term

/-!
# The tokens of a term

The text of a term is cut into the tokens that its grammar names: one for each bracket, comma,
colon, literal and string, and none for blanks.  What is cut off does not depend on what comes
behind it, with one exception: a number goes on as long as it can, so what comes behind it must
not go on with it (`Stops`).  Nothing does that can stand behind a value.
-/

namespace LintLocator

namespace Json

/-! ## Tokens in front of a rest -/

/-- More fuel does no harm. -/
theorem tokensWithin?_mono {fuel : Nat} {r : Pieces} {ts : List Token}
    (h : tokensWithin? fuel r = some ts) {more : Nat} (hle : fuel ≤ more) :
    tokensWithin? more r = some ts := by
  induction fuel generalizing r ts more with
  | zero =>
    cases r with
    | nil => rwa [tokensWithin?_nil] at h ⊢
    | cons p r => cases h
  | succ fuel ih =>
    obtain ⟨more, rfl⟩ : ∃ n, more = n + 1 := ⟨more - 1, by omega⟩
    have hle : fuel ≤ more := Nat.le_of_succ_le_succ hle
    match r with
    | [] => rwa [tokensWithin?_nil] at h ⊢
    | none :: r => cases h
    | some c :: r =>
      rw [tokensWithin?_succ_cons] at h ⊢
      by_cases hc : isBlank c = true
      · rw [if_pos hc] at h ⊢
        exact ih h hle
      · rw [if_neg hc, Option.bind_eq_some_iff] at h
        obtain ⟨p, hp, h⟩ := h
        obtain ⟨us, hus, rfl⟩ := Option.map_eq_some_iff.mp h
        rw [if_neg hc, hp, Option.bind_some, ih hus hle]
        rfl

/-- In front of `rest`, the tokens of a text are `ts`.  Its characters are fuel enough for them. -/
def Reads (text : List Char) (ts : List Token) (rest : Pieces) : Prop :=
  ∀ fuel us, tokensWithin? fuel rest = some us →
    tokensWithin? (text.length + fuel) (text.map some ++ rest) = some (ts ++ us)

theorem Reads.append {s t : List Char} {us vs : List Token} {rest : Pieces}
    (hs : Reads s us (t.map some ++ rest)) (ht : Reads t vs rest) :
    Reads (s ++ t) (us ++ vs) rest := by
  intro fuel ws hws
  have h := hs _ _ (ht _ _ hws)
  rwa [← Nat.add_assoc, ← List.length_append, ← List.append_assoc, ← List.map_append,
    ← List.append_assoc] at h

/-- A token of one or more characters. -/
theorem reads_token {c : Char} {s : List Char} {token : Token} {rest : Pieces}
    (hc : isBlank c = false) (h : tokenAt? c (s.map some ++ rest) = some (token, rest)) :
    Reads (c :: s) [token] rest := by
  intro fuel us hus
  have hus := tokensWithin?_mono hus (Nat.le_add_left fuel s.length)
  rw [List.length_cons, Nat.succ_add, List.map_cons, List.cons_append,
    tokensWithin?_succ_cons, hc, h, Option.bind_some, hus]
  rfl

theorem reads_blanks (gap : Blanks) (rest : Pieces) : Reads gap.chars [] rest := by
  obtain ⟨chars, hblank⟩ := gap
  induction chars with
  | nil =>
    intro fuel us hus
    rwa [List.length_nil, Nat.zero_add]
  | cons c chars ih =>
    intro fuel us hus
    have hc : isBlank c = true := hblank c List.mem_cons_self
    have ih := ih (fun d hd => hblank d (List.mem_cons_of_mem c hd)) fuel us hus
    rw [List.length_cons, Nat.succ_add, List.map_cons, List.cons_append,
      tokensWithin?_succ_cons, if_pos hc]
    exact ih

variable {t : List Char} {ts : List Token} {rest : Pieces}

theorem Reads.blanks_append (gap : Blanks) (h : Reads t ts rest) :
    Reads (gap.chars ++ t) ts rest := (reads_blanks gap _).append h

theorem Reads.append_blanks (gap : Blanks) (h : Reads t ts (gap.chars.map some ++ rest)) :
    Reads (t ++ gap.chars) ts rest := by
  have h := h.append (reads_blanks gap rest)
  rwa [List.append_nil] at h

/-- A token of one character, whatever comes behind it. -/
theorem reads_mark {c : Char} {token : Token} (hc : isBlank c = false)
    (h : ∀ r, tokenAt? c r = some (token, r)) : Reads [c] [token] rest :=
  reads_token hc (h _)

theorem Reads.mark_append {c : Char} {token : Token} (hc : isBlank c = false)
    (h : ∀ r, tokenAt? c r = some (token, r)) (ht : Reads t ts rest) :
    Reads (c :: t) (token :: ts) rest := (reads_mark hc h).append ht

/-! ## Numbers -/

/-- Nothing in front goes on with digits. -/
def EndsDigits (rest : Pieces) : Prop := ∀ c r, rest = some c :: r → c.isDigit = false

/-- Nothing in front goes on with a number. -/
def Stops (rest : Pieces) : Prop :=
  ∀ c r, rest = some c :: r → c.isDigit = false ∧ c ≠ '.' ∧ c ≠ 'e' ∧ c ≠ 'E'

theorem stops_nil : Stops [] := by
  intro c r h
  cases h

theorem stops_cons {c : Char} (h : c.isDigit = false ∧ c ≠ '.' ∧ c ≠ 'e' ∧ c ≠ 'E')
    (r : Pieces) : Stops (some c :: r) := by
  intro d s hd
  cases hd
  exact h

theorem eq_of_isBlank {c : Char} (h : isBlank c = true) :
    c = ' ' ∨ c = '\t' ∨ c = '\n' ∨ c = '\r' := by
  simpa [isBlank, or_assoc] using h

theorem Stops.blanks_append (gap : Blanks) (h : Stops rest) :
    Stops (gap.chars.map some ++ rest) := by
  obtain ⟨_ | ⟨c, chars⟩, hblank⟩ := gap
  · exact h
  · refine stops_cons ?_ _
    rcases eq_of_isBlank (hblank c List.mem_cons_self) with rfl | rfl | rfl | rfl
    · decide
    · decide
    · decide
    · decide

/-- What may stand behind an item or a member that others follow. -/
theorem stops_comma (gap : Blanks) (t : List Char) (rest : Pieces) :
    Stops ((gap.chars ++ ',' :: t).map some ++ rest) := by
  rw [List.map_append, List.append_assoc]
  exact (stops_cons (by decide) _).blanks_append gap

/-- Digits are skipped up to the first character that is none. -/
theorem digits?_append {s : List Char} (hs : IsDigits s) (hrest : EndsDigits rest) :
    digits? (s.map some ++ rest) = some rest := by
  obtain ⟨hne, hdigits⟩ := hs
  obtain ⟨d, s, rfl⟩ := List.exists_cons_of_ne_nil hne
  have hall : ∀ p ∈ s.map some, isDigit p = true := by
    intro p hp
    obtain ⟨c, hc, rfl⟩ := List.mem_map.mp hp
    exact hdigits c (List.mem_cons_of_mem d hc)
  have hstop : rest.dropWhile isDigit = rest := by
    match rest with
    | [] => rfl
    | none :: r => rfl
    | some c :: r => exact List.dropWhile_cons_of_neg (by simp [isDigit, hrest c r rfl])
  have hd : isDigit (some d) = true := hdigits d List.mem_cons_self
  rw [List.map_cons, List.cons_append, digits?, if_pos hd, List.dropWhile_append_of_pos hall, hstop]

theorem whole?_append {s : List Char} (hs : IsWhole s) (hrest : EndsDigits rest) :
    whole? (s.map some ++ rest) = some rest := by
  rcases hs with rfl | ⟨hdigits, hhead⟩
  · rfl
  · have h := digits?_append hdigits hrest
    rw [whole?]
    · exact h
    · intro r hr
      obtain ⟨d, s, rfl⟩ := List.exists_cons_of_ne_nil hdigits.1
      cases hr
      exact hhead rfl

theorem fraction?_append {s : List Char} (hs : IsFraction s)
    (hrest : ∀ c r, rest = some c :: r → c.isDigit = false ∧ c ≠ '.') :
    fraction? (s.map some ++ rest) = some rest := by
  rcases hs with rfl | ⟨digits, hdigits, rfl⟩
  · rw [List.map_nil, List.nil_append, fraction?]
    intro r hr
    exact (hrest _ r hr).2 rfl
  · exact digits?_append hdigits fun c r hr => (hrest c r hr).1

theorem exponentDigits?_append {sign digits : List Char}
    (hsign : sign = [] ∨ sign = ['+'] ∨ sign = ['-']) (hdigits : IsDigits digits)
    (hrest : EndsDigits rest) :
    exponentDigits? ((sign ++ digits).map some ++ rest) = some rest := by
  have h := digits?_append hdigits hrest
  rcases hsign with rfl | rfl | rfl
  · obtain ⟨d, digits, rfl⟩ := List.exists_cons_of_ne_nil hdigits.1
    have hd := hdigits.2 d List.mem_cons_self
    rw [List.nil_append, exponentDigits?]
    · exact h
    · intro r hr
      cases hr
      exact absurd hd (by decide)
    · intro r hr
      cases hr
      exact absurd hd (by decide)
  · exact h
  · exact h

theorem exponent?_append {s : List Char} (hs : IsExponent s) (hrest : Stops rest) :
    exponent? (s.map some ++ rest) = some rest := by
  rcases hs with rfl | ⟨mark, sign, digits, hmark, hsign, hdigits, rfl⟩
  · rw [List.map_nil, List.nil_append, exponent?]
    · intro r hr
      exact (hrest _ r hr).2.2.1 rfl
    · intro r hr
      exact (hrest _ r hr).2.2.2 rfl
  · have h := exponentDigits?_append hsign hdigits fun c r hr => (hrest c r hr).1
    rcases hmark with rfl | rfl
    · exact h
    · exact h

/-- An exponent starts with its mark. -/
theorem IsExponent.head {s : List Char} (hs : IsExponent s) (hrest : Stops rest) :
    ∀ c r, s.map some ++ rest = some c :: r → c.isDigit = false ∧ c ≠ '.' := by
  intro c r h
  rcases hs with rfl | ⟨mark, sign, digits, hmark, -, -, rfl⟩
  · obtain ⟨hdigit, hpoint, -⟩ := hrest c r h
    exact ⟨hdigit, hpoint⟩
  · cases h
    rcases hmark with rfl | rfl
    · exact ⟨rfl, by decide⟩
    · exact ⟨rfl, by decide⟩

/-- A fraction starts with its point. -/
theorem IsFraction.endsDigits {s : List Char} (hs : IsFraction s)
    (hrest : EndsDigits rest) : EndsDigits (s.map some ++ rest) := by
  intro c r h
  rcases hs with rfl | ⟨digits, -, rfl⟩
  · exact hrest c r h
  · cases h
    rfl

/-- **A number without its sign is skipped whole.** -/
theorem unsigned?_append {whole fraction exponent : List Char} (hwhole : IsWhole whole)
    (hfraction : IsFraction fraction) (hexponent : IsExponent exponent) (hrest : Stops rest) :
    unsigned? ((whole ++ (fraction ++ exponent)).map some ++ rest) = some rest := by
  have hhead := hexponent.head hrest
  have hdigit : EndsDigits _ := hfraction.endsDigits fun c r hr => (hhead c r hr).1
  rw [List.map_append, List.map_append, List.append_assoc, List.append_assoc, unsigned?,
    whole?_append hwhole hdigit, Option.bind_some, fraction?_append hfraction hhead,
    Option.bind_some, exponent?_append hexponent hrest]

theorem tokenAt?_of_isDigit {c : Char} (h : c.isDigit = true) (r : Pieces) :
    tokenAt? c r = (unsigned? (some c :: r)).map fun s => (.number, s) := by
  unfold tokenAt?
  split <;> first | rfl | exact absurd h (by decide)

theorem isBlank_of_isDigit {c : Char} (h : c.isDigit = true) : isBlank c = false := by
  rw [Bool.eq_false_iff]
  intro hblank
  rcases eq_of_isBlank hblank with rfl | rfl | rfl | rfl <;> exact absurd h (by decide)

theorem reads_number {s : List Char} (h : IsNumber s) (hrest : Stops rest) :
    Reads s [.number] rest := by
  obtain ⟨sign, whole, fraction, exponent, hsign, hwhole, hfraction, hexponent, rfl⟩ := h
  have hskip := unsigned?_append hwhole hfraction hexponent hrest
  rcases hsign with rfl | rfl
  · obtain ⟨d, digits, rfl, hd, -⟩ := hwhole.exists_digit
    refine reads_token (isBlank_of_isDigit hd) ?_
    rw [tokenAt?_of_isDigit hd]
    exact congrArg (Option.map _) hskip
  · exact reads_token rfl (congrArg (Option.map _) hskip)

/-! ## Literals and strings -/

/-- The token of a literal. -/
def literalToken : List Char → Token
  | ['t', 'r', 'u', 'e'] => .boolean true
  | ['f', 'a', 'l', 's', 'e'] => .boolean false
  | ['n', 'u', 'l', 'l'] => .null
  | _ => .number

theorem literalToken_of_isNumber {s : List Char} (h : IsNumber s) : literalToken s = .number := by
  obtain ⟨sign, whole, fraction, exponent, hsign, hwhole, -, -, rfl⟩ := h
  obtain ⟨d, digits, rfl, hd, -⟩ := hwhole.exists_digit
  have hne {w : Char} (hw : w.isDigit = false) : d ≠ w := by
    intro h
    rw [h, hw] at hd
    cases hd
  rcases hsign with rfl | rfl
  · rw [List.nil_append, List.cons_append, literalToken]
    · exact fun h => hne rfl (List.cons.inj h).1
    · exact fun h => hne rfl (List.cons.inj h).1
    · exact fun h => hne rfl (List.cons.inj h).1
  · rfl

theorem reads_literal {s : List Char} (h : IsLiteral s) (hrest : Stops rest) :
    Reads s [literalToken s] rest := by
  rcases h with rfl | rfl | rfl | h
  · exact reads_token rfl rfl
  · exact reads_token rfl rfl
  · exact reads_token rfl rfl
  · rw [literalToken_of_isNumber h]
    exact reads_number h hrest

theorem exists_four {s : List Char} (h : s.length = 4) : ∃ a b c d, s = [a, b, c, d] := by
  obtain ⟨a, s, rfl⟩ := List.exists_cons_of_length_eq_add_one h
  have h := Nat.succ.inj h
  obtain ⟨b, s, rfl⟩ := List.exists_cons_of_length_eq_add_one h
  have h := Nat.succ.inj h
  obtain ⟨c, s, rfl⟩ := List.exists_cons_of_length_eq_add_one h
  obtain ⟨d, rfl⟩ := List.length_eq_one_iff.mp (Nat.succ.inj h)
  exact ⟨a, b, c, d, rfl⟩

/-- One part of a string. -/
theorem stringTail?_piece (p : Piece) (r : Pieces) :
    stringTail? (p.text.map some ++ r) = (stringTail? r).map fun q => (p.atom :: q.1, q.2) := by
  cases p with
  | plain c h =>
    obtain ⟨hlow, hquote, hslash⟩ := h
    have hcontrol : (decide (c < ' ') || c == '\\') = false := by
      simp [hslash, Char.not_lt.mpr hlow]
    rw [Piece.text, List.map_cons, List.map_nil, List.singleton_append, stringTail?, hcontrol]
    · rfl
    · exact hquote
    · exact fun _ _ _ _ _ _ hc => hslash hc
    · exact fun _ _ _ hc => hslash hc
  | short letter c h =>
    have hletter : letter ≠ 'u' := by
      intro hu
      rw [hu] at h
      exact absurd h (by simp [shortEscape?])
    rw [Piece.text, List.map_cons, List.map_cons, List.map_nil, List.cons_append,
      List.singleton_append, stringTail?, h, Option.bind_some]
    · rfl
    · exact fun _ _ _ _ _ _ hc => hletter hc
  | code digits n hlength hvalue =>
    obtain ⟨a, b, c, d, rfl⟩ := exists_four hlength
    have hvalue : hexValue? 0 [some a, some b, some c, some d] = some n := hvalue
    rw [Piece.text, List.map_cons, List.map_cons, List.map_cons, List.map_cons, List.map_cons,
      List.map_cons, List.map_nil]
    simp only [List.cons_append, List.nil_append]
    rw [stringTail?, hvalue, Option.bind_some]
    rfl

theorem stringTail?_stringText (ps : List Piece) (r : Pieces) :
    stringTail? ((stringText ps).map some ++ some '"' :: r) = some (ps.map Piece.atom, r) := by
  induction ps with
  | nil => rfl
  | cons p ps ih =>
    rw [stringText_cons, List.map_append, List.append_assoc, stringTail?_piece, ih]
    rfl

/-- The text that a string has, if it has one. -/
def string? (ps : List Piece) : Option String := (decoded? ps).map String.ofList

theorem reads_string (ps : List Piece) : Reads (quoted ps) [.string (string? ps)] rest := by
  refine reads_token rfl ?_
  have h := stringTail?_stringText ps rest
  rw [List.map_append, List.append_assoc]
  exact congrArg (Option.map _) h

/-! ## Terms -/

/-- The tokens in front of the value of a member. -/
def Name.tokens (n : Name) : List Token := [.string (string? n.pieces), .colon]

mutual

/-- The tokens of a value. -/
def Term.tokens : Term → List Token
  | .literal text _ => [literalToken text]
  | .string ps => [.string (string? ps)]
  | .emptyArray _ => [.openArray, .closeArray]
  | .array items => .openArray :: (items.tokens ++ [.closeArray])
  | .emptyObject _ => [.openObject, .closeObject]
  | .object members => .openObject :: (members.tokens ++ [.closeObject])

/-- The tokens between the brackets of an array. -/
def Items.tokens : Items → List Token
  | .last _ item _ => item.tokens
  | .more _ item _ others => item.tokens ++ .comma :: others.tokens

/-- The tokens between the braces of an object. -/
def Members.tokens : Members → List Token
  | .last name value _ => name.tokens ++ value.tokens
  | .more name value _ others => name.tokens ++ (value.tokens ++ .comma :: others.tokens)

end

theorem reads_name (n : Name) : Reads n.text n.tokens rest := by
  have hcolon : Reads (':' :: n.behind.chars) [.colon] rest :=
    Reads.append_blanks n.behind (reads_mark rfl fun _ => rfl)
  exact Reads.blanks_append n.before ((reads_string n.pieces).append
    (Reads.blanks_append n.after hcolon))

mutual

/-- **The tokens of a value**, in front of anything that does not go on with a number. -/
theorem reads_term : ∀ (t : Term) {rest : Pieces}, Stops rest → Reads t.text t.tokens rest
  | .literal text h, _, hrest => reads_literal h hrest
  | .string ps, _, _ => reads_string ps
  | .emptyArray gap, _, _ =>
    Reads.mark_append rfl (fun _ => rfl) (Reads.blanks_append gap (reads_mark rfl fun _ => rfl))
  -- A collection ends with a bracket of its own, so nothing is asked of what stands behind it.
  | .array items, _, _ =>
    have hitems := reads_items items (stops_cons (by decide) _)
    Reads.mark_append rfl (fun _ => rfl) (hitems.append (reads_mark rfl fun _ => rfl))
  | .emptyObject gap, _, _ =>
    Reads.mark_append rfl (fun _ => rfl) (Reads.blanks_append gap (reads_mark rfl fun _ => rfl))
  | .object members, _, _ =>
    have hmembers := reads_members members (stops_cons (by decide) _)
    Reads.mark_append rfl (fun _ => rfl) (hmembers.append (reads_mark rfl fun _ => rfl))

theorem reads_items : ∀ (items : Items) {rest : Pieces}, Stops rest →
    Reads items.text items.tokens rest
  | .last before item after, _, hrest =>
    have hitem := reads_term item (hrest.blanks_append after)
    Reads.blanks_append before (Reads.append_blanks after hitem)
  | .more before item after others, _, hrest =>
    have hothers : Reads (',' :: others.text) (.comma :: others.tokens) _ :=
      Reads.mark_append rfl (fun _ => rfl) (reads_items others hrest)
    have hitem := reads_term item (stops_comma after others.text _)
    Reads.blanks_append before (hitem.append (Reads.blanks_append after hothers))

theorem reads_members : ∀ (members : Members) {rest : Pieces}, Stops rest →
    Reads members.text members.tokens rest
  | .last name value after, _, hrest =>
    have hvalue := reads_term value (hrest.blanks_append after)
    (reads_name name).append (Reads.append_blanks after hvalue)
  | .more name value after others, _, hrest =>
    have hothers : Reads (',' :: others.text) (.comma :: others.tokens) _ :=
      Reads.mark_append rfl (fun _ => rfl) (reads_members others hrest)
    have hvalue := reads_term value (stops_comma after others.text _)
    (reads_name name).append (hvalue.append (Reads.blanks_append after hothers))

end

/-- **The tokens of a text** that holds one value, with blanks before and behind it. -/
theorem tokens?_text (before : Blanks) (t : Term) (after : Blanks) :
    tokens? ((before.chars ++ (t.text ++ after.chars)).map some) = some t.tokens := by
  have hterm := reads_term t (stops_nil.blanks_append after)
  have h := Reads.blanks_append before (Reads.append_blanks after hterm) 0 [] rfl
  rw [List.append_nil, List.append_nil, Nat.add_zero] at h
  rw [tokens?, List.length_map, h]

end Json
end LintLocator
