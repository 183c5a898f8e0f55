import LintLocator.Proofs.Json.Term
import LintLocator.Proofs.Yaml.Gaps
import Mathlib.Algebra.Group.Nat.Even

/-!
# Strings of JSON as quoted scalars

A quoted scalar is read in turns of a word and a gap, a string of JSON in pieces.  Spaces are the
only pieces that a gap may hold, since the line breaks and tabs of a string are escaped.  So the
pieces up to the next space are a word, the spaces behind it a gap, and `readQuotedWords_pieces`
goes on from there.  An escape for a half of a surrogate pair stands for no character; there the
word, and with it the string, is refused.
-/

namespace LintLocator
namespace Yaml

open Json (Piece)

/-! ## Escapes -/

theorem hexDigit?_eq (c : Char) : hexDigit? c = Json.hexDigit? c := by
  have hdigit : c.isDigit = (decide ('0' ≤ c) && decide (c ≤ '9')) := rfl
  simp only [hexDigit?, Json.hexDigit?, hdigit, Bool.and_eq_true, decide_eq_true_eq]

theorem hexValue?_eq (digits : List Char) (acc : Nat) :
    hexValue? acc digits = Json.hexValue? acc (digits.map some) := by
  induction digits generalizing acc with
  | nil => rfl
  | cons c digits ih =>
    simp only [List.map_cons, hexValue?, Json.hexValue?, hexDigit?_eq, ih]

theorem hexDigit?_lt {c : Char} {d : Nat} (h : Json.hexDigit? c = some d) : d < 16 := by
  have hsub : ∀ a b : Char, c ≤ b → c.toNat - a.toNat ≤ b.toNat - a.toNat :=
    fun a b hle => Nat.sub_le_sub_right hle _
  rw [Json.hexDigit?] at h
  split at h
  · next hdigit =>
    obtain ⟨-, hle⟩ : '0' ≤ c ∧ c ≤ '9' := by simpa using hdigit
    have hd := Option.some.inj h
    have hbound : c.toNat - '0'.toNat ≤ 9 := hsub '0' '9' hle
    omega
  · split at h
    · next hletter =>
      obtain ⟨-, hle⟩ : 'a' ≤ c ∧ c ≤ 'f' := by simpa using hletter
      have hd := Option.some.inj h
      have hbound : c.toNat - 'a'.toNat ≤ 5 := hsub 'a' 'f' hle
      omega
    · split at h
      · next hletter =>
        obtain ⟨-, hle⟩ : 'A' ≤ c ∧ c ≤ 'F' := by simpa using hletter
        have hd := Option.some.inj h
        have hbound : c.toNat - 'A'.toNat ≤ 5 := hsub 'A' 'F' hle
        omega
      · exact absurd h (by simp)

/-- Digits have no more values than there are ways to write them. -/
theorem hexValue?_lt {digits : List Char} {acc n : Nat}
    (h : Json.hexValue? acc (digits.map some) = some n) :
    n < (acc + 1) * 16 ^ digits.length := by
  induction digits generalizing acc with
  | nil =>
    obtain rfl := Option.some.inj h
    simp
  | cons c digits ih =>
    rw [List.map_cons, Json.hexValue?, Option.bind_eq_some_iff] at h
    obtain ⟨d, hd, hn⟩ := h
    have hlt := hexDigit?_lt hd
    calc n < (acc * 16 + d + 1) * 16 ^ digits.length := ih hn
      _ ≤ ((acc + 1) * 16) * 16 ^ digits.length := Nat.mul_le_mul_right _ (by omega)
      _ = (acc + 1) * 16 ^ (c :: digits).length := by
        rw [List.length_cons, Nat.pow_succ, Nat.mul_assoc, Nat.mul_comm 16]

theorem letterEscape?_of_shortEscape? {letter c : Char}
    (h : Json.shortEscape? letter = some c) : letterEscape? letter = some c := by
  unfold Json.shortEscape? at h
  split at h
  case h_9 => exact absurd h (by simp)
  all_goals exact h

/-- **An escape is read as the character that it stands for**, and refused if there is none. -/
theorem readEscape_piece {p : Piece} {r : List Char} {c : Cursor}
    (hplain : p.text.head? = some '\\') (hrest : '\\' :: c.rest = p.text ++ r) :
    readEscape c = p.char?.map fun ch => (ch, c.skip (p.text.length - 1)) := by
  cases p with
  | plain ch h =>
    obtain rfl : ch = '\\' := by simpa [Piece.text] using hplain
    exact absurd rfl h.2.2
  | short letter ch h =>
    have hrest : c.rest = letter :: r := by simpa [Piece.text] using hrest
    simp only [readEscape, hrest, letterEscape?_of_shortEscape? h]
    rfl
  | code digits n hlength hvalue =>
    have hrest : c.rest = 'u' :: (digits ++ r) := by simpa [Piece.text] using hrest
    have hn : hexValue? 0 digits = some n := (hexValue?_eq digits 0).trans hvalue
    have hlt : n < 65536 := by
      have h := hexValue?_lt hvalue
      rw [hlength] at h
      omega
    have hlong : ¬ (digits ++ r).length < 4 := by
      rw [List.length_append]
      omega
    have htake : (digits ++ r).take 4 = digits := List.take_left' hlength
    have hread : readEscape c = (charOfCode? n).map fun ch => (ch, c.skip 5) := by
      have hletter : letterEscape? 'u' = none := rfl
      have hcode : codeEscape? 'u' = some 4 := rfl
      simp only [readEscape, hrest, hletter, hcode, if_neg hlong, htake, hn, Option.bind_some]
      cases charOfCode? n with
      | none => rfl
      | some ch => rfl
    have hskip : (Piece.code digits n hlength hvalue).text.length - 1 = 5 := by
      simp [Piece.text, hlength]
    have hchar : charOfCode? n = (Piece.code digits n hlength hvalue).char? := by
      rw [charOfCode?, Piece.char?, Json.isSurrogate]
      by_cases hlow : n < 0xD800
      · have hle : ¬ 0xD800 ≤ n := by omega
        simp [hlow, hle]
      · by_cases hhigh : n < 0xE000
        · have hbelow : ¬ 0xDFFF < n := by omega
          simp [hlow, hhigh, hbelow, Nat.le_of_not_lt hlow]
        · have habove : 0xDFFF < n := by omega
          have hcode : n < 0x110000 := by omega
          simp [hhigh, habove, hcode]
    rw [hread, hskip, hchar]

/-! ## Words -/

theorem isGap_of_plain {ch : Char} (h : ' ' ≤ ch) (hspace : ch ≠ ' ') : isGap ch = false := by
  have hlow : ∀ d : Char, d.toNat < ' '.toNat → ch ≠ d := by
    rintro d hd rfl
    exact absurd hd (Nat.not_lt.mpr h)
  simp [isGap, isSpace, isBreak, hspace, hlow '\t' (by decide), hlow '\n' (by decide),
    hlow '\r' (by decide)]

/-- An escape is a backslash, and what follows it is not the end of a line. -/
theorem exists_letter_of_escape {p : Piece} (hplain : p.text.head? = some '\\') :
    ∃ letter left, p.text = '\\' :: letter :: left ∧ isBreak letter = false := by
  cases p with
  | plain ch h =>
    obtain rfl : ch = '\\' := by simpa [Piece.text] using hplain
    exact absurd rfl h.2.2
  | short letter ch h =>
    refine ⟨letter, [], rfl, ?_⟩
    rw [Bool.eq_false_iff]
    intro hbreak
    rw [isBreak, Bool.or_eq_true, beq_iff_eq, beq_iff_eq] at hbreak
    rcases hbreak with rfl | rfl
    · exact absurd ((show Json.shortEscape? '\n' = none from rfl).symm.trans h) (by simp)
    · exact absurd ((show Json.shortEscape? '\r' = none from rfl).symm.trans h) (by simp)
  | code digits n hlength hvalue => exact ⟨'u', digits, rfl, rfl⟩

theorem readQuotedWord_backslash {c : Cursor} {letter : Char} {r : List Char}
    (hrest : c.rest = '\\' :: letter :: r) (hbreak : isBreak letter = false) (fuel : Nat)
    (text : List Char) :
    readQuotedWord '"' (fuel + 1) text c = (readEscape (c.skip 1)).bind fun found =>
      readQuotedWord '"' fuel (found.1 :: text) found.2 := by
  have hgap : isGap '\\' = false := rfl
  rw [readQuotedWord, hrest]
  cases readEscape (c.skip 1) with
  | none => simp [hgap, startsWith, hbreak]
  | some found => simp [hgap, startsWith, hbreak]

/-- One part of a word is read. -/
theorem readQuotedWord_piece {p : Piece} (hspace : p.isSpace = false) {r : List Char} {c : Cursor}
    (hrest : c.rest = p.text ++ r) (fuel : Nat) (text : List Char) :
    (∀ ch, p.char? = some ch → ∃ d, readQuotedWord '"' (fuel + 1) text c =
        readQuotedWord '"' fuel (ch :: text) d ∧ d.rest = r ∧ c.mark.col ≤ d.mark.col) ∧
      (p.char? = none → readQuotedWord '"' (fuel + 1) text c = none) := by
  by_cases hplain : p.text.head? = some '\\'
  · obtain ⟨letter, left, htext, hbreak⟩ := exists_letter_of_escape hplain
    rw [htext] at hrest
    have hbehind : (c.skip 1).rest = letter :: (left ++ r) := by rw [Cursor.skip, hrest]; rfl
    have hescape : readEscape (c.skip 1) =
        p.char?.map fun ch => (ch, (c.skip 1).skip (p.text.length - 1)) := by
      refine readEscape_piece (r := r) hplain ?_
      rw [hbehind, htext]
      rfl
    rw [readQuotedWord_backslash hrest hbreak, hescape]
    refine ⟨fun ch hch => ⟨(c.skip 1).skip (p.text.length - 1), ?_, ?_, ?_⟩, fun hch => ?_⟩
    · rw [hch]
      rfl
    · have hdrop : ((c.skip 1).skip (p.text.length - 1)).rest =
          (letter :: (left ++ r)).drop (p.text.length - 1) := by rw [← hbehind]; rfl
      have hleft : (letter :: (left ++ r)).drop (letter :: left).length = r := List.drop_left
      rw [hdrop, htext]
      exact hleft
    · show c.mark.col ≤ c.mark.col + 1 + (p.text.length - 1)
      omega
    · rw [hch]
      rfl
  · obtain ⟨ch, h, rfl⟩ : ∃ ch h, p = .plain ch h := by
      cases p with
      | plain ch h => exact ⟨ch, h, rfl⟩
      | short letter ch h => exact absurd rfl hplain
      | code digits n hlength hvalue => exact absurd rfl hplain
    have hne : ch ≠ ' ' := by
      rintro rfl
      exact absurd hspace (by simp [Piece.isSpace, Piece.text])
    have hgap := isGap_of_plain h.1 hne
    have hrest : c.rest = ch :: r := hrest
    refine ⟨fun d hd => ⟨c.skip 1, ?_, ?_, ?_⟩, fun hnone => absurd hnone (by simp [Piece.char?])⟩
    · obtain rfl : ch = d := Option.some.inj hd
      rw [readQuotedWord, hrest]
      simp [hgap, h.2.1, h.2.2]
    · rw [Cursor.skip, hrest]
      rfl
    · show c.mark.col ≤ c.mark.col + 1
      omega

/-- **A word is read up to the next space or the closing quote**, unless an escape in it stands for
no character. -/
theorem readQuotedWord_pieces {ps : List Piece} {r : List Char} {c : Cursor}
    (hrest : c.rest = Json.stringText ps ++ '"' :: r) (fuel : Nat)
    (hfuel : (Json.stringText ps).length < fuel) (text : List Char) :
    (Json.IsPlainText (ps.takeWhile fun p => !p.isSpace) →
        ∃ d, readQuotedWord '"' fuel text c =
          some ((Json.plainText (ps.takeWhile fun p => !p.isSpace)).reverse ++ text, false, d) ∧
          d.rest = Json.stringText (ps.dropWhile fun p => !p.isSpace) ++ '"' :: r ∧
          c.mark.col ≤ d.mark.col) ∧
      (¬ Json.IsPlainText (ps.takeWhile fun p => !p.isSpace) →
        readQuotedWord '"' fuel text c = none) := by
  induction ps generalizing c fuel text with
  | nil =>
    obtain ⟨fuel, rfl⟩ : ∃ n, fuel = n + 1 := ⟨fuel - 1, by omega⟩
    have hrest : c.rest = '"' :: r := hrest
    have hgap : isGap '"' = false := rfl
    refine ⟨fun _ => ⟨c, ?_, hrest, Nat.le_refl _⟩, fun h => absurd ?_ h⟩
    · rw [readQuotedWord, hrest]
      simp [hgap, Json.plainText]
    · intro p hp
      exact absurd hp (by simp)
  | cons p ps ih =>
    obtain ⟨fuel, rfl⟩ : ∃ n, fuel = n + 1 := ⟨fuel - 1, by omega⟩
    have hlength := p.length_text_pos
    rw [Json.stringText_cons, List.append_assoc] at hrest
    rw [Json.stringText_cons, List.length_append] at hfuel
    by_cases hspace : p.isSpace = true
    · have htake : (p :: ps).takeWhile (fun p => !p.isSpace) = [] :=
        List.takeWhile_cons_of_neg (by simp [hspace])
      have hdrop : (p :: ps).dropWhile (fun p => !p.isSpace) = p :: ps :=
        List.dropWhile_cons_of_neg (by simp [hspace])
      have hgap : isGap ' ' = true := rfl
      rw [htake, hdrop, Json.stringText_cons, List.append_assoc]
      refine ⟨fun _ => ⟨c, ?_, hrest, Nat.le_refl _⟩, fun h => absurd Json.isPlainText_nil h⟩
      rw [(Piece.eq_of_isSpace hspace).1] at hrest
      rw [readQuotedWord, hrest]
      simp [hgap, Json.plainText]
    · have hspace : p.isSpace = false := by simpa using hspace
      have htake : (p :: ps).takeWhile (fun p => !p.isSpace) =
          p :: ps.takeWhile (fun p => !p.isSpace) :=
        List.takeWhile_cons_of_pos (by simp [hspace])
      have hdrop : (p :: ps).dropWhile (fun p => !p.isSpace) =
          ps.dropWhile (fun p => !p.isSpace) := List.dropWhile_cons_of_pos (by simp [hspace])
      obtain ⟨hsome, hnone⟩ := readQuotedWord_piece hspace hrest fuel text
      rw [htake, hdrop, Json.isPlainText_cons]
      cases hch : p.char? with
      | none => exact ⟨fun h => absurd h.1 (by simp), fun _ => hnone hch⟩
      | some ch =>
        obtain ⟨d, hread, hd, hcol⟩ := hsome ch hch
        obtain ⟨hplain, hother⟩ := ih hd fuel (by omega) (ch :: text)
        refine ⟨fun h => ?_, fun h => hread.trans (hother fun hps => h ⟨rfl, hps⟩)⟩
        obtain ⟨e, hrest', he, hcol'⟩ := hplain h.2
        refine ⟨e, ?_, he, Nat.le_trans hcol hcol'⟩
        rw [hread, hrest', Json.plainText_cons hch, List.reverse_cons, List.append_assoc]
        rfl

/-! ## Whole strings -/

/-- What is not a space does not start with one. -/
theorem exists_text_of_not_isSpace {p : Piece} (h : p.isSpace = false) :
    ∃ ch left, p.text = ch :: left ∧ isGap ch = false := by
  cases p with
  | plain ch hch =>
    have hne : ch ≠ ' ' := by
      rintro rfl
      exact absurd h (by simp [Piece.isSpace, Piece.text])
    exact ⟨ch, [], rfl, isGap_of_plain hch.1 hne⟩
  | short letter ch hch => exact ⟨'\\', [letter], rfl, rfl⟩
  | code digits n hlength hvalue => exact ⟨'\\', 'u' :: digits, rfl, rfl⟩

theorem readQuotedGap_of_not_isGap {indent : Int} {fuel : Nat} {g : Gap} {c : Cursor} {ch : Char}
    {r : List Char} (hrest : c.rest = ch :: r) (hch : isGap ch = false) :
    readQuotedGap indent (fuel + 1) g c = some (g, c) := by
  obtain ⟨hspace, hbreak⟩ := isGap_eq_false.mp hch
  rw [readQuotedGap, hrest]
  simp [hspace, hbreak]

/-- A gap is read up to the next part that is not a space. -/
theorem readQuotedGap_pieces {ps : List Piece} {r : List Char} {c : Cursor}
    (hrest : c.rest = Json.stringText ps ++ '"' :: r) (fuel : Nat)
    (hfuel : (Json.stringText ps).length < fuel) (indent : Int) {g : Gap}
    (hg : g.broken = false) :
    ∃ h d, readQuotedGap indent fuel g c = some (h, d) ∧
      h.text.reverse = (Json.plainText (ps.takeWhile Piece.isSpace)).reverse ++ g.text.reverse ∧
      d.rest = Json.stringText (ps.dropWhile Piece.isSpace) ++ '"' :: r ∧
      c.mark.col ≤ d.mark.col := by
  induction ps generalizing c fuel g with
  | nil =>
    obtain ⟨fuel, rfl⟩ : ∃ n, fuel = n + 1 := ⟨fuel - 1, by omega⟩
    have hrest : c.rest = '"' :: r := hrest
    exact ⟨g, c, readQuotedGap_of_not_isGap hrest rfl, rfl, hrest, Nat.le_refl _⟩
  | cons p ps ih =>
    obtain ⟨fuel, rfl⟩ : ∃ n, fuel = n + 1 := ⟨fuel - 1, by omega⟩
    have hlength := p.length_text_pos
    rw [Json.stringText_cons, List.append_assoc] at hrest
    rw [Json.stringText_cons, List.length_append] at hfuel
    by_cases hspace : p.isSpace = true
    · obtain ⟨htext, hchar⟩ := Piece.eq_of_isSpace hspace
      rw [htext] at hrest
      have hstep : readQuotedGap indent (fuel + 1) g c =
          readQuotedGap indent fuel (g.addBlank ' ') (c.skipBlanks 1) := by
        have hblank : isSpace ' ' = true := rfl
        rw [readQuotedGap, hrest]
        simp [hg, hblank]
      have hbehind : (c.skipBlanks 1).rest = Json.stringText ps ++ '"' :: r := by
        rw [Cursor.skipBlanks, hrest]
        rfl
      have hadd : (g.addBlank ' ').broken = false := by simp [Gap.addBlank, hg]
      have htext : (g.addBlank ' ').text.reverse = ' ' :: g.text.reverse := by
        simp [Gap.text, Gap.addBlank, hg]
      obtain ⟨h, d, hread, hh, hd, hcol⟩ := ih hbehind fuel (by omega) hadd
      refine ⟨h, d, hstep.trans hread, ?_, ?_, ?_⟩
      · rw [hh, htext, List.takeWhile_cons_of_pos hspace, Json.plainText_cons hchar,
          List.reverse_cons, List.append_assoc]
        rfl
      · rw [hd, List.dropWhile_cons_of_pos hspace]
      · have hle : c.mark.col ≤ (c.skipBlanks 1).mark.col := Nat.le_succ _
        exact Nat.le_trans hle hcol
    · have hspace : p.isSpace = false := by simpa using hspace
      obtain ⟨ch, left, htext, hch⟩ := exists_text_of_not_isSpace hspace
      have hhead : c.rest = ch :: (left ++ (Json.stringText ps ++ '"' :: r)) := by
        rw [hrest, htext]
        rfl
      refine ⟨g, c, readQuotedGap_of_not_isGap hhead hch, ?_, ?_, Nat.le_refl _⟩
      · rw [List.takeWhile_cons_of_neg (by simp [hspace])]
        rfl
      · rw [List.dropWhile_cons_of_neg (by simp [hspace]), hrest, Json.stringText_cons,
          List.append_assoc]

/-- The spaces in front of other parts are a gap. -/
theorem exists_gap {p : Piece} {left : List Piece} {r : List Char} {c : Cursor}
    (hspace : p.isSpace = true) (hrest : c.rest = Json.stringText (p :: left) ++ '"' :: r) :
    ∃ spaces others gap d, p :: left = spaces ++ others ∧ Json.IsPlainText spaces ∧
      others.length ≤ left.length ∧ readQuotedGap (-1) c.rest.length Gap.none c = some (gap, d) ∧
      gap.text.reverse = (Json.plainText spaces).reverse ∧
      d.rest = Json.stringText others ++ '"' :: r ∧ c.mark.col ≤ d.mark.col := by
  obtain ⟨gap, d, hgap, htext, hd, hle⟩ :=
    readQuotedGap_pieces hrest c.rest.length (by simp [hrest]) (-1) (g := Gap.none) rfl
  refine ⟨(p :: left).takeWhile Piece.isSpace, (p :: left).dropWhile Piece.isSpace, gap, d,
    List.takeWhile_append_dropWhile.symm, fun q hq => ?_, ?_, hgap, ?_, hd, hle⟩
  · rw [(Piece.eq_of_isSpace (List.mem_takeWhile_imp hq)).2]
    rfl
  · rw [List.dropWhile_cons_of_pos hspace]
    exact List.length_dropWhile_le _ left
  · rw [htext, Gap.text_none]
    exact List.append_nil _

/-- Behind the opening quote no document can end. -/
theorem goesOn_of_col {c : Cursor} (hne : c.rest ≠ []) (hcol : 0 < c.mark.col) :
    (c.mark.col == 0 && atDocumentMark c.rest || c.atEnd || decide (c.column < -1)) = false := by
  have hzero : (c.mark.col == 0) = false := by
    rw [beq_eq_false_iff_ne]
    omega
  have hend : c.atEnd = false := List.isEmpty_eq_false_iff.mpr hne
  have hcolumn : ¬ c.column < -1 := by
    rw [Cursor.column]
    omega
  simp [hzero, hend, hcolumn]

/-- **A string is decoded behind its opening quote**, unless an escape in it stands for no
character. -/
theorem readQuotedWords_pieces {ps : List Piece} {r : List Char} {c : Cursor}
    (hrest : c.rest = Json.stringText ps ++ '"' :: r) (hcol : 0 < c.mark.col) {fuel : Nat}
    (hfuel : ps.length < fuel) (text : List Char) :
    (Json.IsPlainText ps → ∃ d, readQuotedWords '"' (-1) fuel text c =
        some ((Json.plainText ps).reverse ++ text, d) ∧ d.rest = r) ∧
      (¬ Json.IsPlainText ps → readQuotedWords '"' (-1) fuel text c = none) := by
  induction fuel generalizing ps c text with
  | zero => omega
  | succ fuel ih =>
    have hgoes := goesOn_of_col (c := c) (by simp [hrest]) hcol
    obtain ⟨hplain, hother⟩ :=
      readQuotedWord_pieces hrest c.rest.length (by simp [hrest]) text
    have hsplit : ps.takeWhile (fun p => !p.isSpace) ++ ps.dropWhile (fun p => !p.isSpace) = ps :=
      List.takeWhile_append_dropWhile
    generalize ps.takeWhile (fun p => !p.isSpace) = word at hsplit hplain hother
    generalize hleft : ps.dropWhile (fun p => !p.isSpace) = left at hsplit hplain
    rw [readQuotedWords, if_neg (by simp [hgoes]), ← hsplit, Json.isPlainText_append,
      Json.plainText_append]
    by_cases hword : Json.IsPlainText word
    · obtain ⟨d, hread, hd, hle⟩ := hplain hword
      rw [hread]
      rcases left with _ | ⟨p, left⟩
      -- the closing quote comes next
      · have hd : d.rest = '"' :: r := hd
        refine ⟨fun _ => ⟨d.skip 1, ?_, ?_⟩, fun h => absurd ⟨hword, Json.isPlainText_nil⟩ h⟩
        · simp [hd, startsWith, Json.plainText]
        · rw [Cursor.skip, hd]
          rfl
      -- a gap comes next
      · have hspace : p.isSpace = true := by
          have h := List.head?_dropWhile_not (fun p : Piece => !p.isSpace) ps
          rw [hleft] at h
          simpa using h
        have hquote : startsWith (· == '"') d.rest = false := by
          rw [hd, Json.stringText_cons, (Piece.eq_of_isSpace hspace).1]
          rfl
        obtain ⟨spaces, others, gap, e, hpieces, hspaces, hshort, hgap, htext, he, hle'⟩ :=
          exists_gap hspace hd
        rw [← hsplit, List.length_append, List.length_cons] at hfuel
        obtain ⟨hfound, hnone⟩ := ih he (Nat.lt_of_lt_of_le hcol (Nat.le_trans hle hle'))
          (by omega) (gap.text.reverse ++ ((Json.plainText word).reverse ++ text))
        simp only [hquote, hgap, Bool.false_eq_true, if_false]
        rw [hpieces, Json.isPlainText_append, Json.plainText_append]
        refine ⟨fun h => ?_, fun h => hnone fun hothers => h ⟨hword, hspaces, hothers⟩⟩
        obtain ⟨f, hf, hrest'⟩ := hfound h.2.2
        refine ⟨f, ?_, hrest'⟩
        rw [hf, htext]
        simp
    · rw [hother hword]
      exact ⟨fun h => absurd h.1 hword, fun _ => rfl⟩

/-- **A string is read with its quotes and the blanks of the line behind it**, if its escapes stand
for characters and if it is a key or a value of a flow collection. -/
theorem readQuoted_quoted {ps : List Piece} {gap r : List Char} {c : Cursor}
    (hgap : ∀ ch ∈ gap, isGap ch = true) (hr : Stops r)
    (hfollow : startsWith (fun ch => ch == ',' || ch == '}' || ch == ']' || ch == ':') r = true)
    (hrest : c.rest = Json.quoted ps ++ (gap ++ r)) :
    (Json.IsPlainText ps → ∃ d, readQuoted '"' true (-1) c = some (Json.plainText ps, d) ∧
        d.IsBefore r) ∧
      (¬ Json.IsPlainText ps → readQuoted '"' true (-1) c = none) := by
  have hbehind : (c.skip 1).rest = Json.stringText ps ++ '"' :: (gap ++ r) := by
    rw [Cursor.skip, hrest, Json.quoted]
    simp
  have hshort : ps.length < c.rest.length + 1 := by
    have hle := Json.length_le_length_stringText ps
    simp only [hrest, Json.quoted, List.length_append, List.length_cons]
    omega
  obtain ⟨hplain, hother⟩ := readQuotedWords_pieces hbehind (Nat.succ_pos _) hshort []
  refine ⟨fun h => ?_, fun h => ?_⟩
  · obtain ⟨d, hread, hd⟩ := hplain h
    obtain ⟨e, hskip, he⟩ := Cursor.skipMargin_of_stops hgap hr hd
    have hmay : mayFollowQuoted true (c.mark.line == e.mark.line) e.rest = true := by
      rw [he, mayFollowQuoted, Bool.or_eq_true]
      by_cases hne : gap.dropWhile isSpace = []
      · right
        rw [hne, List.nil_append]
        rcases r with _ | ⟨ch, r⟩
        · exact hfollow
        · simpa [startsWith] using hfollow
      · left
        obtain ⟨ch, left, hdrop, hbreak⟩ := exists_break_of_dropWhile hgap hne
        rw [hdrop]
        exact hbreak
    refine ⟨e, ?_, Cursor.skipMargin_isBefore hgap hr hd hskip⟩
    simp [readQuoted, hread, hskip, hmay]
  · simp [readQuoted, hother h]

end Yaml
end LintLocator
