import LintLocator.Proofs.Yaml.Places
import LintLocator.Yaml.Lexer

/-!
# Where the readers of scalars and names stop

Whatever a reader makes of the text, the cursor that it leaves behind is reached from the one it was
given (`Cursor.Reaches`).  The lemmas follow the readers one by one: one that loops is followed
along its fuel, and one that calls others puts together what these reach.  What has to be checked is
that a reader that counts columns passes no line break.
-/

namespace LintLocator
namespace Yaml

open Cursor (Reaches)

variable {c d : Cursor}

/-- An answer is given where the reader stands. -/
theorem reaches_of_some {α : Type} {a b : α} (h : some (a, c) = some (b, d)) : c.Reaches d := by
  obtain ⟨-, rfl⟩ := Prod.mk.inj (Option.some.inj h)
  exact .refl c

theorem reaches_of_some_pair {α β : Type} {a a' : α} {b b' : β}
    (h : some (a, b, c) = some (a', b', d)) : c.Reaches d := by
  obtain ⟨-, hpair⟩ := Prod.mk.inj (Option.some.inj h)
  exact reaches_of_some (congrArg some hpair)

/-! ## Plain scalars -/

theorem reaches_readPlainGap {indent : Int} {fuel : Nat} {g h : Gap}
    (hread : readPlainGap indent fuel g c = some (h, d)) : c.Reaches d := by
  induction fuel generalizing c g with
  | zero =>
    exact reaches_of_some hread
  | succ fuel ih =>
    rw [readPlainGap] at hread
    split at hread
    · exact reaches_of_some hread
    · next ch r hrest =>
      split at hread
      · next hspace =>
        have hone := Cursor.reaches_skipBlanks_one hrest (isBreak_eq_false_of_isSpace hspace)
        split at hread
        · exact hone.trans (ih hread)
        · split at hread
          · obtain ⟨e, he, hread⟩ := Option.bind_eq_some_iff.mp hread
            exact (Cursor.reaches_skipToLineEnd he).trans (ih hread)
          · exact hone.trans (ih hread)
      · split at hread
        · exact (Cursor.reaches_skipBreak c).trans (ih hread)
        · exact reaches_of_some hread

theorem exists_plainWord_append (inFlow : Bool) (s : List Char) :
    ∃ r, s = plainWord inFlow s ++ r ∧ ∀ ch ∈ plainWord inFlow s, isBreak ch = false := by
  induction s with
  | nil => exact ⟨[], rfl, by simp [plainWord]⟩
  | cons ch s ih =>
    rw [plainWord]
    split
    · exact ⟨ch :: s, rfl, by simp⟩
    · next hgap =>
      split
      · exact ⟨ch :: s, rfl, by simp⟩
      · obtain ⟨r, hr, hline⟩ := ih
        have hch : isBreak ch = false := by
          rw [Bool.not_eq_true, Bool.or_eq_false_iff] at hgap
          exact isBreak_eq_false_of_isGap hgap.1
        refine ⟨r, by rw [List.cons_append, ← hr], List.forall_mem_cons.mpr ⟨hch, hline⟩⟩

theorem reaches_readPlainWords {inFlow : Bool} {indent : Int} {fuel : Nat} {text longer : List Char}
    {g : Gap} (hread : readPlainWords inFlow indent fuel text g c = some (longer, d)) :
    c.Reaches d := by
  induction fuel generalizing c text g with
  | zero =>
    exact reaches_of_some hread
  | succ fuel ih =>
    obtain ⟨r, hr, hline⟩ := exists_plainWord_append inFlow c.rest
    have hword := Cursor.reaches_skip hline hr
    rw [readPlainWords] at hread
    split at hread
    · exact reaches_of_some hread
    · split at hread
      · exact absurd hread (by simp)
      · split at hread
        · exact reaches_of_some hread
        · dsimp only at hread
          split at hread
          · exact hword.trans (reaches_of_some hread)
          · split at hread
            · exact absurd hread (by simp)
            · next gap e hgap =>
              have hgap := hword.trans (reaches_readPlainGap hgap)
              split at hread
              · exact hgap.trans (reaches_of_some hread)
              · exact hgap.trans (ih hread)

theorem reaches_readPlain {inFlow : Bool} {indent : Int} {text : List Char}
    (hread : readPlain inFlow indent c = some (text, d)) : c.Reaches d := by
  rw [readPlain] at hread
  split at hread
  · exact absurd hread (by simp)
  · split at hread
    · next hwords =>
      split at hread
      · exact absurd hread (by simp)
      · obtain ⟨-, rfl⟩ := Prod.mk.inj (Option.some.inj hread)
        exact reaches_readPlainWords hwords
    · exact absurd hread (by simp)

/-! ## Quoted scalars -/

theorem isBreak_eq_false_of_hexDigit? {ch : Char} {n : Nat} (h : hexDigit? ch = some n) :
    isBreak ch = false :=
  isBreak_eq_false_of (p := fun ch => (hexDigit? ch).isSome) rfl rfl (by simp [h])

theorem isBreak_eq_false_of_hexValue? {digits : List Char} {acc n : Nat}
    (h : hexValue? acc digits = some n) : ∀ ch ∈ digits, isBreak ch = false := by
  induction digits generalizing acc with
  | nil => simp
  | cons ch digits ih =>
    rw [hexValue?] at h
    obtain ⟨value, hvalue, h⟩ := Option.bind_eq_some_iff.mp h
    exact List.forall_mem_cons.mpr ⟨isBreak_eq_false_of_hexDigit? hvalue, ih h⟩

theorem isBreak_eq_false_of_letter {ch : Char}
    (h : ((letterEscape? ch).isSome || (codeEscape? ch).isSome) = true) : isBreak ch = false :=
  isBreak_eq_false_of (p := fun ch => (letterEscape? ch).isSome || (codeEscape? ch).isSome)
    rfl rfl h

theorem reaches_readEscape {ch : Char} (hread : readEscape c = some (ch, d)) : c.Reaches d := by
  rw [readEscape] at hread
  split at hread
  · exact absurd hread (by simp)
  · next letter r hrest =>
    split at hread
    · next hletter =>
      obtain ⟨-, rfl⟩ := Prod.mk.inj (Option.some.inj hread)
      exact Cursor.reaches_skip_one hrest (isBreak_eq_false_of_letter (by simp [hletter]))
    · next n _ hcode =>
      split at hread
      · exact absurd hread (by simp)
      · next hlong =>
        split at hread
        · next char hchar =>
          obtain ⟨-, rfl⟩ := Prod.mk.inj (Option.some.inj hread)
          obtain ⟨value, hvalue, -⟩ := Option.bind_eq_some_iff.mp hchar
          have hline : ∀ ch ∈ letter :: r.take n, isBreak ch = false :=
            List.forall_mem_cons.mpr ⟨isBreak_eq_false_of_letter (by simp [hcode]),
              isBreak_eq_false_of_hexValue? hvalue⟩
          have hsplit : c.rest = (letter :: r.take n) ++ r.drop n := by
            rw [List.cons_append, List.take_append_drop, hrest]
          have hlength : (letter :: r.take n).length = n + 1 := by
            rw [List.length_cons, List.length_take]
            omega
          have hskip := Cursor.reaches_skip hline hsplit
          rwa [hlength] at hskip
        · exact absurd hread (by simp)
    · exact absurd hread (by simp)

theorem reaches_readQuotedWord {quote : Char} {fuel : Nat} {text longer : List Char}
    {escaped : Bool} (hread : readQuotedWord quote fuel text c = some (longer, escaped, d)) :
    c.Reaches d := by
  induction fuel generalizing c text with
  | zero =>
    exact reaches_of_some_pair hread
  | succ fuel ih =>
    rw [readQuotedWord] at hread
    split at hread
    · exact reaches_of_some_pair hread
    · next ch r hrest =>
      split at hread
      · exact reaches_of_some_pair hread
      · next hgap =>
        have hone := Cursor.reaches_skip_one hrest
          (isBreak_eq_false_of_isGap (Bool.eq_false_iff.mpr hgap))
        split at hread
        · next hquote =>
          split at hread
          · next hdouble =>
            obtain rfl := beq_iff_eq.mp hquote
            rw [Bool.and_eq_true, beq_iff_eq] at hdouble
            obtain ⟨rfl, hsecond⟩ := hdouble
            rcases r with _ | ⟨ch, r⟩
            · exact absurd hsecond (by simp [startsWith])
            · obtain rfl := beq_iff_eq.mp hsecond
              have hline : ∀ ch ∈ ['\'', '\''], isBreak ch = false :=
                List.forall_mem_cons.mpr ⟨rfl, List.forall_mem_singleton.mpr rfl⟩
              have htwo := Cursor.reaches_skip hline hrest
              exact htwo.trans (ih hread)
          · exact reaches_of_some_pair hread
        · split at hread
          · split at hread
            · exact (hone.trans (Cursor.reaches_skipBreak _)).trans (reaches_of_some_pair hread)
            · split at hread
              · next hescape => exact hone.trans ((reaches_readEscape hescape).trans (ih hread))
              · exact absurd hread (by simp)
          · exact hone.trans (ih hread)

theorem reaches_readQuotedGap {indent : Int} {fuel : Nat} {g h : Gap}
    (hread : readQuotedGap indent fuel g c = some (h, d)) : c.Reaches d := by
  induction fuel generalizing c g with
  | zero =>
    exact reaches_of_some hread
  | succ fuel ih =>
    rw [readQuotedGap] at hread
    split at hread
    · exact reaches_of_some hread
    · next ch r hrest =>
      split at hread
      · next hspace =>
        split at hread
        · exact absurd hread (by simp)
        · exact (Cursor.reaches_skipBlanks_one hrest
            (isBreak_eq_false_of_isSpace hspace)).trans (ih hread)
      · split at hread
        · exact (Cursor.reaches_skipBreak c).trans (ih hread)
        · exact reaches_of_some hread

theorem reaches_readQuotedWords {quote : Char} (hquote : isBreak quote = false) {indent : Int}
    {fuel : Nat} {text longer : List Char}
    (hread : readQuotedWords quote indent fuel text c = some (longer, d)) : c.Reaches d := by
  induction fuel generalizing c text with
  | zero => exact absurd hread (by simp [readQuotedWords])
  | succ fuel ih =>
    rw [readQuotedWords] at hread
    split at hread
    · exact absurd hread (by simp)
    · split at hread
      · exact absurd hread (by simp)
      · next e hword =>
        have hword := reaches_readQuotedWord hword
        split at hread
        · next hclosing =>
          obtain ⟨-, rfl⟩ := Prod.mk.inj (Option.some.inj hread)
          rcases hrest : e.rest with _ | ⟨ch, r⟩
          · exact absurd hclosing (by simp [hrest, startsWith])
          · have hch : ch = quote := by simpa [hrest, startsWith] using hclosing
            exact hword.trans (Cursor.reaches_skip_one hrest (hch ▸ hquote))
        · dsimp only at hread
          split at hread
          · exact absurd hread (by simp)
          · next hgap => exact hword.trans ((reaches_readQuotedGap hgap).trans (ih hread))

theorem reaches_readQuoted {quote : Char} (hquote : isBreak quote = false) {inFlow : Bool}
    {indent : Int} {text r : List Char} (hrest : c.rest = quote :: r)
    (hread : readQuoted quote inFlow indent c = some (text, d)) : c.Reaches d := by
  rw [readQuoted] at hread
  obtain ⟨⟨longer, e⟩, hwords, hread⟩ := Option.bind_eq_some_iff.mp hread
  obtain ⟨⟨m, f⟩, hmargin, hread⟩ := Option.bind_eq_some_iff.mp hread
  dsimp only at hread
  split at hread
  · obtain ⟨-, rfl⟩ := Prod.mk.inj (Option.some.inj hread)
    exact (Cursor.reaches_skip_one hrest hquote).trans
      ((reaches_readQuotedWords hquote hwords).trans (Cursor.reaches_skipMargin hmargin))
  · exact absurd hread (by simp)

/-! ## Block scalars -/

theorem isBreak_eq_false_of_isDigit {ch : Char} (h : ch.isDigit = true) : isBreak ch = false :=
  isBreak_eq_false_of rfl rfl h

theorem reaches_readIncrement {n : Nat} (hread : BlockHeader.readIncrement c = some (n, d)) :
    c.Reaches d := by
  rw [BlockHeader.readIncrement] at hread
  split at hread
  · next ch r hrest =>
    split at hread
    · exact absurd hread (by simp)
    · split at hread
      · next hdigit =>
        exact (Cursor.reaches_skip_one hrest (isBreak_eq_false_of_isDigit hdigit)).trans
          (reaches_of_some hread)
      · exact reaches_of_some hread
  · exact reaches_of_some hread

theorem reaches_skip_of_chomping? {chomping : Chomping}
    (h : BlockHeader.chomping? c.rest = some chomping) : c.Reaches (c.skip 1) := by
  unfold BlockHeader.chomping? at h
  split at h
  · next hrest => exact Cursor.reaches_skip_one hrest rfl
  · next hrest => exact Cursor.reaches_skip_one hrest rfl
  · exact absurd h (by simp)

theorem reaches_readHeader {header : BlockHeader} (hread : BlockHeader.read c = some (header, d)) :
    c.Reaches d := by
  rw [BlockHeader.read] at hread
  split at hread
  · next hchomping =>
    obtain ⟨⟨n, e⟩, hincrement, hread⟩ := Option.map_eq_some_iff.mp hread
    exact (reaches_skip_of_chomping? hchomping).trans
      ((reaches_readIncrement hincrement).trans (reaches_of_some (congrArg some hread)))
  · split at hread
    · exact absurd hread (by simp)
    · next hincrement => exact (reaches_readIncrement hincrement).trans (reaches_of_some hread)
    · next hincrement =>
      have hincrement := reaches_readIncrement hincrement
      split at hread
      · next hchomping =>
        exact hincrement.trans
          ((reaches_skip_of_chomping? hchomping).trans (reaches_of_some hread))
      · exact hincrement.trans (reaches_of_some hread)

theorem isBreak_eq_false_of_blank {ch : Char} (h : (ch == ' ') = true) : isBreak ch = false := by
  obtain rfl := beq_iff_eq.mp h
  rfl

theorem reaches_skipBlockIndent (indent fuel lines : Nat) (c : Cursor) :
    c.Reaches (skipBlockIndent indent fuel lines c).2 := by
  induction fuel generalizing lines c with
  | zero => exact .refl c
  | succ fuel ih =>
    have hline : ∀ n, ∀ ch ∈ (c.rest.takeWhile (· == ' ')).take n, isBreak ch = false := by
      intro n ch hch
      exact isBreak_eq_false_of_blank
        (List.mem_takeWhile_imp (p := fun x => x == ' ') (List.mem_of_mem_take hch))
    have hblanks : ∀ n, c.Reaches (c.skipBlanks (min (c.rest.takeWhile (· == ' ')).length n)) := by
      intro n
      have hsplit : c.rest = (c.rest.takeWhile (· == ' ')).take n ++
          ((c.rest.takeWhile (· == ' ')).drop n ++ c.rest.dropWhile (· == ' ')) := by
        rw [← List.append_assoc, List.take_append_drop, List.takeWhile_append_dropWhile]
      have hskip := Cursor.reaches_skipBlanks (hline n) hsplit
      rwa [List.length_take, Nat.min_comm] at hskip
    rw [skipBlockIndent]
    split
    · exact (hblanks _).trans ((Cursor.reaches_skipBreak _).trans (ih _ _))
    · exact hblanks _

theorem reaches_findBlockIndent (fuel widest lines : Nat) (c : Cursor) :
    c.Reaches (findBlockIndent fuel widest lines c).2.2 := by
  induction fuel generalizing widest lines c with
  | zero => exact .refl c
  | succ fuel ih =>
    have hblanks := Cursor.reaches_skipBlanksWhile (fun _ => isBreak_eq_false_of_blank) c
    rw [findBlockIndent]
    split
    · exact hblanks.trans ((Cursor.reaches_skipBreak _).trans (ih _ _ _))
    · exact hblanks

theorem reaches_readLines (folded : Bool) (indent fuel : Nat) (t : BlockText) (c : Cursor) :
    c.Reaches (BlockText.readLines folded indent fuel t c).2 := by
  induction fuel generalizing t c with
  | zero => exact .refl c
  | succ fuel ih =>
    have hline := Cursor.reaches_takeWhile (p := fun ch => !isBreak ch)
      (fun ch hch => by simpa using hch) c
    rw [BlockText.readLines]
    split
    · exact .refl c
    · dsimp only
      split
      · exact hline
      · exact hline.trans ((Cursor.reaches_skipBreak _).trans
          ((reaches_skipBlockIndent _ _ _ _).trans (ih _ _)))

/-- A block scalar is located between its header and its end. -/
theorem reaches_readBlockBody {folded : Bool} {indent : Int} {header : BlockHeader}
    {start m : Mark} {text : List Char} (hstart : start ≤ c.mark)
    (hread : readBlockBody folded indent header start c = some (m, text, d)) :
    c.Reaches d ∧ start ≤ m ∧ m ≤ d.mark := by
  have hbody : ∀ (column lines : Nat) (e : Cursor) (fuel : Nat), c.Reaches e →
      (if e.atEnd then some (start, emptyBlock header.chomping (e.mark.line != start.line) lines, e)
        else if e.mark.col < column && indent < e.column then none
        else
          let found := BlockText.readLines folded column fuel ⟨[], false, lines, false⟩ e
          let cut := found.2.atEnd && max column 1 ≤ found.2.mark.col
          some (e.mark, found.1.finish header.chomping cut, found.2)) = some (m, text, d) →
      c.Reaches d ∧ start ≤ m ∧ m ≤ d.mark := by
    intro column lines e fuel he hread
    split at hread
    · obtain ⟨rfl, hpair⟩ := Prod.mk.inj (Option.some.inj hread)
      obtain ⟨-, rfl⟩ := Prod.mk.inj hpair
      exact ⟨he, le_refl start, le_trans hstart he.mark_le⟩
    · split at hread
      · exact absurd hread (by simp)
      · have hlines := reaches_readLines folded column fuel ⟨[], false, lines, false⟩ e
        obtain ⟨rfl, hpair⟩ := Prod.mk.inj (Option.some.inj hread)
        obtain ⟨-, rfl⟩ := Prod.mk.inj hpair
        exact ⟨he.trans hlines, le_trans hstart he.mark_le, hlines.mark_le⟩
  have hbreak := Cursor.reaches_skipBreak c
  unfold readBlockBody at hread
  dsimp only at hread
  split at hread
  · exact absurd hread (by simp)
  · by_cases hincrement : header.increment = 0
    · rw [if_pos hincrement] at hread
      exact hbody _ _ _ _ (hbreak.trans (reaches_findBlockIndent _ _ _ _)) hread
    · rw [if_neg hincrement] at hread
      exact hbody _ _ _ _ (hbreak.trans (reaches_skipBlockIndent _ _ _ _)) hread

theorem reaches_readBlock {folded : Bool} {indent : Int} {m : Mark} {text : List Char}
    (hskip : c.Reaches (c.skip 1)) (hread : readBlock folded indent c = some (m, text, d)) :
    c.Reaches d ∧ c.mark ≤ m ∧ m ≤ d.mark := by
  rw [readBlock] at hread
  obtain ⟨⟨header, e⟩, hheader, hread⟩ := Option.bind_eq_some_iff.mp hread
  obtain ⟨f, hend, hread⟩ := Option.bind_eq_some_iff.mp hread
  have hbefore := hskip.trans
    ((reaches_readHeader hheader).trans (Cursor.reaches_skipToLineEnd hend))
  obtain ⟨hbody, hstart, hm⟩ := reaches_readBlockBody hbefore.mark_le hread
  exact ⟨hbefore.trans hbody, hstart, hm⟩

/-! ## Names -/

theorem isBreak_eq_false_of_isWord {ch : Char} (h : isWord ch = true) : isBreak ch = false :=
  isBreak_eq_false_of rfl rfl h

theorem isBreak_eq_false_of_isUriChar {ch : Char} (h : isUriChar ch = true) :
    isBreak ch = false :=
  isBreak_eq_false_of rfl rfl h

theorem isBreak_eq_false_of_isTagChar {ch : Char} (h : isTagChar ch = true) :
    isBreak ch = false := by
  rw [isTagChar, Bool.and_eq_true, Bool.and_eq_true] at h
  exact isBreak_eq_false_of_isUriChar h.1.1

theorem reaches_readAnchorName {name : List Char} (hskip : c.Reaches (c.skip 1))
    (hread : readAnchorName c = some (name, d)) : c.Reaches d := by
  have hname := Cursor.reaches_takeWhile (p := isAnchorChar) (fun ch hch => by
    rw [isAnchorChar, Bool.and_eq_true, Bool.and_eq_true, Bool.not_eq_true'] at hch
    exact isBreak_eq_false_of_isGap hch.1.1) (c.skip 1)
  rw [readAnchorName] at hread
  split at hread
  · exact absurd hread (by simp)
  · rw [Option.some.inj hread] at hname
    exact hskip.trans hname

theorem reaches_readEscapedByte {byte : Nat} (hread : readEscapedByte c = some (byte, d)) :
    c.Reaches d := by
  unfold readEscapedByte at hread
  split at hread
  · next h l r hrest =>
    obtain ⟨high, hhigh, hread⟩ := Option.bind_eq_some_iff.mp hread
    obtain ⟨low, hlow, hread⟩ := Option.bind_eq_some_iff.mp hread
    have hline : ∀ ch ∈ ['%', h, l], isBreak ch = false := by
      simp only [List.forall_mem_cons, isBreak_eq_false_of_hexDigit? hhigh,
        isBreak_eq_false_of_hexDigit? hlow, List.not_mem_nil, false_imp_iff, implies_true, and_true]
      rfl
    exact (Cursor.reaches_skip hline hrest).trans (reaches_of_some hread)
  · exact absurd hread (by simp)

theorem reaches_readContinuation {n code value : Nat}
    (hread : readContinuation n code c = some (value, d)) : c.Reaches d := by
  induction n generalizing code c with
  | zero => exact reaches_of_some hread
  | succ n ih =>
    rw [readContinuation] at hread
    obtain ⟨⟨byte, e⟩, hbyte, hread⟩ := Option.bind_eq_some_iff.mp hread
    dsimp only at hread
    split at hread
    · exact (reaches_readEscapedByte hbyte).trans (ih hread)
    · exact absurd hread (by simp)

theorem reaches_readEscaped {ch : Char} (hread : readEscaped c = some (ch, d)) : c.Reaches d := by
  rw [readEscaped] at hread
  obtain ⟨⟨byte, e⟩, hbyte, hread⟩ := Option.bind_eq_some_iff.mp hread
  obtain ⟨n, -, hread⟩ := Option.bind_eq_some_iff.mp hread
  obtain ⟨⟨code, f⟩, hcode, hread⟩ := Option.bind_eq_some_iff.mp hread
  obtain ⟨char, -, hread⟩ := Option.bind_eq_some_iff.mp hread
  exact (reaches_readEscapedByte hbyte).trans
    ((reaches_readContinuation hcode).trans (reaches_of_some hread))

theorem reaches_readUri {p : Char → Bool} (hp : ∀ ch, p ch = true → isBreak ch = false)
    {fuel : Nat} {chars : List Char} (hread : readUri p fuel c = some (chars, d)) :
    c.Reaches d := by
  induction fuel generalizing c d chars with
  | zero => exact reaches_of_some hread
  | succ fuel ih =>
    rw [readUri] at hread
    split at hread
    · exact reaches_of_some hread
    · next ch r hrest =>
      split at hread
      · exact reaches_of_some hread
      · next hch =>
        split at hread
        · obtain ⟨⟨char, e⟩, hescape, hread⟩ := Option.bind_eq_some_iff.mp hread
          obtain ⟨⟨others, f⟩, hothers, hread⟩ := Option.bind_eq_some_iff.mp hread
          exact (reaches_readEscaped hescape).trans ((ih hothers).trans (reaches_of_some hread))
        · obtain ⟨⟨others, f⟩, hothers, hread⟩ := Option.bind_eq_some_iff.mp hread
          have hone := Cursor.reaches_skip_one hrest (hp ch (by simpa using hch))
          exact hone.trans ((ih hothers).trans (reaches_of_some hread))

theorem reaches_readHandle {handle : List Char} (hread : readHandle c = some (handle, d)) :
    c.Reaches d := by
  unfold readHandle at hread
  split at hread
  · next r hrest =>
    have hword := (Cursor.reaches_skip_one hrest rfl).trans
      (Cursor.reaches_takeWhile (fun _ => isBreak_eq_false_of_isWord) (c.skip 1))
    dsimp only at hread
    split at hread
    · next r' hrest' =>
      exact hword.trans ((Cursor.reaches_skip_one hrest' rfl).trans (reaches_of_some hread))
    · exact hword.trans (reaches_of_some hread)
  · exact absurd hread (by simp)

theorem reaches_readVerbatimTag {ch : Char} {r : List Char} {kind : TokenKind}
    (hrest : c.rest = ch :: '<' :: r) (hch : isBreak ch = false)
    (hread : readVerbatimTag c = some (kind, d)) : c.Reaches d := by
  rw [readVerbatimTag] at hread
  obtain ⟨⟨suffix, e⟩, hsuffix, hread⟩ := Option.bind_eq_some_iff.mp hread
  have hline : ∀ x ∈ [ch, '<'], isBreak x = false :=
    List.forall_mem_cons.mpr ⟨hch, List.forall_mem_singleton.mpr rfl⟩
  have hbefore := (Cursor.reaches_skip hline hrest).trans
    (reaches_readUri (fun _ => isBreak_eq_false_of_isUriChar) hsuffix)
  dsimp only at hread
  split at hread
  · next hclosing =>
    rcases hrest' : e.rest with _ | ⟨x, r'⟩
    · exact absurd hclosing (by simp [hrest', startsWith])
    · have hx : x = '>' := by simpa [hrest', startsWith] using hclosing
      exact hbefore.trans
        ((Cursor.reaches_skip_one hrest' (hx ▸ rfl)).trans (reaches_of_some hread))
  · exact absurd hread (by simp)

theorem reaches_readShorthandTag {kind : TokenKind}
    (hread : readShorthandTag c = some (kind, d)) : c.Reaches d := by
  rw [readShorthandTag] at hread
  obtain ⟨⟨handle, e⟩, hhandle, hread⟩ := Option.bind_eq_some_iff.mp hread
  obtain ⟨⟨suffix, f⟩, hsuffix, hread⟩ := Option.bind_eq_some_iff.mp hread
  have hbefore := (reaches_readHandle hhandle).trans
    (reaches_readUri (fun _ => isBreak_eq_false_of_isTagChar) hsuffix)
  dsimp only at hread
  split at hread
  · split at hread
    · exact absurd hread (by simp)
    · exact hbefore.trans (reaches_of_some hread)
  · split at hread
    · exact hbefore.trans (reaches_of_some hread)
    · exact hbefore.trans (reaches_of_some hread)

theorem reaches_readTag {inFlow : Bool} {ch : Char} {r : List Char} {kind : TokenKind}
    (hrest : c.rest = ch :: r) (hch : isBreak ch = false)
    (hread : readTag inFlow c = some (kind, d)) : c.Reaches d := by
  have hend : ∀ (found : TokenKind) (e : Cursor), c.Reaches e →
      (if endsOrStartsWith isGap e.rest || inFlow && startsWith isFlow e.rest then some (found, e)
        else none) = some (kind, d) → c.Reaches d := by
    intro found e he hread
    split at hread
    · exact he.trans (reaches_of_some hread)
    · exact absurd hread (by simp)
  rw [readTag] at hread
  split at hread
  · next x r' hrest' =>
    obtain ⟨rfl, -⟩ := List.cons.inj (hrest.symm.trans hrest')
    obtain ⟨⟨found, e⟩, htag, hread⟩ := Option.bind_eq_some_iff.mp hread
    exact hend found e (reaches_readVerbatimTag hrest' hch htag) hread
  · obtain ⟨⟨found, e⟩, htag, hread⟩ := Option.bind_eq_some_iff.mp hread
    exact hend found e (reaches_readShorthandTag htag) hread

theorem reaches_readVersionPart {n : Nat} (hread : readVersionPart c = some (n, d)) :
    c.Reaches d := by
  have hdigits := Cursor.reaches_takeWhile (fun _ => isBreak_eq_false_of_isDigit) c
  rw [readVersionPart] at hread
  dsimp only at hread
  split at hread
  · exact absurd hread (by simp)
  · exact hdigits.trans (reaches_of_some hread)

theorem reaches_readVersion {kind : TokenKind} (hread : readVersion c = some (kind, d)) :
    c.Reaches d := by
  rw [readVersion] at hread
  obtain ⟨⟨major, e⟩, hmajor, hread⟩ := Option.bind_eq_some_iff.mp hread
  have hbefore := (Cursor.reaches_skipBlanksWhile (fun _ => isBreak_eq_false_of_isSpace) c).trans
    (reaches_readVersionPart hmajor)
  dsimp only at hread
  split at hread
  · next hpoint =>
    obtain ⟨⟨minor, f⟩, hminor, hread⟩ := Option.bind_eq_some_iff.mp hread
    rcases hrest : e.rest with _ | ⟨x, r⟩
    · exact absurd hpoint (by simp [hrest, startsWith])
    · have hx : x = '.' := by simpa [hrest, startsWith] using hpoint
      exact hbefore.trans ((Cursor.reaches_skip_one hrest (hx ▸ rfl)).trans
        ((reaches_readVersionPart hminor).trans (reaches_of_some hread)))
  · exact absurd hread (by simp)

theorem reaches_readReplacement {text : List Char}
    (hread : readReplacement c = some (text, d)) : c.Reaches d := by
  unfold readReplacement at hread
  split at hread
  · next r hrest =>
    obtain ⟨⟨chars, e⟩, hchars, hread⟩ := Option.bind_eq_some_iff.mp hread
    exact (Cursor.reaches_skip_one hrest rfl).trans
      ((reaches_readUri (fun _ => isBreak_eq_false_of_isUriChar) hchars).trans
        (reaches_of_some hread))
  · split at hread
    · exact reaches_readUri (fun _ => isBreak_eq_false_of_isUriChar) hread
    · exact absurd hread (by simp)
  · exact absurd hread (by simp)

theorem reaches_readTagDirective {kind : TokenKind}
    (hread : readTagDirective c = some (kind, d)) : c.Reaches d := by
  have hblanks : ∀ e : Cursor, e.Reaches (e.skipBlanksWhile isSpace) :=
    Cursor.reaches_skipBlanksWhile fun _ => isBreak_eq_false_of_isSpace
  rw [readTagDirective] at hread
  obtain ⟨⟨handle, e⟩, hhandle, hread⟩ := Option.bind_eq_some_iff.mp hread
  have hbefore := (hblanks c).trans (reaches_readHandle hhandle)
  dsimp only at hread
  split at hread
  · exact absurd hread (by simp)
  · obtain ⟨⟨replacement, f⟩, hreplacement, hread⟩ := Option.bind_eq_some_iff.mp hread
    have hbehind := hbefore.trans ((hblanks e).trans (reaches_readReplacement hreplacement))
    dsimp only at hread
    split at hread
    · exact hbehind.trans (reaches_of_some hread)
    · exact absurd hread (by simp)

theorem reaches_readDirective {kind : TokenKind} (hskip : c.Reaches (c.skip 1))
    (hread : readDirective c = some (kind, d)) : c.Reaches d := by
  have hname := hskip.trans
    (Cursor.reaches_takeWhile (fun _ => isBreak_eq_false_of_isWord) (c.skip 1))
  have hend : ∀ (found : TokenKind) (e : Cursor), c.Reaches e →
      (e.skipToLineEnd.bind fun f => some (found, f.skipBreak)) = some (kind, d) →
        c.Reaches d := by
    intro found e he hread
    obtain ⟨f, hf, hread⟩ := Option.bind_eq_some_iff.mp hread
    exact he.trans ((Cursor.reaches_skipToLineEnd hf).trans
      ((Cursor.reaches_skipBreak f).trans (reaches_of_some hread)))
  rw [readDirective] at hread
  dsimp only at hread
  split at hread
  · exact absurd hread (by simp)
  · split at hread
    · obtain ⟨⟨found, e⟩, hfound, hread⟩ := Option.bind_eq_some_iff.mp hread
      exact hend found e (hname.trans (reaches_readVersion hfound)) hread
    · split at hread
      · obtain ⟨⟨found, e⟩, hfound, hread⟩ := Option.bind_eq_some_iff.mp hread
        exact hend found e (hname.trans (reaches_readTagDirective hfound)) hread
      · exact hend _ _ (hname.trans (Cursor.reaches_skipLine _)) hread

end Yaml
end LintLocator
