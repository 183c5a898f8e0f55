import LintLocator.Proofs.Yaml.TokenOrder
import Mathlib.Data.List.InsertIdx

/-!
# The order of tokens while they are read

A token may be put in before others that have been read: those of a key and of the mapping around it
go to the place of a candidate.  So besides the order of the tokens that are there it has to be
known that what comes before a place that may still be used clears the mark that was noted with it
(`Layout.Placed`).  Two things can happen to the tokens, and both keep that:

* `Placed.push`: one is added at the end, behind all that the others have to clear;
* `Placed.insert`: one that nothing has to clear is put in at the place of a candidate.

All else leaves the tokens alone and adds no candidate (`Layout.Like`).
-/

namespace LintLocator
namespace Yaml

/-! ## Lists into which something is put in -/

section

variable {α : Type} {l : List α} {x y : α} {n k : Nat}

theorem mem_drop_insertIdx (hn : n ≤ l.length) (hx : x ∈ (l.insertIdx n y).drop (k + 1)) :
    x = y ∨ x ∈ l.drop k := by
  induction l generalizing n k with
  | nil =>
    obtain rfl := Nat.le_zero.mp hn
    exact .inr hx
  | cons a l ih =>
    cases n with
    | zero => exact .inr hx
    | succ n =>
      have hn := Nat.le_of_succ_le_succ hn
      rw [List.insertIdx_succ_cons, List.drop_succ_cons] at hx
      cases k with
      | zero => exact ((List.mem_insertIdx hn).mp hx).imp_right (List.mem_cons_of_mem a)
      | succ k => exact ih hn hx

theorem pairwise_insertIdx {R : α → α → Prop} (h : l.Pairwise R) (hbefore : ∀ x ∈ l, R x y)
    (hbehind : ∀ x ∈ l.drop n, R y x) : (l.insertIdx n y).Pairwise R := by
  induction l generalizing n with
  | nil =>
    cases n with
    | zero => exact List.pairwise_singleton R y
    | succ n => exact h
  | cons a l ih =>
    obtain ⟨ha, hl⟩ := List.pairwise_cons.mp h
    cases n with
    | zero => exact List.pairwise_cons.mpr ⟨hbehind, h⟩
    | succ n =>
      rw [List.insertIdx_succ_cons]
      refine List.pairwise_cons.mpr ⟨fun x hx => ?_,
        ih hl (fun x hx => hbefore x (List.mem_cons_of_mem a hx)) hbehind⟩
      rcases List.eq_or_mem_of_mem_insertIdx hx with rfl | hx
      · exact hbefore a List.mem_cons_self
      · exact ha x hx

end

namespace Layout

/-- The layout holds tokens in order, of which the next one may stand at a mark or behind it.  A
candidate stands behind all tokens before its place. -/
structure Placed (text : List Char) (b : Mark) (s : Layout) : Prop where
  count : s.count = s.tokens.length
  fits : ∀ t ∈ s.tokens, t.Fits text
  /-- The tokens are listed with the last one first. -/
  clears : s.tokens.Pairwise fun u t => t.Clears text u
  clearsMark : ∀ t ∈ s.tokens, t.ClearsMark b
  candidates : ∀ c, some c ∈ s.candidates → c.place ≤ s.count ∧
    ∀ t ∈ s.tokens.drop (s.count - c.place), t.ClearsMark c.mark

/-- The second state holds the same tokens and no further candidates. -/
structure Like (s t : Layout) : Prop where
  tokens : t.tokens = s.tokens
  count : t.count = s.count
  candidates : ∀ c, some c ∈ t.candidates → some c ∈ s.candidates

variable {text : List Char} {s t u : Layout} {a b m : Mark} {kind : TokenKind}

theorem like_of_eq (htokens : t.tokens = s.tokens) (hcount : t.count = s.count)
    (hcandidates : t.candidates = s.candidates) : s.Like t :=
  ⟨htokens, hcount, fun _ hc => hcandidates ▸ hc⟩

theorem Like.refl (s : Layout) : s.Like s := like_of_eq rfl rfl rfl

theorem Like.trans (h : s.Like t) (h' : t.Like u) : s.Like u :=
  ⟨h'.tokens.trans h.tokens, h'.count.trans h.count,
    fun c hc => h.candidates c (h'.candidates c hc)⟩

namespace Placed

theorem like (h : s.Placed text b) (hlike : s.Like t) : t.Placed text b := by
  obtain ⟨htokens, hcount, hcandidates⟩ := hlike
  refine ⟨by rw [hcount, htokens, h.count], ?_, ?_, ?_, fun c hc => ?_⟩
  · rw [htokens]
    exact h.fits
  · rw [htokens]
    exact h.clears
  · rw [htokens]
    exact h.clearsMark
  · rw [htokens, hcount]
    exact h.candidates c (hcandidates c hc)

theorem mono (h : s.Placed text a) (hab : a ≤ b) : s.Placed text b :=
  { h with clearsMark := fun t ht => (h.clearsMark t ht).mono hab }

/-- A token is added at the end. -/
theorem push (h : s.Placed text a) (ham : a ≤ m) (hab : a ≤ b)
    (hfits : (⟨kind, m⟩ : Token).Fits text) (hclears : (⟨kind, m⟩ : Token).ClearsMark b)
    (hdash : kind = .blockEntry → ∀ d, Mark.IsBeside text d m → ∀ t ∈ s.tokens, t.ClearsDash d) :
    (s.push kind m).Placed text b := by
  refine ⟨congrArg (· + 1) h.count, ?_, ?_, ?_, fun c hc => ?_⟩
  · exact List.forall_mem_cons.mpr ⟨hfits, h.fits⟩
  · refine List.pairwise_cons.mpr ⟨fun t ht => ⟨(h.clearsMark t ht).mono ham, ?_⟩, h.clears⟩
    intro hkind d hd
    exact hdash hkind d hd t ht
  · exact List.forall_mem_cons.mpr ⟨hclears, (h.mono hab).clearsMark⟩
  · obtain ⟨hplace, hbefore⟩ := h.candidates c hc
    refine ⟨Nat.le_succ_of_le hplace, ?_⟩
    have hdrop : (s.push kind m).count - c.place = s.count - c.place + 1 :=
      Nat.succ_sub hplace
    rw [hdrop]
    exact hbefore

theorem push_free (h : s.Placed text b) (hkind : kind.IsFree) (hbm : b ≤ m) :
    (s.push kind m).Placed text b := by
  refine h.push hbm (le_refl b) (Token.fits_of_isFree hkind text m)
    (Token.clearsMark_of_isFree hkind m b) ?_
  intro hentry
  exact absurd hentry (Token.ne_blockEntry_of_isFree hkind)

/-- A token is put in at the place of a candidate. -/
theorem insert (h : s.Placed text b) (hkind : kind.IsFree) {c : Candidate}
    (hc : some c ∈ s.candidates) (hm : c.mark ≤ m ∨ b ≤ m) :
    (s.insert c.place kind m).Placed text b := by
  obtain ⟨hplace, hbefore⟩ := h.candidates c hc
  have hlength : s.count - c.place ≤ s.tokens.length := by
    rw [← h.count]
    exact Nat.sub_le s.count c.place
  have hclears : ∀ t ∈ s.tokens.drop (s.count - c.place), t.Clears text ⟨kind, m⟩ := by
    intro t ht
    refine ⟨?_, fun hentry => absurd hentry (Token.ne_blockEntry_of_isFree hkind)⟩
    rcases hm with hm | hm
    · exact (hbefore t ht).mono hm
    · exact (h.clearsMark t (List.mem_of_mem_drop ht)).mono hm
  have hfree : ∀ u : Token, (⟨kind, m⟩ : Token).Clears text u := fun u =>
    ⟨Token.clearsMark_of_isFree hkind m u.mark,
      fun _ d _ => Token.clearsDash_of_isFree hkind m d⟩
  refine ⟨?_, fun t ht => ?_, ?_, fun t ht => ?_, fun e he => ?_⟩
  · rw [Layout.insert, List.length_insertIdx_of_le_length hlength, h.count]
  · rcases (List.mem_insertIdx hlength).mp ht with rfl | ht
    · exact Token.fits_of_isFree hkind text m
    · exact h.fits t ht
  · exact pairwise_insertIdx h.clears (fun u _ => hfree u) hclears
  · rcases (List.mem_insertIdx hlength).mp ht with rfl | ht
    · exact Token.clearsMark_of_isFree hkind m b
    · exact h.clearsMark t ht
  · obtain ⟨hplace', hbefore'⟩ := h.candidates e he
    refine ⟨Nat.le_succ_of_le hplace', fun t ht => ?_⟩
    have hdrop : (s.insert c.place kind m).count - e.place = s.count - e.place + 1 :=
      Nat.succ_sub hplace'
    rw [hdrop] at ht
    rcases mem_drop_insertIdx hlength ht with rfl | ht
    · exact Token.clearsMark_of_isFree hkind m e.mark
    · exact hbefore' t ht

end Placed

/-! ## Changes that add no token -/

/-- The second state differs in what it knows of indentation only. -/
structure SameText (s t : Layout) : Prop where
  cursor : t.cursor = s.cursor
  tokens : t.tokens = s.tokens
  count : t.count = s.count
  candidates : t.candidates = s.candidates

theorem SameText.refl (s : Layout) : s.SameText s := ⟨rfl, rfl, rfl, rfl⟩

theorem SameText.trans (h : s.SameText t) (h' : t.SameText u) : s.SameText u :=
  ⟨h'.cursor.trans h.cursor, h'.tokens.trans h.tokens, h'.count.trans h.count,
    h'.candidates.trans h.candidates⟩

theorem SameText.like (h : s.SameText t) : s.Like t := like_of_eq h.tokens h.count h.candidates

theorem sameText_forgetLoose (s : Layout) : s.SameText s.forgetLoose := by
  rw [forgetLoose]
  split
  · split
    · exact .refl s
    · exact ⟨rfl, rfl, rfl, rfl⟩
  · exact .refl s

theorem sameText_indentLoosely (s : Layout) : s.SameText s.indentLoosely := by
  rw [indentLoosely]
  split
  · split
    · exact ⟨rfl, rfl, rfl, rfl⟩
    · exact .refl s
  · exact .refl s

theorem sameText_forgetAllLoose (s : Layout) : s.SameText s.forgetAllLoose := ⟨rfl, rfl, rfl, rfl⟩

/-- Where a block collection starts, a token is added at the end or at the place of a candidate. -/
theorem exists_indentTo (s : Layout) (column : Int) (place : Option Nat) (kind : TokenKind)
    (m : Mark) :
    ∃ u, s.SameText u ∧ (s.indentTo column place kind m = u ∨
      s.indentTo column place kind m = place.elim (u.push kind m) (u.insert · kind m)) := by
  have hforget : s.SameText (if s.indent ≤ column then s.forgetLoose else s) := by
    split
    · exact sameText_forgetLoose s
    · exact .refl s
  rw [indentTo]
  split
  · exact ⟨s, .refl s, .inl rfl⟩
  · dsimp only
    generalize (if s.indent ≤ column then s.forgetLoose else s) = t at hforget ⊢
    split
    · refine ⟨{ t with indent := column, levels := ⟨t.indent, true⟩ :: t.levels },
        hforget.trans ⟨rfl, rfl, rfl, rfl⟩, .inr ?_⟩
      cases place with
      | none => rfl
      | some n => rfl
    · exact ⟨t, hforget, .inl rfl⟩

theorem like_dropCandidate (h : s.dropCandidate = some t) : s.Like t ∧ t.cursor = s.cursor := by
  rw [dropCandidate] at h
  split at h
  · next c outer hcandidates =>
    split at h
    · exact absurd h (by simp)
    · obtain rfl := Option.some.inj h
      refine ⟨⟨rfl, rfl, fun e he => ?_⟩, rfl⟩
      rw [hcandidates]
      rcases List.mem_cons.mp he with he | he
      · exact absurd he (by simp)
      · exact List.mem_cons_of_mem _ he
  · obtain rfl := Option.some.inj h
    exact ⟨.refl s, rfl⟩

theorem like_expireCandidates (h : s.expireCandidates = some t) :
    s.Like t ∧ t.cursor = s.cursor := by
  rw [expireCandidates] at h
  split at h
  · exact absurd h (by simp)
  · obtain rfl := Option.some.inj h
    refine ⟨⟨rfl, rfl, fun c hc => ?_⟩, rfl⟩
    obtain ⟨d, hd, hcd⟩ := List.mem_map.mp hc
    obtain ⟨rfl, -⟩ := Option.filter_eq_some_iff.mp hcd
    exact hd

theorem like_openFlow (h : s.openFlow = some t) : s.Like t ∧ t.cursor = s.cursor := by
  rw [openFlow] at h
  split at h
  · obtain rfl := Option.some.inj h
    refine ⟨⟨rfl, rfl, fun c hc => ?_⟩, rfl⟩
    rcases List.mem_cons.mp hc with hc | hc
    · exact absurd hc (by simp)
    · exact hc
  · exact absurd h (by simp)

theorem like_closeFlow (s : Layout) : s.Like s.closeFlow ∧ s.closeFlow.cursor = s.cursor := by
  rw [closeFlow]
  split
  · exact ⟨⟨rfl, rfl, fun c hc => List.mem_of_mem_drop hc⟩, rfl⟩
  · exact ⟨.refl s, rfl⟩

theorem like_skipGap {fuel : Nat} (h : skipGap fuel s = some t) :
    s.Like t ∧ s.cursor.Reaches t.cursor := by
  induction fuel generalizing s with
  | zero =>
    obtain rfl := Option.some.inj h
    exact ⟨.refl s, .refl s.cursor⟩
  | succ fuel ih =>
    have hstep : ∀ {u : Layout}, s.Like u → s.cursor.Reaches u.cursor →
        skipGap fuel u = some t → s.Like t ∧ s.cursor.Reaches t.cursor := by
      intro u hlike hreaches hu
      obtain ⟨hlike', hreaches'⟩ := ih hu
      exact ⟨hlike.trans hlike', hreaches.trans hreaches'⟩
    have hstay : some s = some t → s.Like t ∧ s.cursor.Reaches t.cursor := by
      intro h
      obtain rfl := Option.some.inj h
      exact ⟨.refl s, .refl s.cursor⟩
    have hmove : ∀ c : Cursor, s.Like (s.moveTo c) := fun c => like_of_eq rfl rfl rfl
    rw [skipGap] at h
    split at h
    · exact hstay h
    · next ch r hrest =>
      split at h
      · split at h
        · next d hd => exact hstep (hmove d) (Cursor.reaches_skipToLineEnd hd) h
        · exact absurd h (by simp)
      · split at h
        · next hspace =>
          exact hstep (hmove _)
            (Cursor.reaches_skipBlanks_one hrest (isBreak_eq_false_of_isSpace hspace)) h
        · split at h
          · exact hstep (u := (s.moveTo s.cursor.skipBreak).allowKey _) (like_of_eq rfl rfl rfl)
              (Cursor.reaches_skipBreak s.cursor) h
          · split at h
            · exact hstep (hmove _) (Cursor.reaches_skipLine s.cursor) h
            · exact hstay h

theorem like_skipMargin (h : s.skipMargin = some t) : s.Like t ∧ s.cursor.Reaches t.cursor := by
  rw [skipMargin] at h
  obtain ⟨⟨m, c⟩, hmargin, rfl⟩ := Option.map_eq_some_iff.mp h
  exact ⟨like_of_eq rfl rfl rfl, Cursor.reaches_skipMargin hmargin⟩

/-! ## Changes that add tokens -/

/-- The tokens are in order, and the cursor has come from the start of the text. -/
structure Ordered (text : List Char) (s : Layout) : Prop where
  placed : s.Placed text s.mark
  reaches : (Cursor.atStart text).Reaches s.cursor

namespace Ordered

variable (h : s.Ordered text)

include h

theorem goOn (hlike : s.Like t) (hreaches : s.cursor.Reaches t.cursor) : t.Ordered text :=
  ⟨(h.placed.like hlike).mono hreaches.mark_le, h.reaches.trans hreaches⟩

theorem sameText (hsame : s.SameText t) : t.Ordered text :=
  h.goOn hsame.like (Cursor.reaches_of_eq (by rw [hsame.cursor]) (by rw [hsame.cursor]))

theorem sameCursor (hlike : s.Like t ∧ t.cursor = s.cursor) : t.Ordered text :=
  h.goOn hlike.1 (Cursor.reaches_of_eq (by rw [hlike.2]) (by rw [hlike.2]))

/-- A token that nothing has to clear is added behind what has been read before it. -/
theorem push_free (hlike : s.Like t) (hreaches : s.cursor.Reaches t.cursor) (hkind : kind.IsFree)
    (hm : s.mark ≤ m) : (t.push kind m).Ordered text :=
  ⟨((h.placed.like hlike).push_free hkind hm).mono hreaches.mark_le, h.reaches.trans hreaches⟩

theorem markCandidate : s.markCandidate.Ordered text := by
  rw [Layout.markCandidate]
  split
  · refine ⟨⟨h.placed.count, h.placed.fits, h.placed.clears, h.placed.clearsMark, fun c hc => ?_⟩,
      h.reaches⟩
    rcases List.mem_cons.mp hc with hc | hc
    · obtain rfl := Option.some.inj hc
      exact ⟨Nat.le_refl s.count, fun t ht => h.placed.clearsMark t (List.mem_of_mem_drop ht)⟩
    · exact h.placed.candidates c (List.mem_of_mem_drop hc)
  · exact h

theorem closePair : s.closePair.Ordered text := by
  rw [Layout.closePair]
  split
  · exact h.push_free (like_of_eq rfl rfl rfl) (.refl _) trivial (le_refl _)
  · exact h

end Ordered

theorem cursor_markCandidate (s : Layout) : s.markCandidate.cursor = s.cursor := by
  rw [markCandidate]
  split
  · rfl
  · rfl

theorem cursor_closePair (s : Layout) : s.closePair.cursor = s.cursor := by
  rw [closePair]
  split
  · rfl
  · rfl

theorem cursor_dedentTo (s : Layout) (column : Int) : (s.dedentTo column).cursor = s.cursor := by
  have hgo : ∀ (levels : List Level) (t : Layout),
      (dedentTo.go s column levels t).cursor = t.cursor := by
    intro levels
    induction levels with
    | nil => exact fun t => rfl
    | cons level outer ih =>
      intro t
      rw [dedentTo.go]
      split
      · dsimp only
        rw [ih]
        split
        · rfl
        · rfl
      · rfl
  rw [dedentTo]
  split
  · rfl
  · exact hgo s.levels s

/-- The block collections that end here do so behind all tokens. -/
theorem Placed.dedentTo (h : s.Placed text s.mark) (column : Int) :
    (s.dedentTo column).Placed text s.mark := by
  have hgo : ∀ (levels : List Level) (t : Layout), t.Placed text s.mark →
      (Layout.dedentTo.go s column levels t).Placed text s.mark := by
    intro levels
    induction levels with
    | nil => exact fun t ht => ht
    | cons level outer ih =>
      intro t ht
      rw [Layout.dedentTo.go]
      split
      · have hu : ({ t with indent := level.outer, levels := outer } : Layout).Placed text s.mark :=
          ht.like ⟨rfl, rfl, fun _ => id⟩
        dsimp only
        split
        · refine ih _ (hu.push (le_refl s.mark) (le_refl s.mark) trivial (le_refl s.mark) ?_)
          exact fun hentry => absurd hentry TokenKind.noConfusion
        · exact ih _ hu
      · exact ht
  rw [Layout.dedentTo]
  split
  · exact h
  · exact hgo s.levels s h

theorem Ordered.dedentTo (h : s.Ordered text) (column : Int) :
    (s.dedentTo column).Ordered text := by
  have hcursor := cursor_dedentTo s column
  refine ⟨?_, by rw [hcursor]; exact h.reaches⟩
  rw [Layout.mark, hcursor]
  exact h.placed.dedentTo column

end Layout
end Yaml
end LintLocator
