import LintLocator.Proofs.Yaml.LayoutOrder

/-!
# Every token is read in order

There is one lemma for every kind of token: the reader of this kind keeps the layout in order
(`Layout.Ordered`).  Most of them add a token that nothing has to clear (`TokenKind.IsFree`), and
what is left to say is that the cursor moves on.  The brackets and dashes of sequences are the
others, `Ordered.readFlowStart` and `Ordered.readBlockEntry`.

`Ordered.next` puts the readers together, and `TokenStream.inOrder_ofText` says the same of all
tokens of a text.
-/

namespace LintLocator
namespace Yaml
namespace Layout

variable {text : List Char} {s t : Layout} {kind : TokenKind} {ch : Char} {r : List Char}

theorem like_moveTo (s : Layout) (c : Cursor) : s.Like (s.moveTo c) := ⟨rfl, rfl, fun _ => id⟩

theorem sameText_allowKey (s : Layout) (allowed : Bool) : s.SameText (s.allowKey allowed) :=
  ⟨rfl, rfl, rfl, rfl⟩

/-- An indicator and the blanks behind it are passed. -/
theorem like_skipIndicator (hrest : s.cursor.rest = ch :: r) (hch : isBreak ch = false)
    (h : (s.moveTo (s.cursor.skip 1)).skipMargin = some t) :
    s.Like t ∧ s.cursor.Reaches t.cursor ∧ s.mark < t.mark := by
  obtain ⟨hlike, hreaches⟩ := like_skipMargin h
  have hlt : s.mark < (s.cursor.skip 1).mark := .inr ⟨rfl, Nat.lt_succ_self s.cursor.mark.col⟩
  exact ⟨(like_moveTo s _).trans hlike, (Cursor.reaches_skip_one hrest hch).trans hreaches,
    lt_of_lt_of_le hlt hreaches.mark_le⟩

/-! ## Flow collections -/

namespace Ordered

variable (h : s.Ordered text)

include h

theorem readFlowStart (hrest : s.cursor.rest = ch :: r) (hch : isBreak ch = false)
    (hread : s.readFlowStart kind = some t) (hfits : (⟨kind, s.mark⟩ : Token).Fits text)
    (hkind : kind = .flowSequenceStart ∨ kind.IsFree) : t.Ordered text := by
  rw [Layout.readFlowStart] at hread
  obtain ⟨u, hopen, hread⟩ := Option.bind_eq_some_iff.mp hread
  obtain ⟨v, hmargin, hread⟩ := Option.bind_eq_some_iff.mp hread
  obtain rfl := Option.some.inj hread
  let w : Layout :=
    ({ u with inMapping := u.inMapping || kind == TokenKind.flowMappingStart }).allowKey true
  have hloose := h.markCandidate.sameText (sameText_indentLoosely s.markCandidate)
  have hw : w.Ordered text :=
    (hloose.sameCursor (like_openFlow hopen)).sameText ⟨rfl, rfl, rfl, rfl⟩
  have hcursor : w.cursor = s.cursor := by
    show u.cursor = s.cursor
    rw [(like_openFlow hopen).2, (sameText_indentLoosely _).cursor, cursor_markCandidate]
  have hmark : w.mark = s.mark := congrArg Cursor.mark hcursor
  obtain ⟨hlike, hreaches, hlt⟩ := like_skipIndicator (s := w) (hcursor ▸ hrest) hch hmargin
  refine ⟨?_, hw.reaches.trans hreaches⟩
  refine (hw.placed.like hlike).push (le_of_eq hmark) (le_of_lt hlt) hfits ?_ ?_
  · rcases hkind with rfl | hkind
    · exact lt_of_eq_of_lt hmark.symm hlt
    · exact Token.clearsMark_of_isFree hkind _ _
  · rintro rfl
    rcases hkind with hkind | hkind
    · exact absurd hkind TokenKind.noConfusion
    · exact hkind.elim

theorem readFlowEnd (hrest : s.cursor.rest = ch :: r) (hch : isBreak ch = false)
    (hread : s.readFlowEnd kind = some t) (hkind : kind.IsFree) : t.Ordered text := by
  rw [Layout.readFlowEnd] at hread
  obtain ⟨u, hdrop, hread⟩ := Option.bind_eq_some_iff.mp hread
  obtain ⟨v, hmargin, hread⟩ := Option.bind_eq_some_iff.mp hread
  obtain rfl := Option.some.inj hread
  let w := (u.closeFlow.allowKey false).closePair
  have hclose := (h.sameCursor (like_dropCandidate hdrop)).sameCursor (like_closeFlow u)
  have hw : w.Ordered text := (hclose.sameText (sameText_allowKey u.closeFlow false)).closePair
  have hcursor : w.cursor = s.cursor := by
    rw [cursor_closePair, allowKey, (like_closeFlow u).2, (like_dropCandidate hdrop).2]
  obtain ⟨hlike, hreaches, -⟩ := like_skipIndicator (s := w) (hcursor ▸ hrest) hch hmargin
  have hsame : v.SameText (if v.inFlow then { v with adjacentValue := v.mark.index } else v) := by
    split
    · exact ⟨rfl, rfl, rfl, rfl⟩
    · exact .refl v
  refine hw.push_free (hlike.trans hsame.like) ?_ hkind (le_of_eq (congrArg Cursor.mark hcursor))
  rw [hsame.cursor]
  exact hreaches

theorem readFlowEntry (hrest : s.cursor.rest = ch :: r) (hch : isBreak ch = false)
    (hread : s.readFlowEntry = some t) : t.Ordered text := by
  rw [Layout.readFlowEntry] at hread
  obtain ⟨u, hdrop, hread⟩ := Option.bind_eq_some_iff.mp hread
  obtain ⟨v, hmargin, hread⟩ := Option.bind_eq_some_iff.mp hread
  obtain rfl := Option.some.inj hread
  let w := (u.allowKey true).closePair
  have hw : w.Ordered text :=
    ((h.sameCursor (like_dropCandidate hdrop)).sameText (sameText_allowKey u true)).closePair
  have hcursor : w.cursor = s.cursor := by
    rw [cursor_closePair, allowKey, (like_dropCandidate hdrop).2]
  obtain ⟨hlike, hreaches, -⟩ := like_skipIndicator (s := w) (hcursor ▸ hrest) hch hmargin
  exact hw.push_free hlike hreaches trivial (le_of_eq (congrArg Cursor.mark hcursor))

/-! ## Block collections -/

/-- A dash starts a sequence, if it does, behind all tokens. -/
theorem indentTo_dash (hrest : s.cursor.rest = '-' :: r) (column : Int)
    (ht : (s.moveTo (s.cursor.skip 1)).indentTo column none .blockSequenceStart s.mark = t) :
    t.Placed text (s.cursor.skip 1).mark ∧ t.cursor = s.cursor.skip 1 ∧
      ∀ x ∈ t.tokens, ∀ d, s.mark ≤ d → x.ClearsDash d := by
  have hlt : s.mark < (s.cursor.skip 1).mark := .inr ⟨rfl, Nat.lt_succ_self s.cursor.mark.col⟩
  have hclears : ∀ x ∈ s.tokens, ∀ d, s.mark ≤ d → x.ClearsDash d :=
    fun x hx d hd => (h.placed.clearsMark x hx).clearsDash hd
  obtain ⟨u, hsame, hindent⟩ := exists_indentTo (s.moveTo (s.cursor.skip 1)) column none
    .blockSequenceStart s.mark
  have hlike : s.Like u := (like_moveTo s _).trans hsame.like
  rw [ht] at hindent
  rcases hindent with rfl | rfl
  · refine ⟨(h.placed.like hlike).mono (le_of_lt hlt), hsame.cursor, ?_⟩
    rw [hlike.tokens]
    exact hclears
  · refine ⟨?_, hsame.cursor, List.forall_mem_cons.mpr ⟨fun _ _ => trivial, ?_⟩⟩
    · exact (h.placed.like hlike).push (le_refl s.mark) (le_of_lt hlt)
        (Mark.isAt_of_reaches h.reaches hrest) hlt fun hentry => absurd hentry TokenKind.noConfusion
    · rw [hlike.tokens]
      exact hclears

/-- The token of an item comes behind that of the sequence that it starts, if it starts one. -/
theorem readBlockEntry (hrest : s.cursor.rest = '-' :: r)
    (hread : s.readBlockEntry = some t) : t.Ordered text := by
  rw [Layout.readBlockEntry] at hread
  split at hread
  · exact absurd hread (by simp)
  · obtain ⟨hplaced, hcursor, hdash⟩ := h.indentTo_dash hrest s.column rfl
    generalize (s.moveTo (s.cursor.skip 1)).indentTo s.column none .blockSequenceStart s.mark = u
      at hread hplaced hcursor hdash
    obtain ⟨⟨m, c⟩, hmargin, hread⟩ := Option.bind_eq_some_iff.mp hread
    dsimp only at hread
    split at hread
    · exact absurd hread (by simp)
    · obtain ⟨⟨n, d⟩, hmargin', hread⟩ := Option.bind_eq_some_iff.mp hread
      obtain ⟨w, hdrop, hread⟩ := Option.bind_eq_some_iff.mp hread
      obtain rfl := Option.some.inj hread
      obtain ⟨hdropped, hdroppedCursor⟩ := like_dropCandidate hdrop
      have hloose : (u.moveTo d).SameText (if startsWith (fun ch => isBreak ch || isFlow ch) d.rest
          then (u.moveTo d).indentLoosely else u.moveTo d) := by
        split
        · exact sameText_indentLoosely _
        · exact .refl _
      have hlike : u.Like w := ((like_moveTo u d).trans hloose.like).trans hdropped
      have hd : w.cursor = d := by
        rw [hdroppedCursor, hloose.cursor]
        rfl
      have hpass : (s.cursor.skip 1).PassesMargin d := by
        rw [hcursor] at hmargin
        exact (Cursor.passesMargin_skipMargin hmargin).trans
          (Cursor.passesMargin_skipMargin hmargin')
      have hreaches := hpass.reaches
      have hle : (s.cursor.skip 1).mark ≤ w.mark := by
        rw [Layout.mark, hd]
        exact hreaches.mark_le
      have hfollows : Mark.Follows text s.mark w.mark := by
        show Mark.Follows text s.cursor.mark w.cursor.mark
        rw [hd]
        exact Mark.follows_of_passesMargin h.reaches hrest hpass
      refine ⟨?_, ?_⟩
      · refine (hplaced.like (hlike.trans (sameText_allowKey w true).like)).push hle hle
          ⟨s.mark, hfollows⟩ (le_refl w.mark) ?_
        intro _ e he x hx
        rw [Layout.mark, hd] at he
        have hx : x ∈ u.tokens := hlike.tokens ▸ hx
        exact hdash x hx e (Mark.le_of_isBeside h.reaches hrest hreaches he)
      · show (Cursor.atStart text).Reaches w.cursor
        rw [hd]
        exact h.reaches.trans ((Cursor.reaches_skip_one hrest rfl).trans hreaches)

end Ordered

/-! ## Keys and values -/

theorem like_skipKeyGap (fuel : Nat) (found : Bool) (s : Layout) :
    s.Like (skipKeyGap fuel found s).2 ∧ s.cursor.Reaches (skipKeyGap fuel found s).2.cursor := by
  induction fuel generalizing s found with
  | zero => exact ⟨.refl s, .refl s.cursor⟩
  | succ fuel ih =>
    have hstep : ∀ (found : Bool) {u : Layout}, s.Like u → s.cursor.Reaches u.cursor →
        s.Like (skipKeyGap fuel found u).2 ∧
          s.cursor.Reaches (skipKeyGap fuel found u).2.cursor := by
      intro found u hlike hreaches
      obtain ⟨hlike', hreaches'⟩ := ih found u
      exact ⟨hlike.trans hlike', hreaches.trans hreaches'⟩
    rw [skipKeyGap]
    split
    · exact ⟨.refl s, .refl s.cursor⟩
    · next ch r hrest =>
      split
      · next hspace =>
        exact hstep true (like_moveTo s _)
          (Cursor.reaches_skipBlanks_one hrest (isBreak_eq_false_of_blank hspace))
      · split
        · exact hstep true ((like_moveTo s _).trans (sameText_allowKey _ _).like)
            (Cursor.reaches_skipBreak s.cursor)
        · split
          · exact hstep found (like_moveTo s _) (Cursor.reaches_skipLine s.cursor)
          · exact ⟨.refl s, .refl s.cursor⟩

theorem reaches_skipValueIndicator {c d : Cursor} (hrest : c.rest = ':' :: r)
    (h : skipValueIndicator c = some d) : c.Reaches d := by
  have hone := Cursor.reaches_skip_one hrest rfl
  rw [skipValueIndicator] at h
  split at h
  · split at h
    · exact absurd h (by simp)
    · next hmargin =>
      split at h
      · exact absurd h (by simp)
      · obtain rfl := Option.some.inj h
        exact hone.trans (Cursor.reaches_skipMargin hmargin)
  · obtain rfl := Option.some.inj h
    exact hone

/-- A block mapping starts, if it does. -/
theorem Placed.indentTo_free {b m : Mark} (h : s.Placed text b) (hkind : kind.IsFree) (hm : b ≤ m)
    (column : Int) : (s.indentTo column none kind m).Placed text b := by
  obtain ⟨u, hsame, hindent⟩ := exists_indentTo s column none kind m
  rcases hindent with hu | hu
  · rw [hu]
    exact h.like hsame.like
  · rw [hu]
    exact (h.like hsame.like).push_free hkind hm

theorem Placed.indentTo_insert {b m : Mark} (h : s.Placed text b) (hkind : kind.IsFree)
    (hm : b ≤ m) {c : Candidate} (hc : some c ∈ s.candidates) (column : Int) :
    (s.indentTo column (some c.place) kind m).Placed text b := by
  obtain ⟨u, hsame, hindent⟩ := exists_indentTo s column (some c.place) kind m
  rcases hindent with hu | hu
  · rw [hu]
    exact h.like hsame.like
  · rw [hu]
    exact (h.like hsame.like).insert hkind (hsame.candidates ▸ hc) (.inr hm)

theorem cursor_indentTo (s : Layout) (column : Int) (place : Option Nat) (m : Mark) :
    (s.indentTo column place kind m).cursor = s.cursor := by
  obtain ⟨u, hsame, hindent⟩ := exists_indentTo s column place kind m
  rcases hindent with hu | hu
  · rw [hu, hsame.cursor]
  · rw [hu, ← hsame.cursor]
    cases place with
    | none => rfl
    | some n => rfl

namespace Ordered

variable (h : s.Ordered text)

include h

/-- A key is announced. -/
theorem readKey (hrest : s.cursor.rest = ch :: r) (hch : isBreak ch = false)
    (hread : s.readKey = some t) : t.Ordered text := by
  rw [Layout.readKey] at hread
  split at hread
  · exact absurd hread (by simp)
  · have ht : (if s.inFlow then { s with inMapping := true }
        else s.indentTo s.column none .blockMappingStart s.mark).Ordered text ∧
      (if s.inFlow then { s with inMapping := true }
        else s.indentTo s.column none .blockMappingStart s.mark).cursor = s.cursor := by
      split
      · exact ⟨h.sameText ⟨rfl, rfl, rfl, rfl⟩, rfl⟩
      · refine ⟨⟨?_, ?_⟩, cursor_indentTo s _ none s.mark⟩
        · rw [Layout.mark, cursor_indentTo]
          have hfree : TokenKind.IsFree .blockMappingStart := trivial
          exact h.placed.indentTo_free hfree (le_refl s.mark) s.column
        · rw [cursor_indentTo]
          exact h.reaches
    generalize (if s.inFlow then { s with inMapping := true }
        else s.indentTo s.column none .blockMappingStart s.mark) = u at hread ht
    obtain ⟨hu, hcursor⟩ := ht
    obtain ⟨v, hdrop, hread⟩ := Option.bind_eq_some_iff.mp hread
    dsimp only at hread
    split at hread
    · exact absurd hread (by simp)
    · obtain rfl := Option.some.inj hread
      have hv := hu.sameCursor (like_dropCandidate hdrop)
      have hvcursor : v.cursor = s.cursor := (like_dropCandidate hdrop).2.trans hcursor
      let w := (v.allowKey (!s.inFlow)).moveTo (v.cursor.skip 1)
      obtain ⟨hlike, hreaches⟩ := like_skipKeyGap (w.cursor.rest.length + 1) false w
      have hone : v.cursor.Reaches w.cursor := Cursor.reaches_skip_one (hvcursor ▸ hrest) hch
      refine hv.push_free (((sameText_allowKey v _).like.trans (like_moveTo _ _)).trans hlike)
        (hone.trans hreaches) trivial (le_of_eq (congrArg Cursor.mark hvcursor))

end Ordered

/-- A key that has been read is put in before its `:`, and so is the mapping that it starts. -/
theorem Placed.readSimpleValue {u : Layout} (h : t.Placed text s.mark) (hle : s.mark ≤ t.mark)
    {pair : Bool} {c : Candidate} (hc : some c ∈ t.candidates)
    (hread : readSimpleValue s t pair c = some u) : u.Placed text s.mark ∧ u.cursor = t.cursor := by
  have hfree : TokenKind.IsFree .blockMappingStart := trivial
  rw [Layout.readSimpleValue] at hread
  split at hread
  · exact absurd hread (by simp)
  · obtain rfl := Option.some.inj hread
    have hkeyFree : TokenKind.IsFree .key := trivial
    have hkey := h.insert hkeyFree hc (.inl (le_refl c.mark))
    let v := if pair then (t.insert c.place .key c.mark).insert c.place .flowMappingStart t.mark
      else t.insert c.place .key c.mark
    have hv : v.Placed text s.mark ∧ some c ∈ v.candidates ∧ v.cursor = t.cursor := by
      show Layout.Placed _ _ (if _ then _ else _) ∧ _ ∈ Layout.candidates (if _ then _ else _) ∧
        Layout.cursor (if _ then _ else _) = _
      split
      · have hflow : TokenKind.IsFree .flowMappingStart := trivial
        exact ⟨hkey.insert hflow hc (.inr hle), hc, rfl⟩
      · exact ⟨hkey, hc, rfl⟩
    obtain ⟨hplaced, hcv, hcursor⟩ := hv
    have hw := hplaced.indentTo_insert hfree (le_refl s.mark) hcv c.mark.col
    have hloose := sameText_indentLoosely
      (v.indentTo c.mark.col (some c.place) .blockMappingStart s.mark)
    refine ⟨?_, ?_⟩
    · refine Placed.push_free ?_ trivial (le_refl s.mark)
      refine (hw.like hloose.like).like ⟨rfl, rfl, fun e he => ?_⟩
      rcases List.mem_cons.mp he with he | he
      · exact absurd he (by simp)
      · exact List.mem_of_mem_drop he
    · exact hloose.cursor.trans ((cursor_indentTo v _ _ s.mark).trans hcursor)

theorem Placed.readLongValue {u : Layout} (h : t.Placed text s.mark) (hle : s.mark ≤ t.mark)
    {pair : Bool} (hread : readLongValue s t pair = some u) :
    u.Placed text s.mark ∧ u.cursor = t.cursor := by
  have hfree : TokenKind.IsFree .blockMappingStart := trivial
  have hpair : (if pair then t.push .flowMappingStart t.mark else t).Placed text s.mark ∧
      (if pair then t.push .flowMappingStart t.mark else t).cursor = t.cursor := by
    split
    · exact ⟨h.push_free trivial hle, rfl⟩
    · exact ⟨h, rfl⟩
  rw [Layout.readLongValue] at hread
  generalize (if pair then t.push .flowMappingStart t.mark else t) = v at hread hpair
  obtain ⟨hv, hcursor⟩ := hpair
  dsimp only at hread
  split at hread
  · exact absurd hread (by simp)
  · obtain rfl := Option.some.inj hread
    have hw := hv.indentTo_free hfree (le_refl s.mark) s.column
    have hloose := sameText_indentLoosely (v.indentTo s.column none .blockMappingStart s.mark)
    refine ⟨?_, hloose.cursor.trans ((cursor_indentTo v _ _ s.mark).trans hcursor)⟩
    exact ((hw.like hloose.like).like (sameText_allowKey _ _).like).push_free trivial
      (le_refl s.mark)

namespace Ordered

variable (h : s.Ordered text)

include h

theorem readValue (hrest : s.cursor.rest = ':' :: r) (hread : s.readValue = some t) :
    t.Ordered text := by
  rw [Layout.readValue] at hread
  obtain ⟨c, hskip, hread⟩ := Option.bind_eq_some_iff.mp hread
  have hreaches : s.cursor.Reaches c := reaches_skipValueIndicator hrest hskip
  let u := ({ s with inPair := s.inFlow && !s.inMapping } : Layout).moveTo c
  have hu : u.Placed text s.mark := h.placed.like ⟨rfl, rfl, fun _ => id⟩
  have hend : ∀ v : Layout, v.Placed text s.mark ∧ v.cursor = u.cursor → v.Ordered text := by
    rintro v ⟨hv, hcursor⟩
    refine ⟨hv.mono ?_, ?_⟩
    · rw [Layout.mark, Layout.mark, hcursor]
      exact hreaches.mark_le
    · rw [hcursor]
      exact h.reaches.trans hreaches
  split at hread
  · next candidate outer hcandidates =>
    have hc : some candidate ∈ u.candidates := by
      show _ ∈ s.candidates
      rw [hcandidates]
      exact List.mem_cons_self
    exact hend t (hu.readSimpleValue hreaches.mark_le hc hread)
  · exact hend t (hu.readLongValue hreaches.mark_le hread)

/-! ## Names and scalars -/

theorem readAnchor (hrest : s.cursor.rest = ch :: r) (hch : isBreak ch = false)
    {kinds : List Char → TokenKind} (hread : s.readAnchor kinds = some t)
    (hkind : ∀ name, (kinds name).IsFree) : t.Ordered text := by
  rw [Layout.readAnchor] at hread
  obtain ⟨⟨name, c⟩, hname, hread⟩ := Option.bind_eq_some_iff.mp hread
  obtain rfl := Option.some.inj hread
  have hcursor := cursor_markCandidate s
  have hskip : s.markCandidate.cursor.Reaches (s.markCandidate.cursor.skip 1) :=
    Cursor.reaches_skip_one (hcursor ▸ hrest) hch
  exact h.markCandidate.push_free ((sameText_allowKey _ false).like.trans (like_moveTo _ c))
    (reaches_readAnchorName hskip hname) (hkind name) (le_of_eq (congrArg Cursor.mark hcursor))

end Ordered

theorem isFree_of_readVerbatimTag {c d : Cursor} (h : readVerbatimTag c = some (kind, d)) :
    kind.IsFree := by
  rw [readVerbatimTag] at h
  obtain ⟨⟨suffix, e⟩, -, h⟩ := Option.bind_eq_some_iff.mp h
  dsimp only at h
  split at h
  · obtain ⟨rfl, -⟩ := Prod.mk.inj (Option.some.inj h)
    trivial
  · exact absurd h (by simp)

theorem isFree_of_readShorthandTag {c d : Cursor} (h : readShorthandTag c = some (kind, d)) :
    kind.IsFree := by
  rw [readShorthandTag] at h
  obtain ⟨⟨handle, e⟩, -, h⟩ := Option.bind_eq_some_iff.mp h
  obtain ⟨⟨suffix, f⟩, -, h⟩ := Option.bind_eq_some_iff.mp h
  dsimp only at h
  split at h
  · split at h
    · exact absurd h (by simp)
    · obtain ⟨rfl, -⟩ := Prod.mk.inj (Option.some.inj h)
      trivial
  · split at h
    · obtain ⟨rfl, -⟩ := Prod.mk.inj (Option.some.inj h)
      trivial
    · obtain ⟨rfl, -⟩ := Prod.mk.inj (Option.some.inj h)
      trivial

theorem isFree_of_readTag {inFlow : Bool} {c d : Cursor} (h : readTag inFlow c = some (kind, d)) :
    kind.IsFree := by
  have hend : ∀ (found : TokenKind) (e : Cursor), found.IsFree →
      (if endsOrStartsWith isGap e.rest || inFlow && startsWith isFlow e.rest then some (found, e)
        else none) = some (kind, d) → kind.IsFree := by
    intro found e hfound hread
    split at hread
    · obtain ⟨rfl, -⟩ := Prod.mk.inj (Option.some.inj hread)
      exact hfound
    · exact absurd hread (by simp)
  rw [readTag] at h
  split at h
  · obtain ⟨⟨found, e⟩, htag, h⟩ := Option.bind_eq_some_iff.mp h
    exact hend found e (isFree_of_readVerbatimTag htag) h
  · obtain ⟨⟨found, e⟩, htag, h⟩ := Option.bind_eq_some_iff.mp h
    exact hend found e (isFree_of_readShorthandTag htag) h

namespace Ordered

variable (h : s.Ordered text)

include h

theorem readTagToken (hrest : s.cursor.rest = ch :: r) (hch : isBreak ch = false)
    (hread : s.readTagToken = some t) : t.Ordered text := by
  rw [Layout.readTagToken] at hread
  obtain ⟨⟨found, c⟩, htag, hread⟩ := Option.bind_eq_some_iff.mp hread
  obtain rfl := Option.some.inj hread
  have hcursor := cursor_markCandidate s
  exact h.markCandidate.push_free ((sameText_allowKey _ false).like.trans (like_moveTo _ c))
    (reaches_readTag (hcursor ▸ hrest) hch htag) (isFree_of_readTag htag)
    (le_of_eq (congrArg Cursor.mark hcursor))

theorem readBlockScalar (hrest : s.cursor.rest = ch :: r) (hch : isBreak ch = false)
    {folded : Bool} (hread : s.readBlockScalar folded = some t) : t.Ordered text := by
  rw [Layout.readBlockScalar] at hread
  obtain ⟨⟨m, content, c⟩, hblock, hread⟩ := Option.bind_eq_some_iff.mp hread
  obtain rfl := Option.some.inj hread
  have hcursor := cursor_markCandidate s
  let u := (s.markCandidate.allowKey true).forgetAllLoose
  have hu : s.markCandidate.SameText u :=
    (sameText_allowKey _ true).trans (sameText_forgetAllLoose _)
  have hskip : u.cursor.Reaches (u.cursor.skip 1) :=
    Cursor.reaches_skip_one (hcursor ▸ hrest) hch
  obtain ⟨hreaches, hm, -⟩ := reaches_readBlock hskip hblock
  exact (h.markCandidate.sameText hu).push_free (like_moveTo u c) hreaches trivial hm

theorem readPlainScalar (hread : s.readPlainScalar = some t) : t.Ordered text := by
  rw [Layout.readPlainScalar] at hread
  obtain ⟨⟨content, c⟩, hplain, hread⟩ := Option.bind_eq_some_iff.mp hread
  obtain rfl := Option.some.inj hread
  have hcursor := cursor_markCandidate s
  let u := (s.markCandidate.allowKey false).forgetAllLoose
  have hu : s.markCandidate.SameText u :=
    (sameText_allowKey _ false).trans (sameText_forgetAllLoose _)
  exact (h.markCandidate.sameText hu).push_free
    ((like_moveTo u c).trans (sameText_allowKey _ c.fresh).like) (reaches_readPlain hplain) trivial
    (le_of_eq (congrArg Cursor.mark hcursor))

theorem readQuotedScalar {quote : Char} (hrest : s.cursor.rest = quote :: r)
    (hquote : isBreak quote = false) (hread : s.readQuotedScalar quote = some t) :
    t.Ordered text := by
  rw [Layout.readQuotedScalar] at hread
  obtain ⟨⟨content, c⟩, hquoted, hread⟩ := Option.bind_eq_some_iff.mp hread
  obtain ⟨v, hskip, hread⟩ := Option.bind_eq_some_iff.mp hread
  obtain rfl := Option.some.inj hread
  have hcursor := cursor_markCandidate s
  obtain ⟨hlike, hreaches⟩ := like_skipGap hskip
  have hbefore := reaches_readQuoted hquote (hcursor ▸ hrest) hquoted
  have hfree : ∀ style : Style, (TokenKind.scalar style content).IsFree := fun _ => trivial
  exact h.markCandidate.push_free (t := { v with adjacentValue := v.mark.index })
    (((sameText_allowKey _ false).like.trans (like_moveTo _ c)).trans
      (hlike.trans (like_of_eq rfl rfl rfl)))
    (hbefore.trans hreaches) (hfree _) (le_of_eq (congrArg Cursor.mark hcursor))

end Ordered

/-! ## Lines that are no content -/

theorem exists_of_atDocumentStart {s : List Char} (h : atDocumentStart s = true) :
    ∃ r, s = '-' :: '-' :: '-' :: r := by
  unfold atDocumentStart at h
  split at h
  · exact ⟨_, rfl⟩
  · exact absurd h (by simp)

theorem exists_of_atDocumentEnd {s : List Char} (h : atDocumentEnd s = true) :
    ∃ r, s = '.' :: '.' :: '.' :: r := by
  unfold atDocumentEnd at h
  split at h
  · exact ⟨_, rfl⟩
  · exact absurd h (by simp)

theorem isFree_of_readVersion {c d : Cursor} (h : readVersion c = some (kind, d)) :
    kind.IsFree := by
  rw [readVersion] at h
  obtain ⟨⟨major, e⟩, -, h⟩ := Option.bind_eq_some_iff.mp h
  dsimp only at h
  split at h
  · obtain ⟨⟨minor, f⟩, -, h⟩ := Option.bind_eq_some_iff.mp h
    obtain ⟨rfl, -⟩ := Prod.mk.inj (Option.some.inj h)
    trivial
  · exact absurd h (by simp)

theorem isFree_of_readTagDirective {c d : Cursor} (h : readTagDirective c = some (kind, d)) :
    kind.IsFree := by
  rw [readTagDirective] at h
  obtain ⟨⟨handle, e⟩, -, h⟩ := Option.bind_eq_some_iff.mp h
  dsimp only at h
  split at h
  · exact absurd h (by simp)
  · obtain ⟨⟨replacement, f⟩, -, h⟩ := Option.bind_eq_some_iff.mp h
    dsimp only at h
    split at h
    · obtain ⟨rfl, -⟩ := Prod.mk.inj (Option.some.inj h)
      trivial
    · exact absurd h (by simp)

theorem isFree_of_readDirective {c d : Cursor} (h : readDirective c = some (kind, d)) :
    kind.IsFree := by
  have hend : ∀ (found : TokenKind) (e : Cursor), found.IsFree →
      (e.skipToLineEnd.bind fun f => some (found, f.skipBreak)) = some (kind, d) →
        kind.IsFree := by
    intro found e hfound hread
    obtain ⟨f, -, hread⟩ := Option.bind_eq_some_iff.mp hread
    obtain ⟨rfl, -⟩ := Prod.mk.inj (Option.some.inj hread)
    exact hfound
  rw [readDirective] at h
  dsimp only at h
  split at h
  · exact absurd h (by simp)
  · split at h
    · obtain ⟨⟨found, e⟩, hversion, h⟩ := Option.bind_eq_some_iff.mp h
      exact hend found e (isFree_of_readVersion hversion) h
    · split at h
      · obtain ⟨⟨found, e⟩, htag, h⟩ := Option.bind_eq_some_iff.mp h
        exact hend found e (isFree_of_readTagDirective htag) h
      · have hfree : TokenKind.IsFree (.tagDirective [] []) := trivial
        exact hend _ _ hfree h

/-! ## One token after the other -/

namespace Ordered

variable (h : s.Ordered text)

include h

/-- **Every token is read in order.** -/
theorem readToken {c : Char} (hrest : s.cursor.rest = c :: r) (hread : s.readToken c r = some t) :
    t.Ordered text := by
  have hplain : s.readPlainScalar = some t → t.Ordered text := h.readPlainScalar
  unfold Layout.readToken at hread
  dsimp only at hread
  split at hread
  · exact h.readFlowStart hrest rfl hread (Mark.isAt_of_reaches h.reaches hrest) (.inl rfl)
  · exact h.readFlowStart hrest rfl hread trivial (.inr trivial)
  · exact h.readFlowEnd hrest rfl hread trivial
  · exact h.readFlowEnd hrest rfl hread trivial
  · exact h.readFlowEntry hrest rfl hread
  · split at hread
    · exact h.readBlockEntry hrest hread
    · exact hplain hread
  · split at hread
    · exact h.readKey hrest rfl hread
    · exact hplain hread
  · split at hread
    · exact h.readValue hrest hread
    · exact hplain hread
  · exact h.readAnchor hrest rfl hread fun _ => trivial
  · exact h.readAnchor hrest rfl hread fun _ => trivial
  · exact h.readTagToken hrest rfl hread
  · split at hread
    · exact hplain hread
    · exact h.readBlockScalar hrest rfl hread
  · split at hread
    · exact hplain hread
    · exact h.readBlockScalar hrest rfl hread
  · exact h.readQuotedScalar hrest rfl hread
  · exact h.readQuotedScalar hrest rfl hread
  · exact absurd hread (by simp)
  · exact absurd hread (by simp)
  · exact absurd hread (by simp)
  · exact hplain hread

theorem readDirectiveLine (hrest : s.cursor.rest = ch :: r) (hch : isBreak ch = false)
    (hread : s.readDirectiveLine = some t) : t.Ordered text := by
  rw [Layout.readDirectiveLine] at hread
  obtain ⟨u, hdrop, hread⟩ := Option.bind_eq_some_iff.mp hread
  obtain ⟨⟨found, c⟩, hdirective, hread⟩ := Option.bind_eq_some_iff.mp hread
  obtain rfl := Option.some.inj hread
  have hu := (h.dedentTo (-1)).sameCursor (like_dropCandidate hdrop)
  have hcursor : u.cursor = s.cursor := by
    rw [(like_dropCandidate hdrop).2, cursor_dedentTo]
  have hskip : u.cursor.Reaches (u.cursor.skip 1) :=
    Cursor.reaches_skip_one (hcursor ▸ hrest) hch
  exact hu.push_free ((sameText_allowKey u false).like.trans (like_moveTo _ c))
    (reaches_readDirective hskip hdirective) (isFree_of_readDirective hdirective)
    (le_of_eq (congrArg Cursor.mark hcursor))

theorem readDocumentMark (hrest : s.cursor.rest = ch :: ch :: ch :: r) (hch : isBreak ch = false)
    (hread : s.readDocumentMark kind = some t) (hkind : kind.IsFree) : t.Ordered text := by
  rw [Layout.readDocumentMark] at hread
  obtain ⟨u, hdrop, hread⟩ := Option.bind_eq_some_iff.mp hread
  obtain rfl := Option.some.inj hread
  have hu := (h.dedentTo (-1)).sameCursor (like_dropCandidate hdrop)
  have hcursor : u.cursor = s.cursor := by
    rw [(like_dropCandidate hdrop).2, cursor_dedentTo]
  have hline : ∀ x ∈ [ch, ch, ch], isBreak x = false := by
    intro x hx
    obtain rfl : x = ch := by simpa using hx
    exact hch
  exact hu.push_free ((sameText_allowKey u false).like.trans (like_moveTo _ _))
    (Cursor.reaches_skip hline (hcursor ▸ hrest)) hkind (le_of_eq (congrArg Cursor.mark hcursor))

theorem readDocumentEnd (hrest : s.cursor.rest = ch :: ch :: ch :: r) (hch : isBreak ch = false)
    (hread : s.readDocumentEnd = some t) : t.Ordered text := by
  rw [Layout.readDocumentEnd] at hread
  obtain ⟨u, hmark, hread⟩ := Option.bind_eq_some_iff.mp hread
  obtain ⟨c, hend, hread⟩ := Option.bind_eq_some_iff.mp hread
  obtain rfl := Option.some.inj hread
  exact (h.readDocumentMark hrest hch hmark trivial).goOn (like_moveTo u c)
    (Cursor.reaches_skipToLineEnd hend)

/-- The end of the text is behind all tokens. -/
theorem readEnd (hread : s.readEnd = some t) : t.Placed text t.mark ∧ t.isFinished = true := by
  rw [Layout.readEnd] at hread
  have hle : s.mark ≤ (if s.mark.col = 0 then s.cursor
      else { s.cursor with mark := ⟨s.mark.index, s.mark.line + 1, 0⟩ }).mark := by
    split
    · exact le_refl s.mark
    · exact .inl (Nat.lt_succ_self s.mark.line)
  generalize (if s.mark.col = 0 then s.cursor
      else { s.cursor with mark := ⟨s.mark.index, s.mark.line + 1, 0⟩ }) = c at hread hle
  split at hread
  · exact absurd hread (by simp)
  · obtain rfl := Option.some.inj hread
    let u : Layout := { s with cursor := c, candidates := s.candidates.map fun _ => none }
    have hlike : s.Like u := by
      refine ⟨rfl, rfl, fun e he => ?_⟩
      obtain ⟨_, -, hnone⟩ := List.mem_map.mp he
      exact absurd hnone (by simp)
    have hu : u.Placed text u.mark := (h.placed.like hlike).mono hle
    have hfree : TokenKind.IsFree .streamEnd := trivial
    have hend := ((hu.dedentTo (-1)).like (sameText_allowKey _ false).like).push_free hfree
      (le_refl u.mark)
    have hmark : (((u.dedentTo (-1)).allowKey false).push .streamEnd c.mark).mark = u.mark :=
      congrArg Cursor.mark (cursor_dedentTo u (-1))
    exact ⟨hmark.symm ▸ hend, rfl⟩

/-- The next token is read in order, and behind the end of the text nothing is read. -/
theorem next (hread : s.next = some t) :
    t.Ordered text ∨ t.Placed text t.mark ∧ t.isFinished = true := by
  rw [Layout.next] at hread
  obtain ⟨u, hskip, hread⟩ := Option.bind_eq_some_iff.mp hread
  obtain ⟨v, hexpire, hread⟩ := Option.bind_eq_some_iff.mp hread
  obtain ⟨hlike, hreaches⟩ := like_skipGap hskip
  have hv := ((h.goOn hlike hreaches).sameCursor (like_expireCandidates hexpire)).dedentTo v.column
  generalize v.dedentTo v.column = w at hread hv
  dsimp only at hread
  split at hread
  · exact .inr (hv.readEnd hread)
  · next c r hrest =>
    refine .inl ?_
    split at hread
    · next hdirective =>
      rw [Bool.and_eq_true, beq_iff_eq, beq_iff_eq] at hdirective
      obtain ⟨-, rfl⟩ := hdirective
      exact hv.readDirectiveLine hrest rfl hread
    · split at hread
      · next hstart =>
        obtain ⟨s', hs⟩ := exists_of_atDocumentStart (Bool.and_eq_true_iff.mp hstart).2
        exact hv.readDocumentMark (hrest.trans hs) rfl hread trivial
      · split at hread
        · next hend =>
          obtain ⟨s', hs⟩ := exists_of_atDocumentEnd (Bool.and_eq_true_iff.mp hend).2
          exact hv.readDocumentEnd (hrest.trans hs) rfl hread
        · split at hread
          · exact absurd hread (by simp)
          · exact hv.readToken hrest hread

end Ordered

/-! ## All tokens -/

/-- What is settled is no longer open, but it is read as before. -/
theorem like_settleAll (h : s.settleAll = some t) : s.Like t ∧ t.cursor = s.cursor := by
  rw [settleAll] at h
  split at h
  · obtain ⟨u, hexpire, rfl⟩ := Option.map_eq_some_iff.mp h
    obtain ⟨hlike, hcursor⟩ := like_expireCandidates hexpire
    exact ⟨hlike.trans (like_of_eq rfl rfl rfl), hcursor⟩
  · obtain rfl := Option.some.inj h
    exact ⟨.refl s, rfl⟩

/-- What is read before the first token is in order, as nothing has been read. -/
theorem ordered_start (source : List Char) :
    (Layout.start source).Ordered (source.takeWhile fun c => c != '\x00') := by
  refine ⟨⟨rfl, ?_, .nil, ?_, ?_⟩, .refl _⟩
  · exact fun t ht => absurd ht List.not_mem_nil
  · exact fun t ht => absurd ht List.not_mem_nil
  · intro c hc
    exact absurd (List.mem_singleton.mp hc) (by simp)

theorem Placed.settledTokens (h : s.Placed text b) : InOrder text s.settledTokens := by
  constructor
  · intro t ht
    exact h.fits t (List.mem_reverse.mp (List.mem_of_mem_take ht))
  · exact (List.pairwise_reverse.mpr h.clears).sublist (List.take_sublist s.settled _)

theorem Ordered.readAll (h : s.Ordered text) (fuel : Nat) :
    InOrder text (Layout.readAll fuel s).tokens := by
  induction fuel generalizing s with
  | zero => exact h.placed.settledTokens
  | succ fuel ih =>
    rw [Layout.readAll]
    split
    · exact h.placed.settledTokens
    · next t hnext =>
      split
      · exact h.placed.settledTokens
      · next u hsettle =>
        obtain ⟨hlike, hcursor⟩ := like_settleAll hsettle
        split
        · rcases h.next hnext with ht | ⟨ht, -⟩
          · exact (ht.placed.like hlike).settledTokens
          · exact (ht.like hlike).settledTokens
        · next hopen =>
          rcases h.next hnext with ht | ⟨-, hfinished⟩
          · exact ih (ht.sameCursor ⟨hlike, hcursor⟩)
          · rw [isFinished, hlike.tokens] at hopen
            exact absurd hfinished hopen

end Layout

/-- **The tokens of a text are in order.** -/
theorem TokenStream.inOrder_ofText (source : List Char) :
    InOrder (source.takeWhile fun c => c != '\x00') (TokenStream.ofText source).tokens :=
  (Layout.ordered_start source).readAll (source.length + 2)

end Yaml
end LintLocator
