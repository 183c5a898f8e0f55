import LintLocator.Proofs.Yaml.Emission
import LintLocator.Proofs.Yaml.TokenOrder
import Mathlib.Data.List.Infix
import Mathlib.Order.WithBot

/-!
# What a step of the grammar does

Inside of a document a step either begins a node or ends a collection (`Grammar.step_cases`).
Which of the two it does, and what is expected behind it, is told by three relations that list the
rules of the grammar: `Expecting.Turns`, `Expecting.Opens` and `Expecting.Closes`.

Where events stand is told along with that.  Tokens may all come behind some mark (`Ahead`), and
then so do the events that are made of them.  Behind the start of a sequence this is the case at
once or, in a block, as soon as the first dash has been passed (`Grammar.Above`).
-/

namespace LintLocator
namespace Yaml

/-! ## The rules of the grammar -/

namespace Expecting

/-- What is expected before and behind a node. -/
inductive Turns : List Expecting → List Expecting → Prop where
  | node (after : List Expecting) : Turns (.node :: after) after
  | content (after : List Expecting) : Turns (.content :: after) after
  | blockEntry (after : List Expecting) : Turns (.blockEntry :: after) (.blockEntry :: after)
  | inlineEntry (after : List Expecting) : Turns (.inlineEntry :: after) (.inlineEntry :: after)
  | flowEntry (first : Bool) (after : List Expecting) :
      Turns (.flowEntry first :: after) (.flowEntry false :: after)
  | blockKey (after : List Expecting) : Turns (.blockKey :: after) (.blockValue :: after)
  | blockValue (after : List Expecting) : Turns (.blockValue :: after) (.blockKey :: after)
  | flowKey (first : Bool) (after : List Expecting) :
      Turns (.flowKey first :: after) (.flowValue :: .flowKey false :: after)
  | loneKey (first : Bool) (after : List Expecting) :
      Turns (.flowKey first :: after) (.missingValue :: .flowKey false :: after)
  | flowValue (after : List Expecting) : Turns (.flowValue :: after) after
  | missingValue (after : List Expecting) : Turns (.missingValue :: after) after
  | pairKey (after : List Expecting) : Turns (.pairKey :: after) (.pairValue :: after)
  | pairValue (mark : Mark) (after : List Expecting) :
      Turns (.pairValue :: after) (.pairEnd mark :: after)

/-- What is expected behind the start of a collection. -/
inductive Opens : EventKind → Expecting → Prop where
  | blockEntry (anchor : Option Nat) : Opens (.sequenceStart anchor) .blockEntry
  | inlineEntry (anchor : Option Nat) : Opens (.sequenceStart anchor) .inlineEntry
  | flowEntry (anchor : Option Nat) : Opens (.sequenceStart anchor) (.flowEntry true)
  | blockKey (anchor : Option Nat) : Opens (.mappingStart anchor) .blockKey
  | flowKey (anchor : Option Nat) : Opens (.mappingStart anchor) (.flowKey true)
  | pairKey (anchor : Option Nat) : Opens (.mappingStart anchor) .pairKey

/-- Where a collection may end. -/
inductive Closes : Expecting → EventKind → Prop where
  | blockEntry : Closes .blockEntry .sequenceEnd
  | inlineEntry : Closes .inlineEntry .sequenceEnd
  | flowEntry (first : Bool) : Closes (.flowEntry first) .sequenceEnd
  | blockKey : Closes .blockKey .mappingEnd
  | flowKey (first : Bool) : Closes (.flowKey first) .mappingEnd
  | pairEnd (mark : Mark) : Closes (.pairEnd mark) .mappingEnd

/-- Whether something is expected in a mapping, where nodes are keys and values. -/
def isPart : Expecting → Bool
  | .blockKey => true
  | .blockValue => true
  | .flowKey _ => true
  | .flowValue => true
  | .missingValue => true
  | .pairKey => true
  | .pairValue => true
  | .pairEnd _ => true
  | _ => false

/-- Whether a document has begun and not ended. -/
def isInside : Expecting → Bool
  | .document _ => false
  | .documentEnd => false
  | _ => true

end Expecting

/-! ## Tokens behind a mark -/

/-- A token comes behind a mark, and so does its dash if it is that of an item. -/
def Token.IsBehind (text : List Char) (m : WithBot Mark) (t : Token) : Prop :=
  m < t.mark ∧ (t.kind = .blockEntry → ∀ d, Mark.IsBeside text d t.mark → m < d)

/-- All tokens come behind a mark. -/
def Ahead (text : List Char) (m : WithBot Mark) (ts : List Token) : Prop :=
  ∀ t ∈ ts, t.IsBehind text m

variable {text : List Char} {m : WithBot Mark} {t u : Token} {ts us : List Token}

theorem ahead_bot (text : List Char) (ts : List Token) : Ahead text ⊥ ts :=
  fun t _ => ⟨WithBot.bot_lt_coe t.mark, fun _ d _ => WithBot.bot_lt_coe d⟩

theorem Ahead.suffix (h : Ahead text m ts) (hsuffix : us <:+ ts) : Ahead text m us :=
  fun t ht => h t (hsuffix.subset ht)

theorem InOrder.suffix (h : InOrder text ts) (hsuffix : us <:+ ts) : InOrder text us :=
  ⟨fun t ht => h.fits t (hsuffix.subset ht), h.clears.sublist hsuffix.sublist⟩

/-- What comes behind the bracket of a sequence. -/
theorem InOrder.ahead_flow (h : InOrder text (t :: ts)) (ht : t.kind = .flowSequenceStart) :
    Ahead text t.mark ts := by
  intro u hu
  obtain ⟨hmark, hdash⟩ := (List.pairwise_cons.mp h.clears).1 u hu
  obtain ⟨kind, mark⟩ := t
  obtain rfl : kind = _ := ht
  exact ⟨WithBot.coe_lt_coe.mpr hmark, fun hkind d hd => WithBot.coe_lt_coe.mpr (hdash hkind d hd)⟩

/-- What comes behind the start of a sequence in a block: the dash where it starts, which is not
behind the start, and then tokens that are. -/
theorem InOrder.ahead_block (h : InOrder text (t :: u :: ts)) (ht : t.kind = .blockSequenceStart)
    (hu : u.kind = .blockEntry ∨ u.kind = .blockEnd) :
    (t.mark : WithBot Mark) < u.mark ∧ Ahead text t.mark ts := by
  obtain ⟨hall, hbehind⟩ := List.pairwise_cons.mp h.clears
  obtain ⟨kind, mark⟩ := t
  obtain rfl : kind = _ := ht
  have hlt : mark < u.mark := (hall u List.mem_cons_self).1
  refine ⟨WithBot.coe_lt_coe.mpr hlt, fun v hv => ?_⟩
  obtain ⟨-, hdash⟩ := (List.pairwise_cons.mp hbehind).1 v hv
  have hmark : mark < v.mark := (hall v (List.mem_cons_of_mem u hv)).1
  refine ⟨WithBot.coe_lt_coe.mpr hmark, fun hkind d hd => ?_⟩
  have hle : u.mark ≤ d := by
    obtain ⟨kind, n⟩ := u
    rcases hu with hu | hu
    · obtain rfl : kind = _ := hu
      exact hdash hkind d hd
    · obtain rfl : kind = _ := hu
      exact hdash hkind d hd
  exact WithBot.coe_lt_coe.mpr (lt_of_lt_of_le hlt hle)

namespace Grammar

variable {g h : Grammar} {e : Event} {after before : List Expecting} {inline : Bool}

/-- What is still to be read comes behind a mark.  In front of the first item of a sequence this
may be said of what follows its dash. -/
def Above (text : List Char) (m : WithBot Mark) (g : Grammar) : Prop :=
  Ahead text m g.tokens ∨
    ∃ after t ts, g.stack = .blockEntry :: after ∧ g.tokens = t :: ts ∧
      (t.kind = .blockEntry ∨ t.kind = .blockEnd → m < t.mark ∧ Ahead text m ts)

/-- A node begins with an event.  `ts` are the tokens that it may be made of, and `after` is what is
expected behind the node. -/
structure Begins (text : List Char) (inline : Bool) (ts : List Token) (after : List Expecting)
    (e : Event) (h : Grammar) : Prop where
  suffix : h.tokens <:+ ts
  mark : ∀ m, Ahead text m ts → m < e.mark
  /-- A node is all that the event says, or the start of a collection. -/
  stack : h.stack = after ∧ (∃ style s tagged anchor, e.kind = .scalar style s tagged anchor) ∨
    h.stack = after ∧ (∃ id, e.kind = .alias id) ∨
    ∃ x, Expecting.Opens e.kind x ∧ h.stack = x :: after
  /-- A sequence starts at its bracket or its first dash, or behind a dash. -/
  start : ∀ anchor, e.kind = .sequenceStart anchor →
    (e.mark.IsAt text '[' ∨ e.mark.IsAt text '-') ∧ h.Above text e.mark ∨
      inline = true ∧ (∃ d, Mark.Follows text d e.mark) ∧
        (∀ m, Ahead text m ts → ∀ d, Mark.IsBeside text d e.mark → m < d) ∧
        ∀ e' k, h.step = .event e' k → e'.kind ≠ .sequenceEnd

theorem Begins.of_suffix (h' : Begins text inline us after e h) (hsuffix : us <:+ ts) :
    Begins text inline ts after e h where
  suffix := h'.suffix.trans hsuffix
  mark := fun m hm => h'.mark m (hm.suffix hsuffix)
  stack := h'.stack
  start := by
    intro anchor he
    refine (h'.start anchor he).imp_right ?_
    rintro ⟨hinline, hfollows, hbeside, hnext⟩
    exact ⟨hinline, hfollows, fun m hm => hbeside m (hm.suffix hsuffix), hnext⟩

theorem Begins.to_inline (h' : Begins text false ts after e h) :
    Begins text inline ts after e h where
  suffix := h'.suffix
  mark := h'.mark
  stack := h'.stack
  start := fun anchor he => (h'.start anchor he).imp_right fun hinline =>
    absurd hinline.1 (by simp)

/-- A scalar or an alias is all of a node. -/
theorem begins_of_leaf (ht : t ∈ ts) (hmark : e.mark = t.mark) (hsuffix : h.tokens <:+ ts)
    (hstack : h.stack = after)
    (he : (∃ style text tagged anchor, e.kind = .scalar style text tagged anchor) ∨
      ∃ id, e.kind = .alias id) : Begins text inline ts after e h where
  suffix := hsuffix
  mark := fun _ hm => hmark ▸ (hm t ht).1
  stack := he.imp (fun hscalar => ⟨hstack, hscalar⟩) fun halias => .inl ⟨hstack, halias⟩
  start := by
    intro anchor hkind
    rcases he with ⟨_, _, _, _, he⟩ | ⟨_, he⟩
    · exact absurd (he.symm.trans hkind) EventKind.noConfusion
    · exact absurd (he.symm.trans hkind) EventKind.noConfusion

theorem begins_of_emptyScalar (ht : t ∈ ts) (hsuffix : h.tokens <:+ ts) (hstack : h.stack = after) :
    Begins text inline ts after (emptyScalar t.mark) h :=
  begins_of_leaf ht rfl hsuffix hstack (.inl ⟨_, _, _, _, rfl⟩)

theorem begins_of_mapping (ht : t ∈ ts) {anchor : Option Nat} {x : Expecting}
    (hx : Expecting.Opens (.mappingStart anchor) x) (hsuffix : h.tokens <:+ ts)
    (hstack : h.stack = x :: after) :
    Begins text inline ts after ⟨.mappingStart anchor, t.mark⟩ h where
  suffix := hsuffix
  mark := fun _ hm => (hm t ht).1
  stack := .inr (.inr ⟨x, hx, hstack⟩)
  start := fun _ hkind => absurd hkind EventKind.noConfusion

/-! ## Nodes -/

theorem exists_of_peek? (h : g.peek? = some t) : ∃ ts, g.tokens = t :: ts ∧ g.skip.tokens = ts := by
  obtain ⟨ts, hts⟩ := List.head?_eq_some_iff.mp h
  exact ⟨ts, hts, by rw [skip, hts]; rfl⟩

theorem skip_suffix (g : Grammar) : g.skip.tokens <:+ g.tokens := List.drop_suffix 1 g.tokens

/-- An anchor and a tag are passed. -/
theorem suffix_of_readProperties {anchor : Option Nat} {tagged : Bool}
    (hread : g.readProperties = some (anchor, tagged, h)) : h.tokens <:+ g.tokens := by
  have hone := skip_suffix g
  have htwo : (g.tokens.drop 1).drop 1 <:+ g.tokens := (List.drop_suffix 1 _).trans hone
  rw [readProperties] at hread
  obtain ⟨t, -, hread⟩ := Option.bind_eq_some_iff.mp hread
  dsimp only [addAnchor] at hread
  split at hread
  · obtain ⟨u, -, hread⟩ := Option.bind_eq_some_iff.mp hread
    split at hread
    · split at hread
      · obtain ⟨-, hpair⟩ := Prod.mk.inj (Option.some.inj hread)
        obtain ⟨-, rfl⟩ := Prod.mk.inj hpair
        exact htwo
      · exact absurd hread (by simp)
    · obtain ⟨-, hpair⟩ := Prod.mk.inj (Option.some.inj hread)
      obtain ⟨-, rfl⟩ := Prod.mk.inj hpair
      exact hone
  · split at hread
    · exact absurd hread (by simp)
    · obtain ⟨u, -, hread⟩ := Option.bind_eq_some_iff.mp hread
      split at hread
      · obtain ⟨-, hpair⟩ := Prod.mk.inj (Option.some.inj hread)
        obtain ⟨-, rfl⟩ := Prod.mk.inj hpair
        exact htwo
      · obtain ⟨-, hpair⟩ := Prod.mk.inj (Option.some.inj hread)
        obtain ⟨-, rfl⟩ := Prod.mk.inj hpair
        exact hone
  · obtain ⟨-, hpair⟩ := Prod.mk.inj (Option.some.inj hread)
    obtain ⟨-, rfl⟩ := Prod.mk.inj hpair
    exact List.suffix_refl g.tokens

/-- What the content of a node may be. -/
theorem readContent_cases {block tagged : Bool} {anchor : Option Nat}
    (hread : g.readContent block inline anchor tagged after = some (e, h)) :
    ∃ t ts, g.tokens = t :: ts ∧
      ((∃ style text, e = ⟨.scalar style text tagged anchor, t.mark⟩ ∧
          (h = g.skip.expect after ∨ h = g.expect after)) ∨
        (∃ x, Expecting.Opens (.mappingStart anchor) x ∧ e = ⟨.mappingStart anchor, t.mark⟩ ∧
          h = g.skip.expect (x :: after)) ∨
        (e = ⟨.sequenceStart anchor, t.mark⟩ ∧
          (t.kind = .flowSequenceStart ∧ h = g.skip.expect (.flowEntry true :: after) ∨
            t.kind = .blockSequenceStart ∧ h = g.skip.expect (.blockEntry :: after) ∨
            t.kind = .blockEntry ∧ inline = true ∧ h = g.expect (.inlineEntry :: after)))) := by
  rw [readContent] at hread
  obtain ⟨t, hpeek, hread⟩ := Option.bind_eq_some_iff.mp hread
  obtain ⟨ts, htokens⟩ := List.head?_eq_some_iff.mp hpeek
  refine ⟨t, ts, htokens, ?_⟩
  have hempty : (if tagged || anchor.isSome then
      some ((⟨.scalar .plain "" tagged anchor, t.mark⟩, g.expect after) : Event × Grammar)
      else none) = some (e, h) →
      ∃ style text, e = ⟨.scalar style text tagged anchor, t.mark⟩ ∧
        (h = g.skip.expect after ∨ h = g.expect after) := by
    intro hread
    split at hread
    · obtain ⟨rfl, rfl⟩ := Prod.mk.inj (Option.some.inj hread)
      exact ⟨.plain, "", rfl, .inr rfl⟩
    · exact absurd hread (by simp)
  dsimp only at hread
  split at hread
  · next style text _ =>
    obtain ⟨rfl, rfl⟩ := Prod.mk.inj (Option.some.inj hread)
    exact .inl ⟨style, String.ofList text, rfl, .inl rfl⟩
  · next hkind =>
    obtain ⟨rfl, rfl⟩ := Prod.mk.inj (Option.some.inj hread)
    exact .inr (.inr ⟨rfl, .inl ⟨hkind, rfl⟩⟩)
  · obtain ⟨rfl, rfl⟩ := Prod.mk.inj (Option.some.inj hread)
    exact .inr (.inl ⟨.flowKey true, .flowKey anchor, rfl, rfl⟩)
  · next hkind =>
    split at hread
    · next hinline =>
      obtain ⟨rfl, rfl⟩ := Prod.mk.inj (Option.some.inj hread)
      exact .inr (.inr ⟨rfl, .inr (.inr ⟨hkind, hinline, rfl⟩)⟩)
    · exact .inl (hempty hread)
  · split at hread
    · next hkind =>
      obtain ⟨rfl, rfl⟩ := Prod.mk.inj (Option.some.inj hread)
      rw [Bool.and_eq_true, beq_iff_eq] at hkind
      exact .inr (.inr ⟨rfl, .inr (.inl ⟨hkind.2, rfl⟩)⟩)
    · split at hread
      · obtain ⟨rfl, rfl⟩ := Prod.mk.inj (Option.some.inj hread)
        exact .inr (.inl ⟨.blockKey, .blockKey anchor, rfl, rfl⟩)
      · exact .inl (hempty hread)

/-- A node begins with an alias, or with its content behind its anchor and its tag. -/
theorem readNode_cases {block : Bool} (hread : g.readNode block inline after = some (e, h)) :
    (∃ t ts id, g.tokens = t :: ts ∧ e = ⟨.alias id, t.mark⟩ ∧ h = g.skip.expect after) ∨
      ∃ anchor tagged, ∃ k : Grammar, k.tokens <:+ g.tokens ∧
        k.readContent block inline anchor tagged after = some (e, h) := by
  rw [readNode] at hread
  obtain ⟨t, hpeek, hread⟩ := Option.bind_eq_some_iff.mp hread
  obtain ⟨ts, htokens⟩ := List.head?_eq_some_iff.mp hpeek
  dsimp only at hread
  split at hread
  · obtain ⟨id, -, hread⟩ := Option.bind_eq_some_iff.mp hread
    obtain ⟨rfl, rfl⟩ := Prod.mk.inj (Option.some.inj hread)
    exact .inl ⟨t, ts, id, htokens, rfl, rfl⟩
  · obtain ⟨⟨anchor, tagged, k⟩, hproperties, hread⟩ := Option.bind_eq_some_iff.mp hread
    exact .inr ⟨anchor, tagged, k, suffix_of_readProperties hproperties, hread⟩

/-- Nothing that a node begins with ends a sequence. -/
theorem kind_ne_of_readNode {block : Bool} (hread : g.readNode block inline after = some (e, h)) :
    e.kind ≠ .sequenceEnd := by
  rcases readNode_cases hread with ⟨t, ts, id, -, rfl, -⟩ | ⟨anchor, tagged, k, -, hread⟩
  · exact EventKind.noConfusion
  · obtain ⟨t, ts, -, hcases⟩ := readContent_cases hread
    rcases hcases with ⟨style, text, rfl, -⟩ | ⟨x, -, rfl, -⟩ | ⟨rfl, -⟩
    · exact EventKind.noConfusion
    · exact EventKind.noConfusion
    · exact EventKind.noConfusion

/-- Behind a dash there is an item. -/
theorem kind_ne_of_readInlineEntry (htokens : g.tokens = t :: ts) (ht : t.kind = .blockEntry)
    (hread : g.readInlineEntry after = some (e, h)) : e.kind ≠ .sequenceEnd := by
  rw [readInlineEntry, peek?, htokens, List.head?_cons, Option.bind_eq_bind,
    Option.bind_some] at hread
  simp only [ht] at hread
  obtain ⟨item, -, hread⟩ := Option.bind_eq_some_iff.mp hread
  split at hread
  · obtain ⟨rfl, -⟩ := Prod.mk.inj (Option.some.inj hread)
    exact EventKind.noConfusion
  · exact kind_ne_of_readNode hread

theorem eq_of_ofEvent? {read : Option (Event × Grammar)} (h' : Step.ofEvent? read = .event e h) :
    read = some (e, h) := by
  cases read with
  | none => exact absurd h' (by simp [Step.ofEvent?])
  | some pair =>
    obtain ⟨rfl, rfl⟩ := Step.event.inj h'
    rfl

/-- The content of a node begins it. -/
theorem begins_of_readContent (horder : InOrder text g.tokens) {block tagged : Bool}
    {anchor : Option Nat} (hread : g.readContent block inline anchor tagged after = some (e, h)) :
    Begins text inline g.tokens after e h := by
  have hskip := skip_suffix g
  have hstay : g.tokens <:+ g.tokens := List.suffix_refl g.tokens
  obtain ⟨t, ts, htokens, hcases⟩ := readContent_cases hread
  have ht : t ∈ g.tokens := htokens ▸ List.mem_cons_self
  have hts : g.skip.tokens = ts := by
    rw [skip, htokens]
    rfl
  rcases hcases with ⟨style, scalar, rfl, rfl | rfl⟩ | ⟨x, hx, rfl, rfl⟩ |
    ⟨rfl, ⟨hkind, rfl⟩ | ⟨hkind, rfl⟩ | ⟨hkind, hinline, rfl⟩⟩
  · exact begins_of_leaf ht rfl hskip rfl (.inl ⟨_, _, _, _, rfl⟩)
  · exact begins_of_leaf ht rfl hstay rfl (.inl ⟨_, _, _, _, rfl⟩)
  · exact begins_of_mapping ht hx hskip rfl
  · refine ⟨hskip, fun m hm => (hm t ht).1, .inr (.inr ⟨_, .flowEntry anchor, rfl⟩), ?_⟩
    intro _ _
    have hfits := horder.fits t ht
    rw [Token.Fits, hkind] at hfits
    refine .inl ⟨.inl hfits, .inl ?_⟩
    show Ahead text t.mark g.skip.tokens
    rw [hts]
    exact (htokens ▸ horder).ahead_flow hkind
  · refine ⟨hskip, fun m hm => (hm t ht).1, .inr (.inr ⟨_, .blockEntry anchor, rfl⟩), ?_⟩
    intro _ _
    have hfits := horder.fits t ht
    rw [Token.Fits, hkind] at hfits
    refine .inl ⟨.inr hfits, ?_⟩
    show Above text t.mark (g.skip.expect (.blockEntry :: after))
    cases ts with
    | nil =>
      refine .inl fun u hu => ?_
      have hu : u ∈ g.skip.tokens := hu
      rw [hts] at hu
      exact absurd hu List.not_mem_nil
    | cons u us =>
      exact .inr ⟨after, u, us, rfl, hts, (htokens ▸ horder).ahead_block hkind⟩
  · refine ⟨hstay, fun m hm => (hm t ht).1, .inr (.inr ⟨_, .inlineEntry anchor, rfl⟩), ?_⟩
    intro _ _
    have hfits := horder.fits t ht
    rw [Token.Fits, hkind] at hfits
    refine .inr ⟨hinline, hfits, fun m hm => (hm t ht).2 hkind, fun e' k hstep => ?_⟩
    exact kind_ne_of_readInlineEntry (g := g.expect (.inlineEntry :: after)) htokens hkind
      (eq_of_ofEvent? hstep)

theorem begins_of_readNode (horder : InOrder text g.tokens) {block : Bool}
    (hread : g.readNode block inline after = some (e, h)) :
    Begins text inline g.tokens after e h := by
  rcases readNode_cases hread with ⟨t, ts, id, htokens, rfl, rfl⟩ | ⟨anchor, tagged, k, hk, hread⟩
  · have ht : t ∈ g.tokens := htokens ▸ List.mem_cons_self
    exact begins_of_leaf ht rfl (skip_suffix g) rfl (.inr ⟨id, rfl⟩)
  · exact (begins_of_readContent (horder.suffix hk) hread).of_suffix hk

/-! ## Steps inside of a document -/

/-- Where `x` is expected, an event begins a node or ends a collection. -/
def Proceeds (text : List Char) (x : Expecting) (after : List Expecting) (ts : List Token)
    (e : Event) (h : Grammar) : Prop :=
  (∃ ys, Expecting.Turns (x :: after) ys ∧ Begins text x.isPart ts ys e h) ∨
    Expecting.Closes x e.kind ∧ h.stack = after ∧ h.tokens <:+ ts

theorem Proceeds.of_suffix {x : Expecting} (h' : Proceeds text x after us e h)
    (hsuffix : us <:+ ts) : Proceeds text x after ts e h := by
  rcases h' with ⟨ys, hturns, hbegins⟩ | ⟨hcloses, hstack, htokens⟩
  · exact .inl ⟨ys, hturns, hbegins.of_suffix hsuffix⟩
  · exact .inr ⟨hcloses, hstack, htokens.trans hsuffix⟩

theorem mem_of_peek? (h' : g.peek? = some t) : t ∈ g.tokens := List.mem_of_mem_head? h'

theorem begins_of_skip_readNode (horder : InOrder text g.tokens) {block : Bool}
    (hread : g.skip.readNode block inline after = some (e, h)) :
    Begins text inline g.tokens after e h :=
  (begins_of_readNode (horder.suffix (skip_suffix g)) hread).of_suffix (skip_suffix g)

section

variable (horder : InOrder text g.tokens)

include horder

theorem proceeds_of_readBlockEntry (hread : g.readBlockEntry after = some (e, h)) :
    ∃ t, g.tokens = t :: g.skip.tokens ∧ (t.kind = .blockEntry ∨ t.kind = .blockEnd) ∧
      Proceeds text .blockEntry after g.skip.tokens e h := by
  rw [readBlockEntry] at hread
  obtain ⟨t, hpeek, hread⟩ := Option.bind_eq_some_iff.mp hread
  obtain ⟨ts, htokens, rfl⟩ := exists_of_peek? hpeek
  have hstay := List.suffix_refl g.skip.tokens
  refine ⟨t, htokens, ?_⟩
  split at hread
  · next hkind =>
    obtain ⟨rfl, rfl⟩ := Prod.mk.inj (Option.some.inj hread)
    exact ⟨.inr hkind, .inr ⟨.blockEntry, rfl, hstay⟩⟩
  · next hkind =>
    refine ⟨.inl hkind, .inl ⟨_, .blockEntry after, ?_⟩⟩
    obtain ⟨item, hitem, hread⟩ := Option.bind_eq_some_iff.mp hread
    split at hread
    · obtain ⟨rfl, rfl⟩ := Prod.mk.inj (Option.some.inj hread)
      exact begins_of_emptyScalar (mem_of_peek? hitem) hstay rfl
    · exact begins_of_readNode (horder.suffix (skip_suffix g)) hread
  · exact absurd hread (by simp)

theorem proceeds_of_readInlineEntry (hread : g.readInlineEntry after = some (e, h)) :
    Proceeds text .inlineEntry after g.tokens e h := by
  rw [readInlineEntry] at hread
  obtain ⟨t, hpeek, hread⟩ := Option.bind_eq_some_iff.mp hread
  split at hread
  · refine .inl ⟨_, .inlineEntry after, ?_⟩
    obtain ⟨item, hitem, hread⟩ := Option.bind_eq_some_iff.mp hread
    split at hread
    · obtain ⟨rfl, rfl⟩ := Prod.mk.inj (Option.some.inj hread)
      exact begins_of_emptyScalar ((skip_suffix g).subset (mem_of_peek? hitem)) (skip_suffix g) rfl
    · exact begins_of_skip_readNode horder hread
  · obtain ⟨rfl, rfl⟩ := Prod.mk.inj (Option.some.inj hread)
    exact .inr ⟨.inlineEntry, rfl, List.suffix_refl g.tokens⟩

theorem proceeds_of_readBlockKey (hread : g.readBlockKey after = some (e, h)) :
    Proceeds text .blockKey after g.tokens e h := by
  rw [readBlockKey] at hread
  obtain ⟨t, hpeek, hread⟩ := Option.bind_eq_some_iff.mp hread
  split at hread
  · refine .inl ⟨_, .blockKey after, ?_⟩
    obtain ⟨key, hkey, hread⟩ := Option.bind_eq_some_iff.mp hread
    split at hread
    · obtain ⟨rfl, rfl⟩ := Prod.mk.inj (Option.some.inj hread)
      exact begins_of_emptyScalar ((skip_suffix g).subset (mem_of_peek? hkey)) (skip_suffix g) rfl
    · exact begins_of_skip_readNode horder hread
  · obtain ⟨rfl, rfl⟩ := Prod.mk.inj (Option.some.inj hread)
    exact .inl ⟨_, .blockKey after,
      begins_of_emptyScalar (mem_of_peek? hpeek) (List.suffix_refl g.tokens) rfl⟩
  · obtain ⟨rfl, rfl⟩ := Prod.mk.inj (Option.some.inj hread)
    exact .inr ⟨.blockKey, rfl, skip_suffix g⟩
  · exact absurd hread (by simp)

theorem proceeds_of_readBlockValue (hread : g.readBlockValue after = some (e, h)) :
    Proceeds text .blockValue after g.tokens e h := by
  rw [readBlockValue] at hread
  obtain ⟨t, hpeek, hread⟩ := Option.bind_eq_some_iff.mp hread
  refine .inl ⟨_, .blockValue after, ?_⟩
  split at hread
  · obtain ⟨value, hvalue, hread⟩ := Option.bind_eq_some_iff.mp hread
    split at hread
    · obtain ⟨rfl, rfl⟩ := Prod.mk.inj (Option.some.inj hread)
      exact begins_of_emptyScalar ((skip_suffix g).subset (mem_of_peek? hvalue)) (skip_suffix g) rfl
    · exact begins_of_skip_readNode horder hread
  · obtain ⟨rfl, rfl⟩ := Prod.mk.inj (Option.some.inj hread)
    exact begins_of_emptyScalar (mem_of_peek? hpeek) (List.suffix_refl g.tokens) rfl

omit horder in
theorem suffix_of_skipComma {first : Bool} {closing : TokenKind}
    (hskip : g.skipComma first closing = some h) : h.tokens <:+ g.tokens := by
  rw [skipComma] at hskip
  obtain ⟨t, -, hskip⟩ := Option.bind_eq_some_iff.mp hskip
  split at hskip
  · obtain rfl := Option.some.inj hskip
    exact List.suffix_refl g.tokens
  · split at hskip
    · obtain rfl := Option.some.inj hskip
      exact skip_suffix g
    · exact absurd hskip (by simp)

theorem proceeds_of_readFlowEntry {first : Bool}
    (hread : g.readFlowEntry first after = some (e, h)) :
    Proceeds text (.flowEntry first) after g.tokens e h := by
  rw [readFlowEntry] at hread
  obtain ⟨k, hcomma, hread⟩ := Option.bind_eq_some_iff.mp hread
  have hk := suffix_of_skipComma hcomma
  refine Proceeds.of_suffix ?_ hk
  obtain ⟨t, hpeek, hread⟩ := Option.bind_eq_some_iff.mp hread
  split at hread
  · obtain ⟨rfl, rfl⟩ := Prod.mk.inj (Option.some.inj hread)
    exact .inr ⟨.flowEntry first, rfl, skip_suffix k⟩
  · obtain ⟨rfl, rfl⟩ := Prod.mk.inj (Option.some.inj hread)
    exact .inl ⟨_, .flowEntry first after,
      begins_of_mapping (mem_of_peek? hpeek) (.pairKey none) (skip_suffix k) rfl⟩
  · exact .inl ⟨_, .flowEntry first after, begins_of_readNode (horder.suffix hk) hread⟩

theorem proceeds_of_readFlowKey {first : Bool} (hread : g.readFlowKey first after = some (e, h)) :
    Proceeds text (.flowKey first) after g.tokens e h := by
  rw [readFlowKey] at hread
  obtain ⟨k, hcomma, hread⟩ := Option.bind_eq_some_iff.mp hread
  have hk := suffix_of_skipComma hcomma
  refine Proceeds.of_suffix ?_ hk
  obtain ⟨t, hpeek, hread⟩ := Option.bind_eq_some_iff.mp hread
  split at hread
  · obtain ⟨rfl, rfl⟩ := Prod.mk.inj (Option.some.inj hread)
    exact .inr ⟨.flowKey first, rfl, skip_suffix k⟩
  · refine .inl ⟨_, .flowKey first after, ?_⟩
    obtain ⟨key, hkey, hread⟩ := Option.bind_eq_some_iff.mp hread
    split at hread
    · obtain ⟨rfl, rfl⟩ := Prod.mk.inj (Option.some.inj hread)
      exact begins_of_emptyScalar ((skip_suffix k).subset (mem_of_peek? hkey)) (skip_suffix k) rfl
    · exact (begins_of_skip_readNode (horder.suffix hk) hread).to_inline
  · obtain ⟨rfl, rfl⟩ := Prod.mk.inj (Option.some.inj hread)
    exact .inl ⟨_, .flowKey first after,
      begins_of_emptyScalar (mem_of_peek? hpeek) (List.suffix_refl k.tokens) rfl⟩
  · exact .inl ⟨_, .loneKey first after, (begins_of_readNode (horder.suffix hk) hread).to_inline⟩

theorem proceeds_of_readFlowValue (hread : g.readFlowValue after = some (e, h)) :
    Proceeds text .flowValue after g.tokens e h := by
  rw [readFlowValue] at hread
  obtain ⟨t, hpeek, hread⟩ := Option.bind_eq_some_iff.mp hread
  refine .inl ⟨_, .flowValue after, ?_⟩
  split at hread
  · obtain ⟨value, -, hread⟩ := Option.bind_eq_some_iff.mp hread
    split at hread
    · obtain ⟨rfl, rfl⟩ := Prod.mk.inj (Option.some.inj hread)
      exact begins_of_emptyScalar (mem_of_peek? hpeek) (skip_suffix g) rfl
    · exact (begins_of_skip_readNode horder hread).to_inline
  · obtain ⟨rfl, rfl⟩ := Prod.mk.inj (Option.some.inj hread)
    exact begins_of_emptyScalar (mem_of_peek? hpeek) (List.suffix_refl g.tokens) rfl

theorem proceeds_of_readPairKey (hread : g.readPairKey after = some (e, h)) :
    Proceeds text .pairKey after g.tokens e h := by
  rw [readPairKey] at hread
  obtain ⟨t, hpeek, hread⟩ := Option.bind_eq_some_iff.mp hread
  refine .inl ⟨_, .pairKey after, ?_⟩
  split at hread
  · obtain ⟨rfl, rfl⟩ := Prod.mk.inj (Option.some.inj hread)
    exact begins_of_emptyScalar (mem_of_peek? hpeek) (skip_suffix g) rfl
  · exact (begins_of_readNode horder hread).to_inline

theorem proceeds_of_readPairValue (hread : g.readPairValue after = some (e, h)) :
    Proceeds text .pairValue after g.tokens e h := by
  rw [readPairValue] at hread
  obtain ⟨t, hpeek, hread⟩ := Option.bind_eq_some_iff.mp hread
  split at hread
  · obtain ⟨value, hvalue, hread⟩ := Option.bind_eq_some_iff.mp hread
    refine .inl ⟨_, .pairValue value.mark after, ?_⟩
    split at hread
    · obtain ⟨rfl, rfl⟩ := Prod.mk.inj (Option.some.inj hread)
      exact begins_of_emptyScalar ((skip_suffix g).subset (mem_of_peek? hvalue)) (skip_suffix g) rfl
    · exact (begins_of_skip_readNode horder hread).to_inline
  · obtain ⟨rfl, rfl⟩ := Prod.mk.inj (Option.some.inj hread)
    exact .inl ⟨_, .pairValue t.mark after,
      begins_of_emptyScalar (mem_of_peek? hpeek) (List.suffix_refl g.tokens) rfl⟩

theorem proceeds_of_readDocumentContent (hread : g.readDocumentContent after = some (e, h)) :
    Proceeds text .content after g.tokens e h := by
  rw [readDocumentContent] at hread
  obtain ⟨t, hpeek, hread⟩ := Option.bind_eq_some_iff.mp hread
  refine .inl ⟨_, .content after, ?_⟩
  split at hread
  · obtain ⟨rfl, rfl⟩ := Prod.mk.inj (Option.some.inj hread)
    exact begins_of_emptyScalar (mem_of_peek? hpeek) (List.suffix_refl g.tokens) rfl
  · exact begins_of_readNode horder hread

/-- **What a step does inside of a document.**  It begins a node or ends a collection.  Whatever it
reads comes behind every mark that all of the text still to be read comes behind. -/
theorem step_cases {x : Expecting} (hstack : g.stack = x :: after) (hx : x.isInside = true)
    (hstep : g.step = .event e h) :
    ∃ ts, ts <:+ g.tokens ∧ (∀ m, g.Above text m → Ahead text m ts) ∧
      Proceeds text x after ts e h := by
  -- only in front of an item in a block more than one thing can be known of the next token
  have hall : x ≠ .blockEntry → Proceeds text x after g.tokens e h →
      ∃ ts, ts <:+ g.tokens ∧ (∀ m, g.Above text m → Ahead text m ts) ∧
        Proceeds text x after ts e h := by
    intro hne hproceeds
    refine ⟨g.tokens, List.suffix_refl g.tokens, fun m hm => ?_, hproceeds⟩
    rcases hm with hm | ⟨after', t, ts, hblock, -, -⟩
    · exact hm
    · exact absurd (List.cons.inj (hstack.symm.trans hblock)).1 hne
  rw [step, hstack] at hstep
  cases x with
  | document bare => exact absurd hx (by simp [Expecting.isInside])
  | documentEnd => exact absurd hx (by simp [Expecting.isInside])
  | content =>
    exact hall (by simp) (proceeds_of_readDocumentContent horder (eq_of_ofEvent? hstep))
  | node =>
    exact hall (by simp)
      (.inl ⟨_, .node after, begins_of_readNode horder (eq_of_ofEvent? hstep)⟩)
  | blockEntry =>
    obtain ⟨t, htokens, hkind, hproceeds⟩ :=
      proceeds_of_readBlockEntry horder (eq_of_ofEvent? hstep)
    refine ⟨g.skip.tokens, skip_suffix g, fun m hm => ?_, hproceeds⟩
    rcases hm with hm | ⟨-, u, us, -, hu, hbehind⟩
    · exact hm.suffix (skip_suffix g)
    · obtain ⟨rfl, rfl⟩ := List.cons.inj (htokens.symm.trans hu)
      exact (hbehind hkind).2
  | inlineEntry =>
    exact hall (by simp) (proceeds_of_readInlineEntry horder (eq_of_ofEvent? hstep))
  | blockKey => exact hall (by simp) (proceeds_of_readBlockKey horder (eq_of_ofEvent? hstep))
  | blockValue => exact hall (by simp) (proceeds_of_readBlockValue horder (eq_of_ofEvent? hstep))
  | flowEntry first =>
    exact hall (by simp) (proceeds_of_readFlowEntry horder (eq_of_ofEvent? hstep))
  | flowKey first => exact hall (by simp) (proceeds_of_readFlowKey horder (eq_of_ofEvent? hstep))
  | flowValue => exact hall (by simp) (proceeds_of_readFlowValue horder (eq_of_ofEvent? hstep))
  | missingValue =>
    dsimp only at hstep
    split at hstep
    · next t hpeek =>
      obtain ⟨rfl, rfl⟩ := Step.event.inj hstep
      exact hall (by simp) (.inl ⟨_, .missingValue after,
        begins_of_emptyScalar (mem_of_peek? hpeek) (List.suffix_refl g.tokens) rfl⟩)
    · exact absurd hstep (by simp)
  | pairKey => exact hall (by simp) (proceeds_of_readPairKey horder (eq_of_ofEvent? hstep))
  | pairValue => exact hall (by simp) (proceeds_of_readPairValue horder (eq_of_ofEvent? hstep))
  | pairEnd mark =>
    obtain ⟨rfl, rfl⟩ := Step.event.inj hstep
    exact hall (by simp) (.inr ⟨.pairEnd mark, rfl, List.suffix_refl g.tokens⟩)

end

/-! ## Steps between documents -/

theorem suffix_of_readDirectives {fuel : Nat} {versioned : Bool}
    (hread : readDirectives fuel versioned g = some h) : h.tokens <:+ g.tokens := by
  induction fuel generalizing g versioned with
  | zero => exact absurd hread (by simp [readDirectives])
  | succ fuel ih =>
    rw [readDirectives] at hread
    obtain ⟨t, -, hread⟩ := Option.bind_eq_some_iff.mp hread
    dsimp only at hread
    split at hread
    · split at hread
      · exact absurd hread (by simp)
      · exact (ih hread).trans (skip_suffix g)
    · exact (ih hread).trans (skip_suffix g)
    · obtain rfl := Option.some.inj hread
      exact List.suffix_refl g.tokens

/-- A document starts, and then its root is expected. -/
theorem step_of_document {bare : Bool} (hstack : g.stack = .document bare :: after)
    (hstep : g.step = .event e h) : e.kind = .documentStart ∧ h.tokens <:+ g.tokens ∧
      ∃ x, (x = .node ∨ x = .content) ∧ h.stack = x :: .documentEnd :: after := by
  have hends : g.skipEnds.tokens <:+ g.tokens := List.dropWhile_suffix _
  have hmarked : Step.ofEvent? (g.skipEnds.readMarkedStart after) = .event e h →
      e.kind = .documentStart ∧ h.tokens <:+ g.tokens ∧
        ∃ x, (x = .node ∨ x = .content) ∧ h.stack = x :: .documentEnd :: after := by
    intro hstep
    have hread := eq_of_ofEvent? hstep
    rw [readMarkedStart] at hread
    obtain ⟨k, hdirectives, hread⟩ := Option.bind_eq_some_iff.mp hread
    obtain ⟨t, -, hread⟩ := Option.bind_eq_some_iff.mp hread
    have hk := (suffix_of_readDirectives hdirectives).trans hends
    split at hread
    · obtain ⟨rfl, rfl⟩ := Prod.mk.inj (Option.some.inj hread)
      exact ⟨rfl, (skip_suffix k).trans hk, .content, .inr rfl, rfl⟩
    · exact absurd hread (by simp)
  rw [step, hstack] at hstep
  dsimp only [readDocument] at hstep
  split at hstep
  · exact absurd hstep (by simp)
  · split at hstep
    · exact absurd hstep (by simp)
    · exact hmarked hstep
    · exact hmarked hstep
    · exact hmarked hstep
    · split at hstep
      · obtain ⟨rfl, rfl⟩ := Step.event.inj hstep
        exact ⟨rfl, hends, .node, .inl rfl, rfl⟩
      · exact absurd hstep (by simp)

/-- A document ends, and then another one may start. -/
theorem step_of_ended (hstack : g.stack = .documentEnd :: after) (hstep : g.step = .event e h) :
    e.kind = .documentEnd ∧ h.tokens <:+ g.tokens ∧ ∃ bare, h.stack = .document bare :: after := by
  rw [step_of_documentEnd hstack] at hstep
  have hread := eq_of_ofEvent? hstep
  rw [readDocumentEnd] at hread
  obtain ⟨t, -, hread⟩ := Option.bind_eq_some_iff.mp hread
  split at hread
  · obtain ⟨rfl, rfl⟩ := Prod.mk.inj (Option.some.inj hread)
    exact ⟨rfl, skip_suffix g, true, rfl⟩
  · exact absurd hread (by simp)
  · exact absurd hread (by simp)
  · obtain ⟨rfl, rfl⟩ := Prod.mk.inj (Option.some.inj hread)
    exact ⟨rfl, List.suffix_refl g.tokens, false, rfl⟩

end Grammar
end Yaml
end LintLocator
