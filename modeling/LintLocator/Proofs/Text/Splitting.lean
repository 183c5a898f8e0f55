import LintLocator.Text.Split
import Mathlib.Data.List.Infix

/-!
# Where a text is cut

`breakOn` and `splitOn` are defined by scanning.  What the languages read here need to know of them
is where the separator *occurs*: as an infix of the text.  The two are joined in this file.

* `breakOn_eq_none_iff`, `breakOn_eq_some_iff`: a text is cut at the first occurrence.  That an
  occurrence after `p` is the first one is said by `¬ sep <:+: p ++ sep.dropLast`: an earlier one
  would have to begin in `p` and end before the last character of the separator.
* `breakOn_eq_some_iff_shortest`: the same for any separator, the empty one included.
* `splitOn_of_breakOn_none`, `splitOn_of_breakOn_some`: `splitOn` goes on behind the first cut.
* `splitOn_induction`: induction along the cuts, from which everything about pieces follows.
* `FallsInto`, `fallsInto_iff`: the pieces of a text, said by occurrences alone.
* `infix_append_cons_iff`: a character that a text does not hold keeps its occurrences apart.
* `splitOn_append_cons`: a single character is a separator wherever it stands.
-/

namespace LintLocator
namespace Text

variable {sep s t : List Char}

/-! ## Occurrences -/

/-- **A foreign character separates occurrences.**  What does not hold `c` occurs in a text with `c`
in the middle only on one side of it. -/
theorem infix_append_cons_iff {u v : List Char} {c : Char} (ht : t ≠ []) (hc : c ∉ t) :
    t <:+: u ++ c :: v ↔ t <:+: u ∨ t <:+: v := by
  constructor
  · intro h
    rcases List.infix_append_iff.mp h with h | h | ⟨t₁, t₂, rfl, h₁, h₂⟩
    · exact Or.inl h
    · rcases List.infix_cons_iff.mp h with h | h
      · obtain ⟨d, t', rfl⟩ := List.exists_cons_of_ne_nil ht
        obtain ⟨rfl, -⟩ := List.cons_prefix_cons.mp h
        exact absurd List.mem_cons_self hc
      · exact Or.inr h
    · rcases t₂ with _ | ⟨d, t₂⟩
      · rw [List.append_nil]
        exact Or.inl h₁.isInfix
      · obtain ⟨rfl, -⟩ := List.cons_prefix_cons.mp h₂
        exact absurd (List.mem_append_right _ List.mem_cons_self) hc
  · rintro (h | h)
    · exact List.infix_append_of_infix_left h
    · exact List.infix_append_of_infix_right (List.infix_cons h)

/-- A non-empty text is too long to occur in itself less its last character. -/
theorem not_infix_dropLast (hsep : sep ≠ []) : ¬ sep <:+: sep.dropLast := by
  intro h
  have hlen := h.length_le
  have hpos := List.length_pos_iff.mpr hsep
  rw [List.length_dropLast] at hlen
  omega

/-- An occurrence after `p` that is the first one stands at the start only if `p` is empty. -/
theorem eq_nil_of_prefix_of_first {p r : List Char} (hpre : sep <+: p ++ sep ++ r)
    (hfirst : ¬ sep <:+: p ++ sep.dropLast) : p = [] := by
  by_contra hp
  have hpos := List.length_pos_iff.mpr hp
  have hshort : p ++ sep.dropLast <+: p ++ sep ++ r := by
    rw [List.append_assoc, List.prefix_append_right_inj]
    exact (List.dropLast_prefix sep).trans (List.prefix_append sep r)
  have hlen : sep.length ≤ (p ++ sep.dropLast).length := by
    rw [List.length_append, List.length_dropLast]
    omega
  exact hfirst (List.prefix_of_prefix_length_le hpre hshort hlen).isInfix

/-! ## The first cut -/

/-- A text is not cut exactly when the separator does not occur in it. -/
theorem breakOn_eq_none_iff : breakOn sep s = none ↔ ¬ sep <:+: s := by
  induction s with
  | nil => simp [breakOn_nil]
  | cons c s ih =>
    rw [breakOn_cons, List.infix_cons_iff]
    by_cases hp : sep <+: c :: s
    · simp [hp]
    · simp [hp, ih]

/-- **A text is cut at the first occurrence.** -/
theorem breakOn_eq_some_iff (hsep : sep ≠ []) {p r : List Char} :
    breakOn sep s = some (p, r) ↔ s = p ++ sep ++ r ∧ ¬ sep <:+: p ++ sep.dropLast := by
  induction s generalizing p with
  | nil =>
    rw [breakOn_nil, if_neg (by simpa using hsep)]
    refine ⟨fun h => absurd h (by simp), fun ⟨h, _⟩ => ?_⟩
    exact absurd h.symm (by simp [hsep])
  | cons c s ih =>
    rw [breakOn_cons]
    by_cases hp : sep <+: c :: s
    · rw [if_pos (List.isPrefixOf_iff_prefix.mpr hp)]
      constructor
      · rintro ⟨⟩
        exact ⟨(List.prefix_iff_eq_append.mp hp).symm, not_infix_dropLast hsep⟩
      · rintro ⟨hs, hfirst⟩
        rw [hs] at hp ⊢
        obtain rfl := eq_nil_of_prefix_of_first hp hfirst
        simp
    · rw [if_neg (by simpa using hp)]
      simp only [Option.map_eq_some_iff, Prod.exists, Prod.mk.injEq]
      constructor
      · rintro ⟨q, r, hq, rfl, rfl⟩
        obtain ⟨hs, hfirst⟩ := ih.mp hq
        refine ⟨by rw [hs]; rfl, fun h => ?_⟩
        rcases List.infix_cons_iff.mp h with h | h
        · have hshort : c :: (q ++ sep.dropLast) <+: c :: s := by
            rw [hs, List.cons_prefix_cons, List.append_assoc, List.prefix_append_right_inj]
            exact ⟨rfl, (List.dropLast_prefix sep).trans (List.prefix_append sep r)⟩
          exact hp (h.trans hshort)
        · exact hfirst h
      · rintro ⟨hs, hfirst⟩
        rcases p with _ | ⟨d, q⟩
        · exact absurd (hs ▸ List.prefix_append sep r) hp
        · obtain ⟨rfl, hs⟩ := List.cons.inj hs
          exact ⟨q, r, ih.mpr ⟨by simpa using hs, fun h => hfirst (List.infix_cons h)⟩, rfl, rfl⟩

/-- What stands in front of the cut is the shortest text that the separator stands behind. -/
theorem shortest_of_breakOn {p r : List Char} (h : breakOn sep s = some (p, r)) :
    s = p ++ sep ++ r ∧ ∀ p' r', s = p' ++ sep ++ r' → p.length ≤ p'.length := by
  induction s generalizing p r with
  | nil =>
    rw [breakOn_nil] at h
    split at h
    · obtain ⟨rfl, rfl⟩ := Prod.mk.inj (Option.some.inj h)
      simp_all
    · cases h
  | cons c s ih =>
    rw [breakOn_cons] at h
    by_cases hp : sep <+: c :: s
    · rw [if_pos (List.isPrefixOf_iff_prefix.mpr hp)] at h
      obtain ⟨rfl, rfl⟩ := Prod.mk.inj (Option.some.inj h)
      exact ⟨(List.prefix_iff_eq_append.mp hp).symm, fun _ _ _ => Nat.zero_le _⟩
    · rw [if_neg (by simpa using hp)] at h
      obtain ⟨⟨q, r⟩, hq, hpair⟩ := Option.map_eq_some_iff.mp h
      obtain ⟨rfl, rfl⟩ := Prod.mk.inj hpair
      obtain ⟨hs, hmin⟩ := ih hq
      refine ⟨by rw [hs]; rfl, fun p' r' hp' => ?_⟩
      cases p' with
      | nil => exact absurd (hp' ▸ List.prefix_append sep r') hp
      | cons d p' => exact Nat.succ_le_succ (hmin p' r' (List.cons.inj hp').2)

/-- **The first cut is the shortest one.**  Here the separator may be empty. -/
theorem breakOn_eq_some_iff_shortest {p r : List Char} :
    breakOn sep s = some (p, r) ↔
      s = p ++ sep ++ r ∧ ∀ p' r', s = p' ++ sep ++ r' → p.length ≤ p'.length := by
  refine ⟨shortest_of_breakOn, fun ⟨hs, hmin⟩ => ?_⟩
  cases hcut : breakOn sep s with
  | none => exact absurd ⟨p, r, hs.symm⟩ (breakOn_eq_none_iff.mp hcut)
  | some parts =>
    obtain ⟨q, u⟩ := parts
    obtain ⟨hs', hmin'⟩ := shortest_of_breakOn hcut
    have hlength : p.length = q.length := Nat.le_antisymm (hmin q u hs') (hmin' p r hs)
    rw [hs, List.append_assoc, List.append_assoc] at hs'
    obtain ⟨rfl, hrest⟩ := List.append_inj hs' hlength
    rw [List.append_cancel_left hrest]

/-! ## All cuts -/

/-- Skipping characters is the same as not having them. -/
theorem splitFrom_eq_drop (sep : List Char) (n : Nat) (s : List Char) :
    splitFrom sep n s = splitFrom sep 0 (s.drop n) := by
  induction s generalizing n with
  | nil => simp
  | cons c s ih =>
    cases n with
    | zero => rfl
    | succ n => rw [splitFrom_succ_cons, ih, List.drop_succ_cons]

theorem splitOn_ne_nil (sep s : List Char) : splitOn sep s ≠ [] :=
  List.cons_ne_nil _ _

/-- Where the separator does not start, the first piece goes on. -/
theorem splitOn_cons_of_not_start {c : Char} (h : ¬ sep <+: c :: s) :
    splitOn sep (c :: s) = (splitOn sep s).modifyHead (c :: ·) := by
  simp [splitOn_eq, splitFrom_zero_cons, h]

/-- A text without the separator is its only piece. -/
theorem splitOn_of_breakOn_none (h : breakOn sep s = none) : splitOn sep s = [s] := by
  induction s with
  | nil => rfl
  | cons c s ih =>
    rw [breakOn_cons] at h
    by_cases hp : sep <+: c :: s
    · simp [hp] at h
    · rw [if_neg (by simpa using hp), Option.map_eq_none_iff] at h
      rw [splitOn_cons_of_not_start hp, ih h]
      rfl

/-- Behind the first cut the splitting begins anew. -/
theorem splitOn_of_breakOn_some (hsep : sep ≠ []) {p r : List Char}
    (h : breakOn sep s = some (p, r)) : splitOn sep s = p :: splitOn sep r := by
  induction s generalizing p with
  | nil => simp [breakOn_nil, hsep] at h
  | cons c s ih =>
    rw [breakOn_cons] at h
    by_cases hp : sep <+: c :: s
    · obtain ⟨d, sep, rfl⟩ := List.exists_cons_of_ne_nil hsep
      rw [if_pos (List.isPrefixOf_iff_prefix.mpr hp)] at h
      simp only [Option.some.injEq, Prod.mk.injEq, List.length_cons, List.drop_succ_cons] at h
      obtain ⟨rfl, rfl⟩ := h
      simp [splitOn_eq, splitFrom_zero_cons, hp, splitFrom_eq_drop _ sep.length s]
    · rw [if_neg (by simpa using hp)] at h
      simp only [Option.map_eq_some_iff, Prod.exists, Prod.mk.injEq] at h
      obtain ⟨q, r, hq, rfl, rfl⟩ := h
      rw [splitOn_cons_of_not_start hp, ih hq]
      rfl

/-- **Induction along the cuts.**  A text is either without the separator, and then it is the only
piece, or it has a first piece behind which the same holds again. -/
theorem splitOn_induction (hsep : sep ≠ []) {motive : List Char → List (List Char) → Prop}
    (whole : ∀ s, ¬ sep <:+: s → motive s [s])
    (cut : ∀ p r, ¬ sep <:+: p ++ sep.dropLast → motive r (splitOn sep r) →
      motive (p ++ sep ++ r) (p :: splitOn sep r)) (s : List Char) :
    motive s (splitOn sep s) := by
  cases h : breakOn sep s with
  | none =>
    rw [splitOn_of_breakOn_none h]
    exact whole s (breakOn_eq_none_iff.mp h)
  | some found =>
    obtain ⟨p, r⟩ := found
    rw [splitOn_of_breakOn_some hsep h]
    obtain ⟨hs, hfirst⟩ := (breakOn_eq_some_iff hsep).mp h
    have hshort : r.length < s.length := by
      have hpos := List.length_pos_iff.mpr hsep
      rw [hs, List.length_append, List.length_append]
      omega
    rw [hs]
    exact cut p r hfirst (splitOn_induction hsep whole cut r)
termination_by s.length

theorem splitOn_of_not_infix (h : ¬ sep <:+: s) : splitOn sep s = [s] :=
  splitOn_of_breakOn_none (breakOn_eq_none_iff.mpr h)

theorem splitOn_append_append (hsep : sep ≠ []) {p r : List Char}
    (hfirst : ¬ sep <:+: p ++ sep.dropLast) :
    splitOn sep (p ++ sep ++ r) = p :: splitOn sep r :=
  splitOn_of_breakOn_some hsep ((breakOn_eq_some_iff hsep).mpr ⟨rfl, hfirst⟩)

/-- The pieces of a text.  A text without the separator is one piece.  Otherwise the first occurrence
ends the first piece, and what stands behind it falls into the others. -/
inductive FallsInto (sep : List Char) : List Char → List (List Char) → Prop where
  | whole {s : List Char} (h : ¬ sep <:+: s) : FallsInto sep s [s]
  | cut {p r : List Char} {ps : List (List Char)} (hfirst : ¬ sep <:+: p ++ sep.dropLast)
      (hrest : FallsInto sep r ps) : FallsInto sep (p ++ sep ++ r) (p :: ps)

/-- **A text falls into pieces in one way**, and `splitOn` finds it. -/
theorem fallsInto_iff (hsep : sep ≠ []) {ps : List (List Char)} :
    FallsInto sep s ps ↔ splitOn sep s = ps := by
  constructor
  · intro h
    induction h with
    | whole h => exact splitOn_of_not_infix h
    | cut hfirst _ ih => rw [splitOn_append_append hsep hfirst, ih]
  · rintro rfl
    exact splitOn_induction hsep (motive := FallsInto sep) (fun _ => .whole)
      (fun _ _ => .cut) s

/-- The separator does not occur in a piece. -/
theorem not_infix_of_mem_splitOn (hsep : sep ≠ []) :
    ∀ s, ∀ p ∈ splitOn sep s, ¬ sep <:+: p := by
  refine splitOn_induction hsep (motive := fun _ ps => ∀ p ∈ ps, ¬ sep <:+: p)
    (fun s hs p hp => ?_) (fun p r hfirst ih q hq => ?_)
  · obtain rfl := List.mem_singleton.mp hp
    exact hs
  · rcases List.mem_cons.mp hq with rfl | hq
    · exact fun h => hfirst (List.infix_append_of_infix_left h)
    · exact ih q hq

/-- Pieces are parts of the text. -/
theorem infix_of_mem_splitOn (hsep : sep ≠ []) : ∀ s, ∀ p ∈ splitOn sep s, p <:+: s := by
  refine splitOn_induction hsep (motive := fun s ps => ∀ p ∈ ps, p <:+: s)
    (fun s _ p hp => ?_) (fun p r _ ih q hq => ?_)
  · obtain rfl := List.mem_singleton.mp hp
    exact List.infix_rfl
  · rcases List.mem_cons.mp hq with rfl | hq
    · rw [List.append_assoc]
      exact List.infix_append_left
    · exact List.infix_append_of_infix_right (ih q hq)

/-! ## Pieces of a longer text -/

/-- Characters that the separator does not hold can be put before a text; they go to the first
piece. -/
theorem splitOn_append_left (hsep : sep ≠ []) {a : List Char} (ha : ∀ c ∈ a, c ∉ sep)
    (s : List Char) : splitOn sep (a ++ s) = (splitOn sep s).modifyHead (a ++ ·) := by
  induction a with
  | nil => simp [splitOn_eq]
  | cons c a ih =>
    have hc : ¬ sep <+: c :: (a ++ s) := by
      obtain ⟨d, sep', rfl⟩ := List.exists_cons_of_ne_nil hsep
      intro h
      obtain ⟨rfl, -⟩ := List.cons_prefix_cons.mp h
      exact ha d List.mem_cons_self List.mem_cons_self
    rw [List.cons_append, splitOn_cons_of_not_start hc,
      ih fun d hd => ha d (List.mem_cons_of_mem _ hd), List.modifyHead_modifyHead]
    rfl

/-- What does not occur in a text does not occur in it with foreign characters around it either. -/
theorem infix_append_append_iff (hsep : sep ≠ []) {a b : List Char} (ha : ∀ c ∈ a, c ∉ sep)
    (hb : ∀ c ∈ b, c ∉ sep) : sep <:+: a ++ s ++ b ↔ sep <:+: s := by
  refine ⟨fun h => ?_, fun h => List.infix_append_of_infix_left
    (List.infix_append_of_infix_right h)⟩
  induction a with
  | nil =>
    rw [List.nil_append] at h
    induction b generalizing s with
    | nil => simpa using h
    | cons c b ih =>
      rcases (infix_append_cons_iff hsep (hb c List.mem_cons_self)).mp h with h | h
      · exact h
      · have hmem := List.exists_mem_of_ne_nil sep hsep
        obtain ⟨d, hd⟩ := hmem
        exact absurd hd (hb d (List.mem_cons_of_mem _ (h.mem hd)))
  | cons c a ih =>
    have h' : sep <:+: [] ++ c :: (a ++ s ++ b) := h
    rcases (infix_append_cons_iff hsep (ha c List.mem_cons_self)).mp h' with h | h
    · exact absurd (List.infix_nil.mp h) hsep
    · exact ih (fun d hd => ha d (List.mem_cons_of_mem _ hd)) h

/-! ## Single characters as separators

A separator of one character cannot begin in one piece and end in the next, so a text may be cut at
any occurrence of it. -/

theorem splitOn_of_notMem {c : Char} (h : c ∉ s) : splitOn [c] s = [s] :=
  splitOn_of_not_infix (by rwa [List.singleton_infix_iff])

theorem notMem_of_mem_splitOn {c : Char} {p : List Char} (h : p ∈ splitOn [c] s) : c ∉ p := by
  rw [← List.singleton_infix_iff]
  exact not_infix_of_mem_splitOn (by simp) s p h

/-- **Any occurrence is a cut.** -/
theorem splitOn_append_cons (c : Char) (p r : List Char) :
    splitOn [c] (p ++ c :: r) = splitOn [c] p ++ splitOn [c] r := by
  have hne : [c] ≠ [] := List.cons_ne_nil c []
  refine splitOn_induction hne
    (motive := fun p ps => splitOn [c] (p ++ c :: r) = ps ++ splitOn [c] r)
    (fun p hp => ?_) (fun p q hfirst ih => ?_) p
  · have hfirst : ¬ [c] <:+: p ++ [c].dropLast := by simpa using hp
    rw [List.append_cons, splitOn_append_append hne hfirst, List.singleton_append]
  · rw [List.append_assoc, splitOn_append_append hne hfirst, ih, List.cons_append]

theorem splitOn_eq_singleton_nil_iff {c : Char} : splitOn [c] s = [[]] ↔ s = [] := by
  refine ⟨fun h => ?_, by rintro rfl; rfl⟩
  by_cases hmem : c ∈ s
  · obtain ⟨p, r, rfl⟩ := List.append_of_mem hmem
    have hlength := congrArg List.length (splitOn_append_cons c p r ▸ h)
    have hp := List.length_pos_iff.mpr (splitOn_ne_nil [c] p)
    have hr := List.length_pos_iff.mpr (splitOn_ne_nil [c] r)
    rw [List.length_append, List.length_singleton] at hlength
    omega
  · rw [splitOn_of_notMem hmem] at h
    exact List.singleton_inj.mp h

/-! ## First and last occurrences -/

variable {α : Type}

/-- What stands before the first occurrence of something, and what stands behind it. -/
theorem append_cons_inj_left {a : α} {xs ys r u : List α} (hx : a ∉ xs) (hy : a ∉ ys) :
    xs ++ a :: r = ys ++ a :: u ↔ xs = ys ∧ r = u := by
  induction xs generalizing ys with
  | nil =>
    cases ys with
    | nil => simp
    | cons y ys => simp [List.ne_of_not_mem_cons hy]
  | cons x xs ih =>
    cases ys with
    | nil => simp [(List.ne_of_not_mem_cons hx).symm]
    | cons y ys =>
      rw [List.cons_append, List.cons_append, List.cons.injEq, List.cons.injEq, and_assoc,
        ih (List.not_mem_of_not_mem_cons hx) (List.not_mem_of_not_mem_cons hy)]

/-- What stands behind the last occurrence of something, and what stands before it. -/
theorem append_cons_inj_right {a : α} {xs ys r u : List α} (hr : a ∉ r) (hu : a ∉ u) :
    xs ++ a :: r = ys ++ a :: u ↔ xs = ys ∧ r = u := by
  have hr' : a ∉ r.reverse := by simpa using hr
  have hu' : a ∉ u.reverse := by simpa using hu
  have hrev := @append_cons_inj_left α a _ _ xs.reverse ys.reverse hr' hu'
  rw [List.reverse_inj, List.reverse_inj] at hrev
  rw [← List.reverse_inj, and_comm, ← hrev]
  simp

theorem exists_last_of_mem {a : α} {xs : List α} (h : a ∈ xs) :
    ∃ p r, xs = p ++ a :: r ∧ a ∉ r := by
  obtain ⟨r, p, hxs, hr⟩ := List.eq_append_cons_of_mem (List.mem_reverse.mpr h)
  refine ⟨p.reverse, r.reverse, ?_, by simpa using hr⟩
  rw [← List.reverse_reverse xs, hxs]
  simp

end Text
end LintLocator
