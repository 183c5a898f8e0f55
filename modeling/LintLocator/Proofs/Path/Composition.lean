import LintLocator.Proofs.Path.Nesting
import LintLocator.Proofs.Path.Spelling

/-!
# Putting paths together

A run does not get whole paths from the linters.  It gets fragments of them, and makes a path of a
fragment by writing a root mark and a dot in front of it.  So it matters that texts can be put
together like this: what is written behind an expression does not change how the expression is read,
and following the longer path is following the shorter one and then going on.

* `Selector.applyAll_append`, `Path.lookup_andThen`: going on from where a path leads;
* `Path.read_append_steps`: steps may be written behind any expression;
* `Path.read_append`: expressions are put together as texts;
* `Path.exists_dotted_and_bracketed`: an index behind a dot leads where it leads in brackets.
-/

namespace LintLocator

/-! ## Following one path behind another -/

/-- The same error of a step that has `n` more steps before it. -/
def LookupError.later (n : Nat) (e : LookupError) : LookupError := { e with step := e.step + n }

namespace Selector

/-- Steps behind other steps go on where those lead. -/
theorem applyAll_append (ss us : List Selector) (step : Nat) (t : Tree) :
    applyAll (ss ++ us) step t =
      match applyAll ss step t with
      | .error e => .error e
      | .ok u => applyAll us (step + ss.length) u := by
  induction ss generalizing step t with
  | nil => rfl
  | cons s ss ih =>
    rw [List.cons_append, applyAll_cons, applyAll_cons]
    cases s.apply t with
    | error cause => rfl
    | ok u =>
      simp only [ih, List.length_cons, Nat.add_assoc, Nat.add_comm 1]

/-- The number of the first step is only passed on to errors. -/
theorem applyAll_add (ss : List Selector) (step n : Nat) (t : Tree) :
    applyAll ss (step + n) t = (applyAll ss step t).mapError (LookupError.later n) := by
  induction ss generalizing step t with
  | nil => rfl
  | cons s ss ih =>
    rw [applyAll_cons, applyAll_cons]
    cases s.apply t with
    | error cause => rfl
    | ok u =>
      simp only [Nat.add_right_comm step n 1, ih]

/-- No step before the first one is at fault. -/
theorem le_step_of_applyAll {ss : List Selector} {step : Nat} {t : Tree} {e : LookupError}
    (h : applyAll ss step t = .error e) : step ≤ e.step := by
  rw [← Nat.zero_add step, applyAll_add] at h
  cases hfirst : applyAll ss 0 t with
  | error d =>
    rw [hfirst] at h
    obtain rfl := Except.error.inj h
    exact Nat.le_add_left step d.step
  | ok u =>
    rw [hfirst] at h
    cases (h : Except.ok u = Except.error e)

end Selector

namespace Path

open Selector (Spelling)

/-- The path that goes on with the steps of `q` where `p` leads. -/
def andThen (p q : Path) : Path := ⟨p.root, p.selectors ++ q.selectors⟩

/-- Following a path that goes on is following its first part and then the other one.  An error of
the second part counts the steps of the first. -/
theorem lookup_andThen (p q : Path) (t : Tree) :
    (p.andThen q).lookup t =
      match p.lookup t with
      | .error e => .error e
      | .ok u => (q.lookup u).mapError (LookupError.later p.selectors.length) := by
  rw [lookup_eq, lookup_eq, andThen, Selector.applyAll_append]
  cases Selector.applyAll p.selectors 0 t with
  | error e => rfl
  | ok u =>
    simp only [Selector.applyAll_add, lookup_eq]

/-! ## Writing one expression behind another -/

variable {e s : String} {p q : Path}

/-- Steps may be written behind any expression. -/
theorem read_append_steps {τs : List Spelling} {steps : List Selector} (he : read e = .ok p)
    (hτs : List.Forall₂ Spelling.Stands τs steps) (hs : s.toList = τs.flatMap Spelling.text) :
    read (e ++ s) = .ok ⟨p.root, p.selectors ++ steps⟩ := by
  obtain ⟨σs, htext, hsteps, name, more, rfl⟩ := read_eq_ok_iff_exists.mp he
  refine read_eq_ok_iff_exists.mpr
    ⟨_, ?_, List.rel_append hsteps hτs, name, more ++ τs, rfl⟩
  rw [String.toList_append, htext, hs, List.flatMap_append, List.cons_append]

/-- **Paths are put together as texts.**  Where `s` can be read behind a root mark, it can be read
behind any expression, and the path that is read goes on with the steps of `s`. -/
theorem read_append (he : read e = .ok p) (hs : read ("$" ++ s) = .ok q) :
    s.toList.head? = some '.' ∧ read (e ++ s) = .ok ⟨p.root, p.selectors ++ q.selectors⟩ ∧
      ∀ t, (⟨p.root, p.selectors ++ q.selectors⟩ : Path).lookup t =
        match p.lookup t with
        | .error err => .error err
        | .ok u => (q.lookup u).mapError fun err =>
            { err with step := err.step + p.selectors.length } := by
  obtain ⟨τs, htext, hτs, hfirst⟩ := read_eq_ok_iff_exists.mp hs
  have hbehind : s.toList = τs.flatMap Spelling.text := by
    rw [String.toList_append] at htext
    exact (List.cons.inj htext).2
  refine ⟨?_, read_append_steps he hτs hbehind, p.lookup_andThen q⟩
  rw [hbehind]
  exact head?_flatMap_text.mpr hfirst

/-- A name behind a predicate that is written with a star.  The second part fails at its second
step, which is the fourth step of the whole. -/
theorem read_append_of_star :
    ∃ p q : Path, read "$.l[*]?(@.n == 'x.[')" = .ok p ∧ read ("$" ++ ".m.007") = .ok q ∧
      read ("$.l[*]?(@.n == 'x.[')" ++ ".m.007") = .ok ⟨p.root, p.selectors ++ q.selectors⟩ ∧
      (⟨p.root, p.selectors ++ q.selectors⟩ : Path).lookup
        (.mapping [(.scalar "l" ⟨1, 1⟩, .sequence [.mapping
          [(.scalar "n" ⟨1, 6⟩, .scalar "x.[" ⟨1, 9⟩),
            (.scalar "m" ⟨2, 6⟩, .sequence [] ⟨2, 9⟩)] ⟨1, 6⟩] ⟨1, 4⟩)] ⟨1, 1⟩) =
        .error ⟨3, ".007", ⟨2, 9⟩, .indexOutOfRange 7 0⟩ := by
  have hp : read "$.l[*]?(@.n == 'x.[')" = .ok ⟨.absolute, [.property "l",
      .predicate (.equals ⟨.current, [.property "n"]⟩ "x.[" "@.n == 'x.['")]⟩ := rfl
  have hq : read ("$" ++ ".m.007") = .ok ⟨.absolute, [.property "m", .property "007"]⟩ := rfl
  obtain ⟨-, hread, hlookup⟩ := read_append hp hq
  refine ⟨_, _, hp, hq, hread, ?_⟩
  rw [hlookup]
  rfl

/-! ## An index behind a dot and in brackets -/

/-- Two outcomes are the same, except that the step with the number `n`, where it is at fault, is
written as `a` in one of them and as `b` in the other. -/
inductive SameBut (n : Nat) (a b : String) :
    Except LookupError Tree → Except LookupError Tree → Prop where
  | reached (t : Tree) : SameBut n a b (.ok t) (.ok t)
  | failedThere (position : Position) (cause : LookupError.Cause) :
      SameBut n a b (.error ⟨n, a, position, cause⟩) (.error ⟨n, b, position, cause⟩)
  | failedElsewhere (err : LookupError) (h : err.step ≠ n) :
      SameBut n a b (.error err) (.error err)

/-- What can be written behind a name is the text of steps, if it begins with a character that ends
a name. -/
theorem exists_steps_behind_name (hends : ∀ c ∈ s.toList.head?, c = '.' ∨ c = '[')
    (hs : read ("$.x" ++ s) = .ok q) :
    ∃ τs steps, List.Forall₂ Spelling.Stands τs steps ∧ s.toList = τs.flatMap Spelling.text := by
  obtain ⟨σs, htext, hsteps, name, τs, rfl⟩ := read_eq_ok_iff_exists.mp hs
  obtain ⟨step, steps, hname, hτs, -⟩ := List.forall₂_cons_left_iff.mp hsteps
  obtain ⟨hne, hdot, hbracket, -⟩ := hname
  refine ⟨τs, steps, hτs, ?_⟩
  have hbehind : 'x' :: s.toList = name ++ τs.flatMap Spelling.text := by
    rw [String.toList_append] at htext
    exact (List.cons.inj (List.cons.inj htext).2).2
  -- the name ends where `s` begins, for it can neither end earlier nor go on
  cases name with
  | nil => exact absurd rfl hne
  | cons c name =>
    obtain ⟨-, hrest⟩ := List.cons.inj hbehind
    cases name with
    | nil => exact hrest
    | cons c' name =>
      have hmem : c' ∈ c :: c' :: name := by simp
      rcases hends c' (by rw [hrest]; rfl) with rfl | rfl
      · exact absurd hmem hdot
      · exact absurd hmem hbracket

/-- Digits of an index can stand behind a dot as well. -/
theorem stands_of_digits {d : String} (hd : d ≠ "") (hdigits : ∀ c ∈ d.toList, '0' ≤ c ∧ c ≤ '9') :
    (Spelling.property d.toList).Stands (.property d) := by
  have hno : ∀ c ∈ d.toList, c ≠ '.' ∧ c ≠ '[' ∧ c ≠ '-' ∧ c ≠ '+' := by
    intro c hc
    refine ⟨?_, ?_, ?_, ?_⟩ <;> rintro rfl <;> exact absurd (hdigits _ hc) (by decide)
  have hhead : ∀ c, d.toList.head? = some c → c ∈ d.toList := fun c => List.mem_of_head?
  refine ⟨?_, fun hmem => (hno _ hmem).1 rfl, fun hmem => (hno _ hmem).2.1 rfl,
    fun h => (hno _ (hhead _ h)).2.2.1 rfl, fun h => (hno _ (hhead _ h)).2.2.2 rfl, ?_⟩
  · rwa [Ne, String.toList_eq_nil_iff]
  · rw [String.ofList_toList]

/-- On a sequence the two ways to write an index choose the same item. -/
theorem apply_property_of_index? {d : String} {place : Nat} {u : Tree}
    (h : Decimal.index? d.toList = some place) (hu : u.kind = .sequence) :
    (Selector.property d).apply u = (Selector.index place).apply u := by
  cases u with
  | scalar => cases hu
  | mapping => cases hu
  | sequence items pos =>
    simp only [Selector.apply_property, Selector.apply_index, Selector.child, Selector.itemsOf, h]

/-- **An index behind a dot leads where it leads in brackets.**  Where an expression leads to a
sequence, both ways to write an index behind it can be read, whatever is written behind them, and
what comes of them is the same.  Only an error of that very step shows how it was written. -/
theorem exists_dotted_and_bracketed {d : String} (he : read e = .ok p) (hd : d ≠ "")
    (hdigits : ∀ c ∈ d.toList, '0' ≤ c ∧ c ≤ '9')
    (hvalue : Decimal.value d.toList ≤ 2 ^ 64 - 1)
    (hends : ∀ c ∈ s.toList.head?, c = '.' ∨ c = '[') (hs : read ("$.x" ++ s) = .ok q) :
    ∃ dotted bracketed, read (e ++ "." ++ d ++ s) = .ok dotted ∧
      read (e ++ "[" ++ d ++ "]" ++ s) = .ok bracketed ∧
      ∀ t u, p.lookup t = .ok u → u.kind = .sequence →
        SameBut p.selectors.length ("." ++ d) ("[" ++ toString (Decimal.value d.toList) ++ "]")
          (dotted.lookup t) (bracketed.lookup t) := by
  obtain ⟨τs, steps, hτs, hbehind⟩ := exists_steps_behind_name hends hs
  have hne : d.toList ≠ [] := by rwa [Ne, String.toList_eq_nil_iff]
  have hstands : (Spelling.index d.toList).Stands (.index (Decimal.value d.toList)) :=
    ⟨hne, hdigits, hvalue, rfl⟩
  have hdotted : read (e ++ ("." ++ d ++ s)) = .ok _ :=
    read_append_steps he (.cons (stands_of_digits hd hdigits) hτs)
      (by simp [Spelling.text, hbehind])
  have hbracketed : read (e ++ ("[" ++ d ++ "]" ++ s)) = .ok _ :=
    read_append_steps he (.cons hstands hτs) (by simp [Spelling.text, hbehind])
  simp only [← String.append_assoc] at hdotted hbracketed
  refine ⟨_, _, hdotted, hbracketed, fun t u hu hkind => ?_⟩
  have hindex : Decimal.index? d.toList = some (Decimal.value d.toList) :=
    Spelling.index?_eq_some_iff.mpr ⟨hne, hdigits, hvalue, rfl⟩
  have hlead : Selector.applyAll p.selectors 0 t = .ok u := by rwa [← lookup_eq]
  rw [lookup_eq, lookup_eq, Selector.applyAll_append, Selector.applyAll_append, hlead]
  simp only [Nat.zero_add, Selector.applyAll, apply_property_of_index? hindex hkind]
  -- the step itself fails, or the outcome is that of the same steps behind it
  cases (Selector.index (Decimal.value d.toList)).apply u with
  | error cause => exact .failedThere u.pos cause
  | ok v =>
    show SameBut _ _ _ (Selector.applyAll steps (p.selectors.length + 1) v) (Selector.applyAll _ _ v)
    cases hrest : Selector.applyAll steps (p.selectors.length + 1) v with
    | ok w => exact .reached w
    | error err => exact .failedElsewhere err (Nat.ne_of_gt (Selector.le_step_of_applyAll hrest))

/-- Behind a predicate, with leading zeros and with more steps to come: the list has no such item. -/
theorem exists_dotted_and_bracketed_of_short :
    ∃ dotted bracketed, read ("$.l[?(@.n == 'x')].m" ++ "." ++ "007" ++ "[0].y") = .ok dotted ∧
      read ("$.l[?(@.n == 'x')].m" ++ "[" ++ "007" ++ "]" ++ "[0].y") = .ok bracketed ∧
      ∃ t, SameBut 3 ("." ++ "007") "[7]" (dotted.lookup t) (bracketed.lookup t) ∧
        dotted.lookup t = .error ⟨3, ".007", ⟨2, 9⟩, .indexOutOfRange 7 0⟩ := by
  let t : Tree := .mapping [(.scalar "l" ⟨1, 1⟩, .sequence [.mapping
    [(.scalar "n" ⟨1, 6⟩, .scalar "x" ⟨1, 9⟩),
      (.scalar "m" ⟨2, 6⟩, .sequence [] ⟨2, 9⟩)] ⟨1, 6⟩] ⟨1, 4⟩)] ⟨1, 1⟩
  let list : List Selector := [.property "l",
    .predicate (.equals ⟨.current, [.property "n"]⟩ "x" "@.n == 'x'"), .property "m"]
  have hp : read "$.l[?(@.n == 'x')].m" = .ok ⟨.absolute, list⟩ := rfl
  have hq : read ("$.x" ++ "[0].y") = .ok ⟨.absolute, [.property "x", .index 0, .property "y"]⟩ :=
    rfl
  have hread : read ("$.l[?(@.n == 'x')].m" ++ "." ++ "007" ++ "[0].y") =
      .ok ⟨.absolute, list ++ [.property "007", .index 0, .property "y"]⟩ := rfl
  have hlist : (⟨.absolute, list⟩ : Path).lookup t = .ok (.sequence [] ⟨2, 9⟩) := rfl
  have hindex : "[" ++ toString (Decimal.value "007".toList) ++ "]" = "[7]" := by decide +kernel
  obtain ⟨dotted, bracketed, hdotted, hbracketed, hsame⟩ := exists_dotted_and_bracketed
    (d := "007") (s := "[0].y") hp (by decide) (by simp) (by decide) (by simp) hq
  obtain rfl := Except.ok.inj (hread.symm.trans hdotted)
  refine ⟨_, bracketed, hread, hbracketed, t, ?_, rfl⟩
  rw [← hindex]
  exact hsame t _ hlist rfl

end Path
end LintLocator
