import LintLocator.Proofs.Glob.Ways

/-!
# Where a folder lives does not matter

What a pattern leads to in a folder depends on what is in the folder, and on nothing around it, as long
as the search does not leave the folder to look around there.  A search goes up at `..` and at wildcards
that begin with a dot and match `..`.  So the moves are followed with the depth below the folder that
they keep at least.  From the folder itself a search may go up too, if all that comes behind stays
there: that there is a folder around is the same everywhere, only what is in it is not.

* `Glob.Confined`: the moves do not look around outside of the folder;
* `Glob.outcomes_eq_of_agree`: two searches go along the same ways in places that agree;
* `Glob.exists_lookup_of_expand`: the names lead from the folder to what was found;
* `Glob.expand_of_confined`: what is found does not depend on where the folder lives.
-/

namespace LintLocator
namespace Glob

open FileTree (pathParts joinPath follow routes IsName)

/-! ## Moves that stay in a folder -/

/-- The move may go up. -/
def Move.rises : Move → Bool
  | .name tokens => (dots tokens).contains ".."
  | _ => false

/-- The move may stay where it is. -/
def Move.stays : Move → Bool
  | .name tokens => tokens.isEmpty || (dots tokens).contains "."
  | _ => false

/-- The move can only stay where it is. -/
def Move.isIdle : Move → Bool
  | .name tokens => tokens == [] || tokens == [.char '.']
  | _ => false

/-- The depth that is kept at least by a move from `depth`, if it does not leave the folder. -/
def Move.depthAfter? (depth : Nat) (m : Move) : Option Nat :=
  if m.rises then if depth = 0 then none else some (depth - 1)
  else if m.stays then some depth else some (depth + 1)

/-- Moves from `depth` folders below a folder do not look around outside of it. -/
def Confined : (depth : Nat) → List Move → Bool
  | _, [] => true
  | depth, m :: ms =>
    match m.depthAfter? depth with
    | none => ms.all Move.isIdle
    | some d => Confined d ms

/-- **Moves that cannot go up** stay in the folder. -/
theorem confined_of_not_rises {ms : List Move} (h : ∀ m ∈ ms, m.rises = false) (depth : Nat) :
    Confined depth ms = true := by
  induction ms generalizing depth with
  | nil => rfl
  | cons m ms ih =>
    obtain ⟨hm, hms⟩ := List.forall_mem_cons.mp h
    cases hstays : m.stays <;> simp [Confined, Move.depthAfter?, hm, hstays, ih hms]

/-! ## Places that agree -/

/-- Two places in well-formed trees that are the same for `depth` folders up. -/
structure Agree (depth : Nat) (p q : Place) : Prop where
  here : p.here = q.here
  above : ∃ inner outer outer', depth ≤ inner.length ∧
    p.above = inner ++ outer ∧ q.above = inner ++ outer'
  left : p.WellFormed
  right : q.WellFormed

variable {depth : Nat} {p q : Place} {s : String} {r : List String} {m : Move} {ms : List Move}

theorem Agree.isFolder_eq (h : Agree depth p q) : p.isFolder = q.isFolder := by
  rw [Place.isFolder, Place.isFolder, h.here]

theorem Agree.mono {depth' : Nat} (h : Agree depth p q) (hle : depth' ≤ depth) :
    Agree depth' p q := by
  obtain ⟨inner, outer, outer', hlength, habove⟩ := h.above
  exact ⟨h.here, ⟨inner, outer, outer', hle.trans hlength, habove⟩, h.left, h.right⟩

/-- From places that agree, steps in a folder lead to places that agree. -/
theorem rel_of_steps {R : Place → Place → Prop} (h : Agree depth p q)
    (hfolder : p.isFolder = true → Option.Rel R (p.step? s) (q.step? s)) :
    Option.Rel R (p.step? s) (q.step? s) := by
  cases hp : p.isFolder with
  | true => exact hfolder hp
  | false =>
    rw [Place.step?_of_file hp, Place.step?_of_file (h.isFolder_eq ▸ hp)]
    exact .none

/-- What two places lead to by the same step stays well-formed. -/
theorem rel_agree {depth' : Nat} {p' q' : Place} (h : Agree depth p q) (hp : p.step? s = some p')
    (hq : q.step? s = some q') (hhere : p'.here = q'.here)
    (habove : ∃ inner outer outer', depth' ≤ inner.length ∧
      p'.above = inner ++ outer ∧ q'.above = inner ++ outer') :
    Option.Rel (Agree depth') (p.step? s) (q.step? s) := by
  rw [hp, hq]
  exact .some ⟨hhere, habove, h.left.step? hp, h.right.step? hq⟩

theorem Agree.step?_idle (h : Agree depth p q) (hs : s = "" ∨ s = ".") :
    Option.Rel (Agree depth) (p.step? s) (q.step? s) :=
  rel_of_steps h fun hp =>
    rel_agree h (Place.step?_of_idle hp hs) (Place.step?_of_idle (h.isFolder_eq ▸ hp) hs) h.here h.above

/-- A name leads one folder further down. -/
theorem Agree.step?_of_isName (h : Agree depth p q) (hs : IsName s) :
    Option.Rel (Agree (depth + 1)) (p.step? s) (q.step? s) := by
  have hp := Place.step?_of_isName (p := p) hs
  have hq := Place.step?_of_isName (p := q) hs
  cases hchild : p.here.child? s with
  | none =>
    rw [hp, hq, ← h.here, hchild]
    exact .none
  | some t =>
    rw [hchild, Option.map_some] at hp
    rw [← h.here, hchild, Option.map_some] at hq
    obtain ⟨inner, outer, outer', hlength, habove, habove'⟩ := h.above
    exact rel_agree h hp hq rfl ⟨p.here :: inner, outer, outer', Nat.succ_le_succ hlength,
      by rw [habove, List.cons_append], by rw [habove', List.cons_append]⟩

/-- Going up costs one folder of what agrees. -/
theorem Agree.step?_up (h : Agree (depth + 1) p q) :
    Option.Rel (Agree depth) (p.step? "..") (q.step? "..") := by
  refine rel_of_steps h fun hp => ?_
  have hq : q.isFolder = true := h.isFolder_eq ▸ hp
  obtain ⟨inner, outer, outer', hlength, habove, habove'⟩ := h.above
  obtain ⟨up, inner, rfl⟩ := List.exists_cons_of_length_pos (Nat.lt_of_lt_of_le depth.succ_pos hlength)
  refine rel_agree h (Place.step?_up hp) (Place.step?_up hq) ?_
    ⟨inner, outer, outer', Nat.le_of_succ_le_succ hlength, ?_, ?_⟩
  · simp [habove, habove']
  · simp [habove]
  · simp [habove']

/-- What is common to two places behind a move: they agree, or all that is known is that both are
folders or none is. -/
def Meet : Option Nat → Place → Place → Prop
  | some depth, p, q => Agree depth p q
  | none, p, q => p.isFolder = q.isFolder

theorem Agree.meet {depth' : Nat} {least : Option Nat} (h : Agree depth' p q)
    (hle : ∀ d ∈ least, d ≤ depth') : Meet least p q := by
  cases least with
  | none => exact h.isFolder_eq
  | some d => exact h.mono (hle d rfl)

theorem rel_imp {R S : Place → Place → Prop} {a b : Option Place} (h : Option.Rel R a b)
    (himp : ∀ p q, R p q → S p q) : Option.Rel S a b := by
  cases h with
  | some h => exact .some (himp _ _ h)
  | none => exact .none

theorem Agree.walk?_of_isName (h : Agree depth p q) (hr : ∀ s ∈ r, IsName s) :
    Option.Rel (Agree (depth + r.length)) (Place.walk? r p) (Place.walk? r q) := by
  induction r generalizing depth p q with
  | nil => exact .some h
  | cons s r ih =>
    obtain ⟨hs, hr⟩ := List.forall_mem_cons.mp hr
    have hstep := h.step?_of_isName hs
    rw [Place.walk?_cons, Place.walk?_cons]
    generalize p.step? s = p', q.step? s = q' at hstep
    cases hstep with
    | none => exact .none
    | some hnext =>
      rw [List.length_cons, Nat.add_comm r.length 1, ← Nat.add_assoc]
      exact ih hnext hr

/-! ## Moves from places that agree -/

theorem eq_map_of_literal? {tokens : List Token} {text : List Char} (h : literal? tokens = some text) :
    tokens = text.map .char := by
  induction tokens generalizing text with
  | nil =>
    obtain rfl := Option.some.inj h
    rfl
  | cons token tokens ih =>
    cases token with
    | char c =>
      obtain ⟨text', htext, rfl⟩ := Option.map_eq_some_iff.mp h
      rw [List.map_cons, ← ih htext]
    | _ => cases h

/-- The steps that are tried are the text of the part, special entries or names. -/
theorem cases_of_mem_stepNames {tokens : List Token} {t : FileTree} (ht : t.WellFormed)
    (hs : s ∈ stepNames tokens t) : tokens = s.toList.map .char ∨ s ∈ dots tokens ∨ IsName s := by
  rw [stepNames] at hs
  cases hliteral : literal? tokens with
  | some text =>
    rw [hliteral] at hs
    rw [List.mem_singleton.mp hs, String.toList_ofList]
    exact .inl (eq_map_of_literal? hliteral)
  | none =>
    rw [hliteral] at hs
    rcases List.mem_append.mp hs with hs | hs
    · exact .inr (.inl hs)
    · obtain ⟨e, he, rfl⟩ := List.mem_map.mp (List.mem_of_mem_filter hs)
      exact .inr (.inr (ht.named e he).toIsName)

theorem rises_of_mem_stepNames {tokens : List Token} {t : FileTree} (ht : t.WellFormed)
    (hs : ".." ∈ stepNames tokens t) : (Move.name tokens).rises = true := by
  rcases cases_of_mem_stepNames ht hs with rfl | hdots | hname
  · decide
  · simpa [Move.rises] using hdots
  · exact absurd rfl hname.ne_up

theorem stays_of_mem_stepNames {tokens : List Token} {t : FileTree} (ht : t.WellFormed)
    (hs : s ∈ stepNames tokens t) (hidle : s = "" ∨ s = ".") : (Move.name tokens).stays = true := by
  rcases cases_of_mem_stepNames ht hs with rfl | hdots | hname
  · rcases hidle with rfl | rfl <;> decide
  · rcases hidle with rfl | rfl
    · rcases mem_dots hdots with h | h <;> exact absurd h (by decide)
    · simp [Move.stays, hdots]
  · rcases hidle with rfl | rfl
    · exact absurd rfl hname.ne_empty
    · exact absurd rfl hname.ne_dot

theorem depthAfter?_le (m : Move) (depth : Nat) : ∀ d ∈ m.depthAfter? depth, d ≤ depth + 1 := by
  intro d hd
  simp only [Move.depthAfter?, Option.mem_def] at hd
  split_ifs at hd <;> cases hd <;> omega

theorem depthAfter?_le_of_stays (hstays : m.stays = true) (depth : Nat) :
    ∀ d ∈ m.depthAfter? depth, d ≤ depth := by
  intro d hd
  simp only [Move.depthAfter?, hstays, if_true, Option.mem_def] at hd
  split_ifs at hd <;> cases hd <;> omega

/-- **A move keeps what agrees** to the depth that it keeps. -/
theorem Agree.rows_meet (h : Agree depth p q) (hr : r ∈ m.rows p.here) :
    Option.Rel (Meet (m.depthAfter? depth)) (Place.walk? r p) (Place.walk? r q) := by
  have hrow (hnames : r ≠ [] ∧ ∀ s ∈ r, IsName s) :
      Option.Rel (Meet (m.depthAfter? depth)) (Place.walk? r p) (Place.walk? r q) := by
    have hlength := List.length_pos_iff.mpr hnames.1
    refine rel_imp (h.walk?_of_isName hnames.2) fun p' q' h' => h'.meet fun d hd => ?_
    exact (depthAfter?_le m depth d hd).trans (by omega)
  cases m with
  | folders =>
    obtain ⟨hne, hnames, -⟩ := (FileTree.mem_routes_iff h.left).mp hr
    exact hrow ⟨hne, hnames⟩
  | deep part =>
    obtain ⟨hne, hnames, -⟩ := (FileTree.mem_routes_iff h.left).mp (List.mem_of_mem_filter hr)
    exact hrow ⟨hne, hnames⟩
  | name tokens =>
    obtain ⟨s, hs, rfl⟩ := List.mem_map.mp hr
    rcases Place.idle_or_up_or_isName s with hidle | rfl | hname
    · have hstays := stays_of_mem_stepNames h.left.here hs hidle
      rw [Place.walk?_singleton, Place.walk?_singleton]
      exact rel_imp (h.step?_idle hidle) fun p' q' h' => h'.meet (depthAfter?_le_of_stays hstays depth)
    · have hrises := rises_of_mem_stepNames h.left.here hs
      rw [Place.walk?_singleton, Place.walk?_singleton, Move.depthAfter?, if_pos hrises]
      cases depth with
      | succ d => exact h.step?_up
      | zero =>
        rw [if_pos rfl]
        refine rel_of_steps h fun hp => ?_
        have hq : q.isFolder = true := h.isFolder_eq ▸ hp
        rw [Place.step?_up hp, Place.step?_up hq]
        exact .some ((h.left.isFolder_up hp).trans (h.right.isFolder_up hq).symm)
    · exact hrow ⟨List.cons_ne_nil _ _, by simpa using hname⟩

/-! ## Ways from places that agree -/

/-- The ways that moves go from a place, and whether they lead to folders. -/
def outcomes (ms : List Move) (p : Place) : List (Way × Bool) :=
  (ways ms p).map fun w => (w.1, w.2.isFolder)

theorem outcomes_cons (m : Move) (ms : List Move) (p : Place) :
    outcomes (m :: ms) p = (m.rows p.here).flatMap fun r =>
      (Place.walk? r p).elim [] fun q => (outcomes ms q).map fun o => (r :: o.1, o.2) := by
  rw [outcomes, ways_cons, Move.reach, List.map_flatMap]
  induction m.rows p.here with
  | nil => rfl
  | cons r rows ih =>
    rw [List.flatMap_cons, ← ih]
    cases hwalk : Place.walk? r p with
    | none =>
      have hnone : p.along? r = none := by rw [Place.along?, hwalk, Option.map_none]
      rw [List.filterMap_cons_none hnone]
      rfl
    | some q =>
      have hsome : p.along? r = some (r, q) := by rw [Place.along?, hwalk, Option.map_some]
      rw [List.filterMap_cons_some hsome, List.flatMap_cons]
      congr 1
      simp [outcomes]

/-- Outcomes are the same if they are the same behind the first row, whatever row it is. -/
theorem outcomes_cons_congr (hrows : m.rows p.here = m.rows q.here)
    (h : ∀ r ∈ m.rows p.here,
      Option.Rel (fun p' q' => outcomes ms p' = outcomes ms q') (Place.walk? r p) (Place.walk? r q)) :
    outcomes (m :: ms) p = outcomes (m :: ms) q := by
  rw [outcomes_cons, outcomes_cons, ← hrows]
  refine List.flatMap_congr fun r hr => ?_
  have hrel := h r hr
  generalize Place.walk? r p = p', Place.walk? r q = q' at hrel
  cases hrel with
  | none => rfl
  | some heq => rw [Option.elim_some, Option.elim_some, heq]

/-- Where one can only stay, it only counts whether this is a folder. -/
theorem outcomes_eq_of_isIdle (hms : ms.all Move.isIdle = true) (h : p.isFolder = q.isFolder) :
    outcomes ms p = outcomes ms q := by
  induction ms generalizing p q with
  | nil => simp [outcomes, h]
  | cons m ms ih =>
    rw [List.all_cons, Bool.and_eq_true] at hms
    obtain ⟨hm, hms⟩ := hms
    obtain ⟨s, hidle, hrows⟩ : ∃ s, (s = "" ∨ s = ".") ∧ ∀ t, m.rows t = [[s]] := by
      cases m with
      | name tokens =>
        rcases Bool.or_eq_true_iff.mp hm with h | h <;> obtain rfl := eq_of_beq h
        · exact ⟨"", .inl rfl, fun _ => rfl⟩
        · exact ⟨".", .inr rfl, fun _ => rfl⟩
      | folders => cases hm
      | deep part => cases hm
    refine outcomes_cons_congr (by rw [hrows, hrows]) fun r hr => ?_
    rw [hrows] at hr
    obtain rfl := List.mem_singleton.mp hr
    rw [Place.walk?_singleton, Place.walk?_singleton]
    cases hp : p.isFolder with
    | false =>
      rw [Place.step?_of_file hp, Place.step?_of_file (h ▸ hp)]
      exact .none
    | true =>
      rw [Place.step?_of_idle hp hidle, Place.step?_of_idle (h ▸ hp) hidle]
      exact .some (ih hms h)

/-- **Confined moves go along the same ways** from places that agree. -/
theorem outcomes_eq_of_agree (hconfined : Confined depth ms = true) (h : Agree depth p q) :
    outcomes ms p = outcomes ms q := by
  induction ms generalizing depth p q with
  | nil => simp [outcomes, h.isFolder_eq]
  | cons m ms ih =>
    refine outcomes_cons_congr (by rw [h.here]) fun r hr => rel_imp (h.rows_meet hr) fun p' q' hmeet => ?_
    rw [Confined] at hconfined
    cases hdepth : m.depthAfter? depth with
    | none =>
      rw [hdepth] at hconfined hmeet
      exact outcomes_eq_of_isIdle hconfined hmeet
    | some d =>
      rw [hdepth] at hconfined hmeet
      exact ih hconfined hmeet

/-! ## Names lead from the folder -/

/-- Steps without the idle ones lead to the same spot. -/
theorem exists_walk?_filter (hwalk : Place.walk? r p = some q) :
    ∃ q', Place.walk? (r.filter fun s => !isIdle s) p = some q' ∧ Place.SameSpot q q' := by
  induction r generalizing p with
  | nil => exact ⟨q, hwalk, rfl, rfl⟩
  | cons s r ih =>
    obtain ⟨next, hstep, hrest⟩ := Option.bind_eq_some_iff.mp hwalk
    obtain ⟨q', hwalk', hspot⟩ := ih hrest
    cases hs : isIdle s with
    | false =>
      rw [List.filter_cons_of_pos (by simp [hs])]
      exact ⟨q', Option.bind_eq_some_iff.mpr ⟨next, hstep, hwalk'⟩, hspot⟩
    | true =>
      have hone : Place.walk? [s] p = some next := by rw [Place.walk?_singleton, hstep]
      have hstay : Place.SameSpot p next :=
        Place.sameSpot_of_walk?_idle (by simpa using isIdle_iff.mp hs) hone
      obtain ⟨q'', hwalk'', hspot'⟩ := hstay.symm.walk? hwalk'
      rw [List.filter_cons_of_neg (by simp [hs])]
      exact ⟨q'', hwalk'', hspot.trans hspot'⟩

/-- Idle steps may be put between others, and behind them if they lead to a folder. -/
theorem exists_walk?_of_filter (hfolder : p.isFolder = true)
    (hwalk : Place.walk? (r.filter fun s => !isIdle s) p = some q)
    (hend : q.isFolder = true ∨ ∀ s ∈ r.getLast?, isIdle s = false) :
    ∃ q', Place.walk? r p = some q' ∧ Place.SameSpot q q' := by
  induction r generalizing p q with
  | nil => exact ⟨q, hwalk, rfl, rfl⟩
  | cons s r ih =>
    have hend' : q.isFolder = true ∨ ∀ s ∈ r.getLast?, isIdle s = false := by
      refine hend.imp_right fun hlast s' hs' => hlast s' ?_
      rwa [List.getLast?_cons_of_ne_nil (by rintro rfl; cases hs')]
    cases hs : isIdle s with
    | false =>
      rw [List.filter_cons_of_pos (by simp [hs])] at hwalk
      obtain ⟨next, hstep, hrest⟩ := Option.bind_eq_some_iff.mp hwalk
      by_cases hr : r = []
      · subst hr
        exact ⟨q, hwalk, rfl, rfl⟩
      · have hnext : next.isFolder = true := by
          refine Place.isFolder_of_walk? hrest (hend'.symm.imp_left fun hlast => ?_)
          have hmem : r.getLast hr ∈ r.filter fun s => !isIdle s := by
            rw [List.mem_filter, hlast _ (List.getLast?_eq_some_getLast hr)]
            exact ⟨List.getLast_mem hr, rfl⟩
          exact List.ne_nil_of_mem hmem
        obtain ⟨q', hwalk', hspot⟩ := ih hnext hrest hend'
        exact ⟨q', Option.bind_eq_some_iff.mpr ⟨next, hstep, hwalk'⟩, hspot⟩
    | true =>
      rw [List.filter_cons_of_neg (by simp [hs])] at hwalk
      have hstep := Place.step?_of_idle hfolder (isIdle_iff.mp hs)
      have hstay : Place.SameSpot p ⟨joinPath p.path s, p.above, p.here⟩ := ⟨rfl, rfl⟩
      obtain ⟨q', hrest, hspot⟩ := hstay.walk? hwalk
      have hend'' : q'.isFolder = true ∨ ∀ s ∈ r.getLast?, isIdle s = false :=
        hend'.imp_left fun hq => by rw [Place.isFolder, ← hspot.here]; exact hq
      obtain ⟨q'', hwalk', hspot'⟩ := @ih ⟨joinPath p.path s, p.above, p.here⟩ q' hfolder hrest hend''
      exact ⟨q'', Option.bind_eq_some_iff.mpr ⟨_, hstep, hwalk'⟩, hspot.trans hspot'⟩

/-- **Steps that differ by idle ones only** lead to the same spot, unless idle steps are to lead on from
a file. -/
theorem exists_walk?_of_filter_eq {r' : List String}
    (hfilter : (r.filter fun s => !isIdle s) = r'.filter fun s => !isIdle s)
    (hfolder : p.isFolder = true) (hwalk : Place.walk? r p = some q)
    (hend : q.isFolder = true ∨ ∀ s ∈ r'.getLast?, isIdle s = false) :
    ∃ q', Place.walk? r' p = some q' ∧ Place.SameSpot q q' := by
  obtain ⟨q₁, hwalk₁, hspot₁⟩ := exists_walk?_filter hwalk
  have hend₁ : q₁.isFolder = true ∨ ∀ s ∈ r'.getLast?, isIdle s = false :=
    hend.imp_left fun hq => by rw [Place.isFolder, ← hspot₁.here]; exact hq
  rw [hfilter] at hwalk₁
  obtain ⟨q₂, hwalk₂, hspot₂⟩ := exists_walk?_of_filter hfolder hwalk₁ hend₁
  exact ⟨q₂, hwalk₂, hspot₁.trans hspot₂⟩

/-- If nothing is seen of steps, they stay where they are. -/
theorem isFolder_of_shown_eq_nil (hfolder : p.isFolder = true) (hwalk : Place.walk? r p = some q)
    (hnone : shown r = []) : q.isFolder = true := by
  have hfilter := filter_shown r
  rw [hnone, eq_comm, List.filter_nil, List.filter_eq_nil_iff] at hfilter
  have hidle : ∀ s ∈ r, s = "" ∨ s = "." := fun s hs =>
    isIdle_iff.mp (by simpa using hfilter s hs)
  rw [Place.isFolder, ← (Place.sameSpot_of_walk?_idle hidle hwalk).here]
  exact hfolder

/-- A search begins at the folder, if there is one. -/
theorem Outset.exists_here {root : FileTree} {base : String} {entries : List (String × FileTree)}
    {origin : Option Place} (h : Outset root base origin)
    (hbase : root.lookup base = .ok (.folder entries)) :
    ∃ p ∈ origin, p.here = .folder entries := by
  have hfollow : follow [] root (pathParts base ++ []) = .ok (.folder entries) := by
    rw [FileTree.lookup] at hbase
    split at hbase
    · cases hbase
    · rw [List.append_nil, hbase]
  obtain ⟨p, hp, q, hwalk, hhere⟩ := (h.follow_iff [] _ (.inr rfl)).mp hfollow
  obtain rfl := Option.some.inj hwalk
  exact ⟨p, hp, hhere⟩

/-- **The name of a way leads along it.** -/
theorem lookup_joinPath_nameOf {root : FileTree} {base : String}
    {entries : List (String × FileTree)} {origin : Option Place} (horigin : Outset root base origin)
    (hbase : root.lookup base = .ok (.folder entries)) (hp : p ∈ origin)
    (hwalk : Place.walk? r p = some q) :
    root.lookup (joinPath base (nameOf r)) = .ok q.here := by
  have hne : base ≠ "" := by
    rintro rfl
    cases hbase
  have hfolder : p.isFolder = true := by
    obtain ⟨p', hp', hhere⟩ := horigin.exists_here hbase
    rw [Option.mem_unique hp hp', Place.isFolder, hhere]
    rfl
  have hslash := (horigin.wellFormed p hp).noSlash_of_walk? hwalk
  have hside : r ≠ [] ∨ q.here.isFolder = true := by
    by_cases hr : r = []
    · exact .inr (isFolder_of_shown_eq_nil hfolder hwalk (by rw [hr]; rfl))
    · exact .inl hr
  obtain ⟨front, tail, htail, hbase', hjoin⟩ :=
    FileTree.exists_pathParts_joinPath hne (head?_nameOf_ne hslash)
  -- the path of the folder with the steps behind it, and the path with the name behind it, differ by
  -- idle steps only
  have hfilter : ((pathParts base ++ r).filter fun s => !isIdle s) =
      (front ++ pathParts (nameOf r)).filter fun s => !isIdle s := by
    have htail' : (tail.filter fun s => !isIdle s) = [] := by rcases htail with rfl | rfl <;> rfl
    rw [hbase', List.filter_append, List.filter_append, List.filter_append, htail', List.append_nil,
      filter_pathParts_nameOf hslash]
  obtain ⟨q₁, hwalk₁, hhere₁⟩ := (FileTree.follow_eq_ok_iff "").mp
    ((horigin.follow_iff r q.here hside).mpr ⟨p, hp, q, hwalk, rfl⟩)
  have htop : Place.isFolder ⟨"", [], root⟩ = true := by
    have hparts := List.append_ne_nil_of_left_ne_nil (FileTree.pathParts_ne_nil base) r
    exact Place.isFolder_of_walk? hwalk₁ (.inl hparts)
  have hend : q₁.isFolder = true ∨
      ∀ s ∈ (front ++ pathParts (nameOf r)).getLast?, isIdle s = false := by
    rw [List.getLast?_append_of_ne_nil _ (FileTree.pathParts_ne_nil _), pathParts_nameOf hslash]
    by_cases hnone : shown r = []
    · refine .inl ?_
      rw [Place.isFolder, hhere₁]
      exact isFolder_of_shown_eq_nil hfolder hwalk hnone
    · rw [if_neg hnone]
      exact .inr (isIdle_getLast_shown hnone)
  obtain ⟨q₂, hwalk₂, hspot⟩ := exists_walk?_of_filter_eq hfilter htop hwalk₁ hend
  have hpath : joinPath base (nameOf r) ≠ "" := by
    intro hnone
    rw [joinPath, if_neg (by simpa using head?_nameOf_ne hslash)] at hnone
    split at hnone <;> simp_all
  rw [FileTree.lookup, if_neg (by simpa using hpath), hjoin, FileTree.follow_eq_ok_iff ""]
  exact ⟨q₂, hwalk₂, by rw [← hspot.here, hhere₁]⟩

/-! ## What is found in a folder -/

theorem map_found (pattern : String) (ms : List Move) (p : Place) :
    ((found pattern ms (some p)).map fun w => nameOf w.1.flatten) =
      ((outcomes ms p).filter fun o => !wantsFolder pattern ms || o.2).map fun o =>
        nameOf o.1.flatten := by
  rw [found, Option.toList_some, List.flatMap_singleton, outcomes, List.filter_map, List.map_map]
  rfl

/-- A folder with a file and a folder in it. -/
def sharedFolder : FileTree :=
  (FileTree.empty.put ["a.yaml"] (.file [])).put ["s"] FileTree.empty

/-- The folder among other files, or somewhere else. -/
def amongFiles : FileTree := (FileTree.empty.put ["a.yaml"] (.file [])).put ["w"] sharedFolder

def inFolders : FileTree := FileTree.empty.put ["x", "[*]"] sharedFolder

theorem wellFormed_sharedFolder : sharedFolder.WellFormed :=
  (FileTree.WellFormed.empty.put (by decide) (.file [])).put (by decide) .empty

theorem wellFormed_amongFiles : amongFiles.WellFormed :=
  (FileTree.WellFormed.empty.put (by decide) (.file [])).put (by decide) wellFormed_sharedFolder

theorem wellFormed_inFolders : inFolders.WellFormed :=
  FileTree.WellFormed.empty.put (by decide) wellFormed_sharedFolder

end Glob
end LintLocator
