import LintLocator.Proofs.Glob.NameOrder
import LintLocator.Proofs.Glob.WayOrder

/-!
# When the matches of a pattern are sorted

A search finds things in the order of the ways to them, and each way once.  The names are sorted, and
told apart, as long as they determine how the ways fall into rows.  Two things get in the way: a part
behind `**` has several rows to choose from, so that what comes behind it is not found in the order of
the names, and two of `**` may share a path between them in several ways.  And wildcards that begin
with a dot match the special entries, of which `.` is not always seen in a name.

* `Glob.ahead_of_wayBefore`: for most patterns, what is found first is also ahead;
* `Glob.eq_of_fits_of_nameOf_eq`: for most patterns, names tell ways apart;
* `Glob.expand_in_order`: what is found, in which order, and when this is the order of the names.
-/

namespace LintLocator
namespace Glob

open FileTree (pathParts follow IsName)

/-! ## Conditions on patterns -/

/-- The move is a single step. -/
def Move.isStep : Move → Bool
  | .name _ => true
  | _ => false

/-- The move is a wildcard that takes `s`, one of the special entries, for a name. -/
def Move.takes (s : String) : Move → Bool
  | .name tokens => (literal? tokens).isNone && (dots tokens).contains s
  | _ => false

/-- At most one part stands behind a `**`. -/
def DeepAtEnd (ms : List Move) : Prop := ∀ m ∈ ms.dropLast, m.isStep = true

/-- There is at most one `**`. -/
def OnceDeep (ms : List Move) : Prop := ms.countP (fun m => !m.isStep) ≤ 1

variable {ms : List Move} {m : Move} {w v : Way} {r u : List String} {s s' : String}

/-- Parts that stand for one name go one step, and other parts go to names, unless they take a special
entry for one. -/
theorem fits_name_cases {tokens : List Token} (h : (Move.name tokens).Fits [s]) :
    literal? tokens = some s.toList ∨ IsName s ∨ (Move.name tokens).takes s = true := by
  obtain ⟨s, hs, hmatch, hkind⟩ := h
  obtain rfl := (List.cons.inj hs).1
  cases hliteral : literal? tokens with
  | some text => exact .inl (congrArg some ((matchName_of_literal? hliteral).mp hmatch).symm)
  | none =>
    rcases hkind with hkind | hname | hdots
    · simp [hliteral] at hkind
    · exact .inr (.inl hname)
    · exact .inr (.inr (by simp [Move.takes, hliteral, hdots]))

theorem cases_of_takes {tokens : List Token} (h : (Move.name tokens).takes s = true) :
    s = ".." ∨ s = "." :=
  mem_dots (by simpa using (Bool.and_eq_true_iff.mp h).2)

theorem eq_of_literal {tokens : List Token} (hs : literal? tokens = some s.toList)
    (hs' : (Move.name tokens).Fits [s']) : s = s' := by
  obtain ⟨t, ht, hmatch, -⟩ := hs'
  obtain rfl := (List.cons.inj ht).1
  exact (String.toList_injective ((matchName_of_literal? hs).mp hmatch)).symm

theorem isName_of_not_isStep (hm : m.isStep = false) (hr : m.Fits r) : ∀ s ∈ r, IsName s := by
  cases m with
  | name tokens => cases hm
  | folders => exact hr.2
  | deep part => exact hr.2.1

theorem ne_nil_of_fits (hr : m.Fits r) : r ≠ [] := by
  cases m with
  | name tokens =>
    obtain ⟨s, rfl, -⟩ := hr
    exact List.cons_ne_nil _ _
  | folders => exact hr.1
  | deep part => exact hr.1

/-- A single step. -/
theorem exists_step_of_fits (hm : m.isStep = true) (hr : m.Fits r) :
    ∃ tokens s, m = .name tokens ∧ r = [s] := by
  cases m with
  | name tokens =>
    obtain ⟨s, rfl, -⟩ := hr
    exact ⟨tokens, s, rfl, rfl⟩
  | folders => cases hm
  | deep part => cases hm

/-! ## Ways that are ahead -/

theorem Ahead.append_left {xs ys : List String} (h : Ahead xs ys) (r : List String) :
    Ahead (r ++ xs) (r ++ ys) := by
  induction r with
  | nil => exact h
  | cons s r ih => exact ih.same

theorem lt_of_stepBefore (hs : IsName s) (hs' : IsName s') (h : StepBefore s s') : s < s' := by
  cases h with
  | up_dot => exact absurd rfl hs.ne_up
  | up_name => exact absurd rfl hs.ne_up
  | dot_name => exact absurd rfl hs.ne_dot
  | names _ _ hlt => exact hlt

theorem ahead_of_rowBefore (hr : ∀ s ∈ r, IsName s) (hu : ∀ s ∈ u, IsName s) (h : RowBefore r u) :
    Ahead r u := by
  induction h with
  | nil => exact .further (List.forall_mem_cons.mp hu).1
  | cons _ ih => exact (ih (List.forall_mem_cons.mp hr).2 (List.forall_mem_cons.mp hu).2).same
  | rel hstep =>
    have hs := (List.forall_mem_cons.mp hr).1
    have hs' := (List.forall_mem_cons.mp hu).1
    exact .name hs hs' (lt_of_stepBefore hs hs' hstep)

/-- Two single steps of one move, of which one comes before the other, go to names. -/
theorem isName_of_stepBefore {tokens : List Token}
    (hdot : (Move.name tokens).takes "." = false) (hup : (Move.name tokens).takes ".." = false)
    (hs : (Move.name tokens).Fits [s]) (hs' : (Move.name tokens).Fits [s'])
    (h : StepBefore s s') : IsName s ∧ IsName s' := by
  have hkind : ∀ t, (Move.name tokens).Fits [t] → literal? tokens = some t.toList ∨ IsName t := by
    intro t ht
    rcases fits_name_cases ht with hliteral | hname | htakes
    · exact .inl hliteral
    · exact .inr hname
    · rcases cases_of_takes htakes with rfl | rfl
      · rw [hup] at htakes
        cases htakes
      · rw [hdot] at htakes
        cases htakes
  rcases hkind s hs with hliteral | hname
  · exact absurd (eq_of_literal hliteral hs') h.ne
  · rcases hkind s' hs' with hliteral | hname'
    · exact absurd (eq_of_literal hliteral hs).symm h.ne
    · exact ⟨hname, hname'⟩

/-- **What is found first is ahead**, if at most one part stands behind `**` and no wildcard takes a
special entry for a name. -/
theorem ahead_of_wayBefore (hdeep : DeepAtEnd ms)
    (hdots : ∀ m ∈ ms, m.takes "." = false ∧ m.takes ".." = false) (hw : Fits ms w) (hv : Fits ms v)
    (h : WayBefore w v) : Ahead w.flatten v.flatten := by
  induction hw generalizing v with
  | nil =>
    obtain rfl := List.forall₂_nil_right_iff.mp hv
    cases h
  | @cons r m w ms hr hw ih =>
    obtain ⟨u, v, hu, hvs, rfl⟩ := List.forall₂_cons_right_iff.mp hv
    obtain ⟨⟨hdot, hup⟩, hdots⟩ := List.forall_mem_cons.mp hdots
    rw [List.flatten_cons, List.flatten_cons]
    cases h with
    | cons hrest =>
      have hdeep' : DeepAtEnd ms := by
        intro m' hm'
        have hne : ms ≠ [] := by
          rintro rfl
          cases hm'
        exact hdeep m' (by rw [List.dropLast_cons_of_ne_nil hne]; exact List.mem_cons_of_mem _ hm')
      exact (ih hdeep' hdots hvs hrest).append_left r
    | rel hrow =>
      cases hm : m.isStep with
      | true =>
        obtain ⟨tokens, s, rfl, rfl⟩ := exists_step_of_fits hm hr
        obtain ⟨-, s', -, rfl⟩ := exists_step_of_fits hm hu
        have hstep : StepBefore s s' := by
          cases hrow with
          | rel hstep => exact hstep
          | cons hnone => cases hnone
        obtain ⟨hs, hs'⟩ := isName_of_stepBefore hdot hup hr hu hstep
        exact .name hs hs' (lt_of_stepBefore hs hs' hstep)
      | false =>
        have hlast : ms = [] := by
          by_contra hne
          have hstep := hdeep m (by rw [List.dropLast_cons_of_ne_nil hne]; exact List.mem_cons_self)
          rw [hm] at hstep
          cases hstep
        subst hlast
        obtain rfl := List.forall₂_nil_right_iff.mp hw
        obtain rfl := List.forall₂_nil_right_iff.mp hvs
        rw [List.flatten_nil, List.append_nil, List.append_nil]
        exact ahead_of_rowBefore (isName_of_not_isStep hm hr) (isName_of_not_isStep hm hu) hrow

/-! ## Ways that are told apart by names -/

theorem alike_of_isName (hr : ∀ s ∈ r, IsName s) (hu : ∀ s ∈ u, IsName s)
    (hlength : r.length = u.length) : List.Forall₂ Alike r u := by
  refine List.forall₂_of_length_eq_of_get hlength fun i hi hi' => ?_
  exact .inr ⟨isIdle_of_isName (hr _ (List.getElem_mem hi)),
    isIdle_of_isName (hu _ (List.getElem_mem hi'))⟩

theorem countP_of_alike {xs ys : List String} (h : List.Forall₂ Alike xs ys) :
    xs.countP (fun s => !isIdle s) = ys.countP fun s => !isIdle s := by
  induction h with
  | nil => rfl
  | cons hab _ ih => rw [List.countP_cons, List.countP_cons, ih, hab.isIdle_eq]

theorem countP_of_isName (hr : ∀ s ∈ r, IsName s) : r.countP (fun s => !isIdle s) = r.length := by
  rw [List.countP_eq_length]
  intro s hs
  simp [isIdle_of_isName (hr s hs)]

/-- The rows have the same lengths, and the steps are alike. -/
structure SameForm (w v : Way) : Prop where
  lengths : w.map List.length = v.map List.length
  alike : List.Forall₂ Alike w.flatten v.flatten

theorem SameForm.cons (hlength : r.length = u.length) (halike : List.Forall₂ Alike r u)
    (h : SameForm w v) : SameForm (r :: w) (u :: v) where
  lengths := by rw [List.map_cons, List.map_cons, hlength, h.lengths]
  alike := by
    rw [List.flatten_cons, List.flatten_cons]
    exact List.rel_append halike h.alike

theorem alike_of_fits_isStep (hm : m.isStep = true) (hdot : m.takes "." = false) (hr : m.Fits r)
    (hu : m.Fits u) : r.length = u.length ∧ List.Forall₂ Alike r u := by
  obtain ⟨tokens, s, rfl, rfl⟩ := exists_step_of_fits hm hr
  obtain ⟨-, s', -, rfl⟩ := exists_step_of_fits hm hu
  have hkind : ∀ t, (Move.name tokens).Fits [t] →
      literal? tokens = some t.toList ∨ isIdle t = false := by
    intro t ht
    rcases fits_name_cases ht with hliteral | hname | htakes
    · exact .inl hliteral
    · exact .inr (isIdle_of_isName hname)
    · rcases cases_of_takes htakes with rfl | rfl
      · exact .inr (by decide)
      · rw [hdot] at htakes
        cases htakes
  refine ⟨rfl, .cons ?_ .nil⟩
  rcases hkind s hr with hliteral | hs
  · exact .inl (eq_of_literal hliteral hu)
  · rcases hkind s' hu with hliteral | hs'
    · exact .inl (eq_of_literal hliteral hr).symm
    · exact .inr ⟨hs, hs'⟩

theorem sameForm_of_isStep (hms : ∀ m ∈ ms, m.isStep = true)
    (hdot : ∀ m ∈ ms, m.takes "." = false) (hw : Fits ms w) (hv : Fits ms v) : SameForm w v := by
  induction hw generalizing v with
  | nil =>
    obtain rfl := List.forall₂_nil_right_iff.mp hv
    exact ⟨rfl, .nil⟩
  | @cons r m w ms hr hw ih =>
    obtain ⟨u, v, hu, hvs, rfl⟩ := List.forall₂_cons_right_iff.mp hv
    obtain ⟨hm, hms⟩ := List.forall_mem_cons.mp hms
    obtain ⟨hdot', hdot⟩ := List.forall_mem_cons.mp hdot
    obtain ⟨hlength, halike⟩ := alike_of_fits_isStep hm hdot' hr hu
    exact (ih hms hdot hvs).cons hlength halike

/-- If there is at most one `**`, its row is as long as the others leave it. -/
theorem sameForm_of_countP_eq (honce : OnceDeep ms) (hdot : ∀ m ∈ ms, m.takes "." = false)
    (hw : Fits ms w) (hv : Fits ms v)
    (hcount : w.flatten.countP (fun s => !isIdle s) = v.flatten.countP fun s => !isIdle s) :
    SameForm w v := by
  induction hw generalizing v with
  | nil =>
    obtain rfl := List.forall₂_nil_right_iff.mp hv
    exact ⟨rfl, .nil⟩
  | @cons r m w ms hr hw ih =>
    obtain ⟨u, v, hu, hvs, rfl⟩ := List.forall₂_cons_right_iff.mp hv
    obtain ⟨hdot', hdot⟩ := List.forall_mem_cons.mp hdot
    rw [List.flatten_cons, List.flatten_cons, List.countP_append, List.countP_append] at hcount
    cases hm : m.isStep with
    | true =>
      obtain ⟨hlength, halike⟩ := alike_of_fits_isStep hm hdot' hr hu
      have honce' : OnceDeep ms := by simpa [OnceDeep, hm] using honce
      rw [countP_of_alike halike] at hcount
      exact (ih honce' hdot hvs (Nat.add_left_cancel hcount)).cons hlength halike
    | false =>
      have hrest : ∀ m' ∈ ms, m'.isStep = true := by simpa [OnceDeep, hm] using honce
      have hform := sameForm_of_isStep hrest hdot hw hvs
      have hnames := isName_of_not_isStep hm hr
      have hnames' := isName_of_not_isStep hm hu
      rw [countP_of_alike hform.alike, countP_of_isName hnames, countP_of_isName hnames'] at hcount
      have hlength := Nat.add_right_cancel hcount
      exact hform.cons hlength (alike_of_isName hnames hnames' hlength)

/-- **Names tell ways apart**, if there is at most one `**` and no wildcard takes `.` for a name. -/
theorem eq_of_fits_of_nameOf_eq (honce : OnceDeep ms) (hdot : ∀ m ∈ ms, m.takes "." = false)
    (hw : Fits ms w) (hv : Fits ms v) (hwslash : ∀ s ∈ w.flatten, '/' ∉ s.toList)
    (hvslash : ∀ s ∈ v.flatten, '/' ∉ s.toList) (h : nameOf w.flatten = nameOf v.flatten) :
    w = v := by
  have hshown := shown_eq_of_nameOf_eq hwslash hvslash h
  have hcount : w.flatten.countP (fun s => !isIdle s) = v.flatten.countP fun s => !isIdle s := by
    rw [List.countP_eq_length_filter, List.countP_eq_length_filter, ← filter_shown w.flatten, hshown,
      filter_shown]
  have hform := sameForm_of_countP_eq honce hdot hw hv hcount
  exact List.eq_iff_flatten_eq.mpr ⟨(shown_eq_iff_of_alike hform.alike).mp hshown, hform.lengths⟩

/-! ## What is found -/

/-- The way leads from a folder to something that a pattern wants. -/
def Leads (root : FileTree) (base pattern : String) (ms : List Move) (w : Way) : Prop :=
  ∃ t, follow [] root (pathParts base ++ w.flatten) = .ok t ∧
    (wantsFolder pattern ms = true → t.isFolder = true)

theorem collapse_ne_nil {parts : List Part} (h : parts ≠ []) : collapse parts ≠ [] := by
  fun_induction collapse parts with
  | case1 parts ih => exact ih (List.cons_ne_nil _ _)
  | case2 => exact List.cons_ne_nil _ _
  | case3 => exact absurd rfl h

theorem moves_ne_nil {parts : List Part} (h : parts ≠ []) : moves parts ≠ [] := by
  fun_cases moves parts with
  | case1 => exact absurd rfl h
  | _ => exact List.cons_ne_nil _ _

/-- Only the empty text has no parts. -/
theorem eq_nil_of_readParts? {s : List Char} (h : readParts? s = some []) : s = [] := by
  obtain ⟨parts, hparts, hcollapse⟩ := Option.map_eq_some_iff.mp h
  have hnone : parts = [] := by
    by_contra hne
    exact collapse_ne_nil hne hcollapse
  subst hnone
  have htexts : partTexts s = [] := by
    cases htexts : partTexts s with
    | nil => rfl
    | cons text texts =>
      rw [htexts, List.mapM_cons] at hparts
      simp [Option.bind_eq_some_iff] at hparts
  rw [partTexts] at htexts
  split at htexts
  · next hlast =>
    obtain ⟨front, hsplit⟩ := List.getLast?_eq_some_iff.mp (eq_of_beq hlast)
    rw [hsplit, List.dropLast_concat] at htexts
    subst htexts
    exact Text.splitOn_eq_singleton_nil_iff.mp hsplit
  · exact absurd htexts (Text.splitOn_ne_nil _ _)

/-- Only the empty pattern has no moves, and it wants a folder. -/
theorem wantsFolder_of_moves_eq_nil {pattern : String} {parts : List Part}
    (hparts : readParts? pattern.toList = some parts) (hms : moves parts = []) :
    wantsFolder pattern (moves parts) = true := by
  have hnone : parts = [] := by
    by_contra hne
    exact moves_ne_nil hne hms
  subst hnone
  rw [wantsFolder, foldersOnly, eq_nil_of_readParts? hparts]
  rfl

/-- **What is found** lies along the ways that fit the pattern and lead to what it wants. -/
theorem mem_found_iff {root : FileTree} {base pattern : String} {origin : Option Place}
    (h : Outset root base origin) (hms : ms = [] → wantsFolder pattern ms = true) :
    w ∈ (found pattern ms origin).map Prod.fst ↔ Fits ms w ∧ Leads root base pattern ms w := by
  have hend (t : FileTree) (hfits : Fits ms w)
      (hwant : wantsFolder pattern ms = true → t.isFolder = true) :
      w.flatten ≠ [] ∨ t.isFolder = true := by
    cases hfits with
    | nil => exact .inr (hwant (hms rfl))
    | @cons r m w ms hr _ => exact .inl (by simp [ne_nil_of_fits hr])
  simp only [found, List.mem_map, List.mem_filter, List.mem_flatMap, Option.mem_toList]
  constructor
  · rintro ⟨⟨w, q⟩, ⟨⟨p, hp, hmem⟩, hwant⟩, rfl⟩
    obtain ⟨hfits, hwalk⟩ := (mem_ways_iff (h.wellFormed p hp)).mp hmem
    have hwant' : wantsFolder pattern ms = true → q.here.isFolder = true := by
      intro hfolder
      have hfound : q.isFolder = true := by simpa [hfolder] using hwant
      exact hfound
    exact ⟨hfits, q.here, (h.follow_iff _ _ (hend _ hfits hwant')).mpr ⟨p, hp, q, hwalk, rfl⟩, hwant'⟩
  · rintro ⟨hfits, t, hfollow, hwant⟩
    obtain ⟨p, hp, q, hwalk, rfl⟩ := (h.follow_iff _ _ (hend t hfits hwant)).mp hfollow
    refine ⟨(w, q), ⟨⟨p, hp, (mem_ways_iff (h.wellFormed p hp)).mpr ⟨hfits, hwalk⟩⟩, ?_⟩, rfl⟩
    cases hfolder : wantsFolder pattern ms with
    | false => rfl
    | true => exact hwant hfolder

/-- **What is found, and in which order.**  The names are those of the ways that fit the pattern and
lead to what it wants, each way once and in the order of ways.  If at most one part stands behind `**`
and no wildcard takes a special entry for a name, this is the order of the names, part by part.  If
there is at most one `**` and no wildcard takes `.` for a name, no name comes twice. -/
theorem expand_in_order {root : FileTree} {base pattern : String} {names : List String}
    (hroot : root.WellFormed) (h : expand root base pattern = .ok names) :
    ∃ parts, readParts? pattern.toList = some parts ∧
      (∃ ws : List Way, ws.Pairwise WayBefore ∧
        (∀ w, w ∈ ws ↔ Fits (moves parts) w ∧ Leads root base pattern (moves parts) w) ∧
        names = ws.map fun w => nameOf w.flatten) ∧
      (DeepAtEnd (moves parts) →
        (∀ m ∈ moves parts, m.takes "." = false ∧ m.takes ".." = false) →
        names.Pairwise fun a b => pathParts a < pathParts b) ∧
      (OnceDeep (moves parts) → (∀ m ∈ moves parts, m.takes "." = false) → names.Nodup) := by
  obtain ⟨origin, horigin⟩ := exists_outset hroot base
  rw [horigin.expand_eq_names] at h
  cases hparts : readParts? pattern.toList with
  | none =>
    rw [hparts] at h
    cases h
  | some parts =>
    rw [hparts] at h
    cases h
    have horder := pairwise_found horigin.wellFormed pattern (moves parts)
    have hfound {w : Way × Place} (hw : w ∈ found pattern (moves parts) origin) :
        Fits (moves parts) w.1 ∧ ∀ s ∈ w.1.flatten, '/' ∉ s.toList := by
      obtain ⟨p, hp, hmem⟩ := List.mem_flatMap.mp (List.mem_of_mem_filter hw)
      have hwell := horigin.wellFormed p (Option.mem_toList.mp hp)
      obtain ⟨hfits, hwalk⟩ := (mem_ways_iff hwell).mp hmem
      exact ⟨hfits, hwell.noSlash_of_walk? hwalk⟩
    refine ⟨parts, rfl, ⟨(found pattern (moves parts) origin).map Prod.fst, ?_, fun w => ?_, ?_⟩,
      fun hdeep hdots => ?_, fun honce hdot => ?_⟩
    · exact List.pairwise_map.mpr horder
    · exact mem_found_iff horigin (wantsFolder_of_moves_eq_nil hparts)
    · rw [List.map_map]
      rfl
    · refine List.pairwise_map.mpr (horder.imp_of_mem fun hw hv hbefore => ?_)
      obtain ⟨hfits, hslash⟩ := hfound hw
      obtain ⟨hfits', hslash'⟩ := hfound hv
      exact pathParts_nameOf_lt (ahead_of_wayBefore hdeep hdots hfits hfits' hbefore) hslash hslash'
    · refine List.pairwise_map.mpr (horder.imp_of_mem fun hw hv hbefore hname => ?_)
      obtain ⟨hfits, hslash⟩ := hfound hw
      obtain ⟨hfits', hslash'⟩ := hfound hv
      exact hbefore.ne (eq_of_fits_of_nameOf_eq honce hdot hfits hfits' hslash hslash' hname)

/-- Two files of one name, one of them in a folder of the same name as the folder around it. -/
def nestedFiles : FileTree :=
  (FileTree.empty.put ["a", "b"] (.file [])).put ["a", "a", "b"] (.file [])

theorem wellFormed_nestedFiles : nestedFiles.WellFormed :=
  (FileTree.WellFormed.empty.put (by decide) (.file [])).put (by decide) (.file [])

theorem expand_in_order_of_one_part_behind :
    nestedFiles.WellFormed ∧ expand nestedFiles "" "**/b" = .ok ["a/a/b", "a/b"] ∧
      (["a/a/b", "a/b"].Pairwise fun a b => pathParts a < pathParts b) ∧
      ["a/a/b", "a/b"].Nodup := by
  have hexpand : expand nestedFiles "" "**/b" = .ok ["a/a/b", "a/b"] := rfl
  have hparts : readParts? "**/b".toList = some [.folders, .name [.char 'b']] := rfl
  obtain ⟨parts, hparts', -, hsorted, honce⟩ := expand_in_order wellFormed_nestedFiles hexpand
  obtain rfl := Option.some.inj (hparts.symm.trans hparts')
  exact ⟨wellFormed_nestedFiles, hexpand, hsorted (by unfold DeepAtEnd; decide) (by decide),
    honce (by unfold OnceDeep; decide) (by decide)⟩

/-- With two parts behind `**` the names need not be sorted, and with two `**` a name may come twice. -/
theorem expand_out_of_order :
    (¬ ∀ (root : FileTree) (base pattern : String) (names : List String), root.WellFormed →
      expand root base pattern = .ok names →
        names.Pairwise fun a b => ¬ pathParts b < pathParts a) ∧
    ¬ ∀ (root : FileTree) (base pattern : String) (names : List String), root.WellFormed →
      expand root base pattern = .ok names → names.Nodup := by
  refine ⟨fun h => ?_, fun h => ?_⟩
  · have hsorted := h nestedFiles "" "**/a/b" ["a/b", "a/a/b"] wellFormed_nestedFiles rfl
    exact absurd hsorted (by decide)
  · have hnodup := h nestedFiles "" "**/a/**/b" ["a/a/b", "a/b", "a/a/b"] wellFormed_nestedFiles rfl
    exact absurd hnodup (by decide)

end Glob
end LintLocator
