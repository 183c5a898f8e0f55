import LintLocator.Proofs.Yaml.JsonTokens

/-!
# JSON texts as streams of tokens

A JSON text whose root is an object starts a flow collection, and all that follows is inside of it
up to the end.  `TokenStream.ofText_of_isObject` says what comes of the whole text: the tokens of
its value and nothing else, or no token at all.
-/

namespace LintLocator

namespace Json

/-! ## No text holds a NUL -/

theorem Blanks.ne_nul (b : Blanks) : ∀ c ∈ b.chars, c ≠ '\x00' := by
  rintro c hc rfl
  exact absurd (b.blank _ hc) (by decide)

theorem ne_nul_of_isLiteral {text : List Char} (h : IsLiteral text) : ∀ c ∈ text, c ≠ '\x00' := by
  rintro c hc rfl
  rcases h.starts_and_forall.2 _ hc with h | h | h | h
  all_goals exact absurd h (by decide)

theorem ne_nul_of_hexValue? {digits : List Char} {acc n : Nat}
    (h : hexValue? acc (digits.map some) = some n) : ∀ c ∈ digits, c ≠ '\x00' := by
  induction digits generalizing acc with
  | nil => simp
  | cons d digits ih =>
    rw [List.map_cons, hexValue?, Option.bind_eq_some_iff] at h
    obtain ⟨value, hvalue, hn⟩ := h
    intro c hc
    rcases List.mem_cons.mp hc with rfl | hc
    · rintro rfl
      exact absurd (hvalue.symm.trans (show hexDigit? '\x00' = none from rfl)) (by simp)
    · exact ih hn c hc

theorem Piece.ne_nul (p : Piece) : ∀ c ∈ p.text, c ≠ '\x00' := by
  cases p with
  | plain c h =>
    intro d hd
    obtain rfl := List.mem_singleton.mp hd
    rintro rfl
    exact absurd h.1 (by decide)
  | short letter c h =>
    intro d hd
    rcases List.mem_cons.mp hd with rfl | hd
    · decide
    · obtain rfl := List.mem_singleton.mp hd
      rintro rfl
      exact absurd (h.symm.trans (show shortEscape? '\x00' = none from rfl)) (by simp)
  | code digits n hlength hvalue =>
    intro d hd
    rcases List.mem_cons.mp hd with rfl | hd
    · decide
    · rcases List.mem_cons.mp hd with rfl | hd
      · decide
      · exact ne_nul_of_hexValue? hvalue d hd

theorem ne_nul_of_enclosed {first last : Char} {s : List Char} (hfirst : first ≠ '\x00')
    (hlast : last ≠ '\x00') (hs : ∀ c ∈ s, c ≠ '\x00') :
    ∀ c ∈ first :: (s ++ [last]), c ≠ '\x00' := by
  intro c hc
  rcases List.mem_cons.mp hc with rfl | hc
  · exact hfirst
  · rcases List.mem_append.mp hc with hc | hc
    · exact hs c hc
    · obtain rfl := List.mem_singleton.mp hc
      exact hlast

theorem ne_nul_of_quoted (ps : List Piece) : ∀ c ∈ quoted ps, c ≠ '\x00' := by
  refine ne_nul_of_enclosed (by decide) (by decide) fun c hc => ?_
  obtain ⟨p, -, hp⟩ := List.mem_flatMap.mp hc
  exact p.ne_nul c hp

theorem Name.ne_nul (n : Name) : ∀ c ∈ n.text, c ≠ '\x00' := by
  intro c hc
  simp only [Name.text, List.mem_append, List.mem_cons] at hc
  rcases hc with hc | hc | hc | rfl | hc
  · exact n.before.ne_nul c hc
  · exact ne_nul_of_quoted n.pieces c hc
  · exact n.after.ne_nul c hc
  · decide
  · exact n.behind.ne_nul c hc

mutual

theorem Term.ne_nul (t : Term) : ∀ c ∈ t.text, c ≠ '\x00' := by
  cases t with
  | literal text h => exact ne_nul_of_isLiteral h
  | string ps => exact ne_nul_of_quoted ps
  | emptyArray gap => exact ne_nul_of_enclosed (by decide) (by decide) gap.ne_nul
  | array items => exact ne_nul_of_enclosed (by decide) (by decide) items.ne_nul
  | emptyObject gap => exact ne_nul_of_enclosed (by decide) (by decide) gap.ne_nul
  | object members => exact ne_nul_of_enclosed (by decide) (by decide) members.ne_nul

theorem Items.ne_nul (items : Items) : ∀ c ∈ items.text, c ≠ '\x00' := by
  intro c hc
  cases items with
  | last before item after =>
    simp only [Items.text, List.mem_append] at hc
    rcases hc with hc | hc | hc
    · exact before.ne_nul c hc
    · exact item.ne_nul c hc
    · exact after.ne_nul c hc
  | more before item after others =>
    simp only [Items.text, List.mem_append, List.mem_cons] at hc
    rcases hc with hc | hc | hc | rfl | hc
    · exact before.ne_nul c hc
    · exact item.ne_nul c hc
    · exact after.ne_nul c hc
    · decide
    · exact others.ne_nul c hc

theorem Members.ne_nul (members : Members) : ∀ c ∈ members.text, c ≠ '\x00' := by
  intro c hc
  cases members with
  | last name value after =>
    simp only [Members.text, List.mem_append] at hc
    rcases hc with hc | hc | hc
    · exact name.ne_nul c hc
    · exact value.ne_nul c hc
    · exact after.ne_nul c hc
  | more name value after others =>
    simp only [Members.text, List.mem_append, List.mem_cons] at hc
    rcases hc with hc | hc | hc | rfl | hc
    · exact name.ne_nul c hc
    · exact value.ne_nul c hc
    · exact after.ne_nul c hc
    · decide
    · exact others.ne_nul c hc

end

end Json

namespace Yaml
namespace Layout

/-! ## The start of a text -/

/-- **A brace starts the text**, and from there on one is inside of it. -/
theorem next_start {source : List Char} (hnul : ∀ c ∈ source, c ≠ '\x00') {before gap r : List Char}
    (hbefore : ∀ ch ∈ before, isGap ch = true) (hgap : ∀ ch ∈ gap, isGap ch = true)
    (hr : Stops r) (hsource : source = before ++ '{' :: (gap ++ r)) :
    ∃ u, (start source).next = some u ∧ u.Inside 1 [.flowMappingStart] ∧ u.cursor.IsBefore r ∧
      u.keyAllowed = true := by
  have hrest : (start source).cursor.rest = source := by
    refine List.takeWhile_eq_self_iff.mpr fun c hc => ?_
    simpa using hnul c hc
  obtain ⟨c, allowed, hskip, hc, -, hkey, -⟩ := skipToToken_of_stops (s := start source) rfl
    (stops_cons (c := '{') (by decide)) ⟨before, hbefore, hrest.trans hsource⟩
  obtain rfl := hkey rfl
  let s := ((start source).moveTo c).allowKey true
  have hmark : s.markCandidate = s.within 0 [some ⟨0, c.mark, false⟩] := by
    show ({ s with candidates := [some ⟨0, c.mark, _ && false⟩] } : Layout) = _
    rw [Bool.and_false]
    rfl
  have hinside : (({ s.within 1 [none, some ⟨0, c.mark, false⟩] with
      inMapping := true } : Layout).allowKey true).Inside 1 [] :=
    ⟨rfl, rfl, rfl, rfl, rfl, rfl, rfl, rfl, .inner none (by simp) (.root c.mark), rfl⟩
  obtain ⟨d, hmargin, hd⟩ := skipMargin_behind (({ s.within 1 [none, some ⟨0, c.mark, false⟩] with
      inMapping := true } : Layout).allowKey true) hr
    (show (c.skip 1).IsBefore r from ⟨gap, hgap, by rw [Cursor.skip, hc]; rfl⟩)
  refine ⟨_, ?_, (hinside.moveTo d).push .flowMappingStart TokenKind.noConfusion c.mark,
    hd, rfl⟩
  have hread : (start source).next = s.readFlowStart .flowMappingStart := by
    have hskip : (start source).skipToToken = some s := hskip
    have hexpire : s.expireCandidates = some s := rfl
    have hdedent : s.dedentTo s.column = s := rfl
    have hrest : s.cursor.rest = '{' :: (gap ++ r) := hc
    have hcolumn : ¬ s.column < s.indent := by
      show ¬ (c.mark.col : Int) < -1
      omega
    have hmarks : atDocumentStart ('{' :: (gap ++ r)) = false ∧
        atDocumentEnd ('{' :: (gap ++ r)) = false := ⟨rfl, rfl⟩
    simp [next, hskip, hexpire, hdedent, hrest, hcolumn, hmarks, readToken]
  rw [hread, readFlowStart, hmark]
  exact congrArg (fun v : Option Layout => v.bind fun v => some (v.push .flowMappingStart c.mark))
    hmargin

/-! ## The end of a text -/

/-- What is known outside of all flow collections, when no block collection is open either. -/
structure Outside (s : Layout) (kinds : List TokenKind) : Prop where
  levels : s.levels = []
  depth_eq : s.depth = 0
  settled : s.settled ≤ s.count
  count : s.count = s.tokens.length
  kinds_eq : s.tokens.reverse.map Token.kind = kinds
  candidates : ∀ c, some c ∈ s.candidates → c.required = false
  isFinished : s.isFinished = false

/-- Where no candidate is a required one, those that are too far back are given up. -/
theorem expireCandidates_of_optional {s : Layout}
    (h : ∀ c, some c ∈ s.candidates → c.required = false) :
    ∃ cs, s.expireCandidates = some { s with candidates := cs } ∧
      ∀ c, some c ∈ cs → c.required = false := by
  have hnone : (s.candidates.any fun c => c.any fun c => s.isExpired c && c.required) = false := by
    rw [List.any_eq_false]
    intro c hc
    cases c with
    | none => simp
    | some c => simp [h c hc]
  refine ⟨s.candidates.map fun c => c.filter fun c => !s.isExpired c, ?_, fun c hc => ?_⟩
  · rw [expireCandidates, hnone]
    rfl
  · obtain ⟨d, hd, hcd⟩ := List.mem_map.mp hc
    obtain ⟨hmem, -⟩ := Option.filter_eq_some_iff.mp hcd
    exact h c (hmem ▸ hd)

theorem firstPlace_le (n : Nat) (cs : List (Option Candidate)) : firstPlace n cs ≤ n := by
  induction cs generalizing n with
  | nil => exact Nat.le_refl n
  | cons c cs ih =>
    cases c with
    | none => exact ih n
    | some c => exact Nat.le_trans (ih _) (Nat.min_le_left _ _)

theorem expireCandidates_of_none {s : Layout} (h : ∀ c ∈ s.candidates, c = none) :
    s.expireCandidates = some s := by
  have hkeep : (s.candidates.map fun c => c.filter fun c => !s.isExpired c) = s.candidates := by
    refine (List.map_congr_left fun c hc => ?_).trans (List.map_id _)
    rw [h c hc]
    rfl
  have hnone : (s.candidates.any fun c => c.any fun c => s.isExpired c && c.required) = false := by
    rw [List.any_eq_false]
    intro c hc
    simp [h c hc]
  rw [expireCandidates, hnone, hkeep]
  rfl

theorem firstPlace_of_none (n : Nat) {cs : List (Option Candidate)} (h : ∀ c ∈ cs, c = none) :
    firstPlace n cs = n := by
  induction cs with
  | nil => rfl
  | cons c cs ih =>
    obtain rfl := h c List.mem_cons_self
    exact ih fun c hc => h c (List.mem_cons_of_mem _ hc)

theorem dedentTo_of_levels {s : Layout} (h : s.levels = []) (column : Int) :
    s.dedentTo column = s := by
  rw [dedentTo, h]
  split <;> rfl

/-- At the end of the text all candidates are given up. -/
theorem readEnd_of_optional {s : Layout} (hlevels : s.levels = [])
    (h : ∀ c, some c ∈ s.candidates → c.required = false) :
    ∃ c, s.readEnd = some (Layout.push
      { s with cursor := c, candidates := s.candidates.map fun _ => none, keyAllowed := false }
        .streamEnd c.mark) := by
  have hdedent : ∀ c : Cursor,
      dedentTo { s with cursor := c, candidates := s.candidates.map fun _ => none } (-1) =
        { s with cursor := c, candidates := s.candidates.map fun _ => none } :=
    fun c => dedentTo_of_levels (s := { s with cursor := c, candidates := _ }) hlevels _
  refine ⟨if s.mark.col = 0 then s.cursor
    else { s.cursor with mark := ⟨s.mark.index, s.mark.line + 1, 0⟩ }, ?_⟩
  rw [readEnd]
  split
  · next hany =>
    obtain ⟨c, hc, hrequired⟩ := List.any_eq_true.mp hany
    cases c with
    | none => exact absurd hrequired (by simp)
    | some c => exact absurd hrequired (by simp [h c hc])
  · simp only [hdedent]
    rfl

variable {s : Layout} {kinds : List TokenKind}

/-- Behind the outermost collection one is outside of all. -/
theorem settleAll_of_closed (h : s.Inside 0 kinds) :
    ∃ u, s.settleAll = some u ∧ u.Outside kinds ∧ u.cursor = s.cursor := by
  have hoptional : ∀ c, some c ∈ s.candidates → c.required = false := by
    intro c hc
    have hopened := h.candidates
    generalize s.candidates = cs at hopened hc
    cases hopened with
    | root mark =>
      obtain rfl := Option.some.inj (List.mem_singleton.mp hc)
      rfl
  rw [settleAll]
  split
  · obtain ⟨cs, hexpire, hcs⟩ := expireCandidates_of_optional hoptional
    rw [hexpire]
    exact ⟨_, rfl, ⟨h.levels, h.depth_eq, firstPlace_le _ _, h.count, h.kinds_eq, hcs,
      h.isFinished⟩, rfl⟩
  · exact ⟨s, rfl, ⟨h.levels, h.depth_eq, h.settled ▸ Nat.zero_le _, h.count, h.kinds_eq, hoptional,
      h.isFinished⟩, rfl⟩

/-- **The end of the text is the last token**, and all tokens are settled. -/
theorem next_end (h : s.Outside kinds) (hbefore : s.cursor.IsBefore []) :
    ∃ t u, s.next = some t ∧ t.settleAll = some u ∧ u.isFinished = true ∧
      u.settledTokens.map Token.kind = kinds ++ [.streamEnd] := by
  obtain ⟨c, allowed, hskip, hc, -⟩ := skipToToken_of_stops h.levels stops_nil hbefore
  obtain ⟨cs, hexpire, hcs⟩ :=
    expireCandidates_of_optional (s := (s.moveTo c).allowKey allowed) h.candidates
  let v : Layout := { (s.moveTo c).allowKey allowed with candidates := cs }
  have hlevels : v.levels = [] := h.levels
  have hnext : s.next = v.readEnd := by
    have hrest : v.cursor.rest = [] := hc
    have hdedent : v.dedentTo v.column = v := dedentTo_of_levels hlevels _
    have hexpire : ((s.moveTo c).allowKey allowed).expireCandidates = some v := hexpire
    clear_value v
    simp only [next, hskip, hexpire, Option.bind_eq_bind, Option.bind_some, hdedent, hrest]
  obtain ⟨d, hread⟩ := readEnd_of_optional hlevels hcs
  let t : Layout := { v with cursor := d, candidates := cs.map fun _ => none, keyAllowed := false }
  have hread : v.readEnd = some (t.push .streamEnd d.mark) := hread
  have hnone : ∀ c ∈ (t.push .streamEnd d.mark).candidates, c = none := by
    intro c hc
    obtain ⟨c, -, rfl⟩ := List.mem_map.mp hc
    rfl
  have hsettle : (t.push .streamEnd d.mark).settleAll =
      some { t.push .streamEnd d.mark with settled := s.count + 1 } := by
    have hlt : (t.push .streamEnd d.mark).settled < (t.push .streamEnd d.mark).count :=
      Nat.lt_succ_of_le h.settled
    rw [settleAll, if_pos hlt, expireCandidates_of_none hnone, Option.map_some, settle,
      firstPlace_of_none _ hnone]
    rfl
  refine ⟨_, _, hnext.trans hread, hsettle, rfl, ?_⟩
  show (((⟨.streamEnd, d.mark⟩ :: s.tokens : List Token).reverse.take (s.count + 1)).map
    Token.kind) = _
  rw [List.take_of_length_le (by rw [List.length_reverse, List.length_cons, h.count]),
    List.reverse_cons, List.map_append, h.kinds_eq]
  rfl

/-! ## The whole text -/

/-- The tokens of an object up to the brace that closes it. -/
theorem leads_object {t : Json.Term} (ht : t.IsObject) (before after : Json.Blanks) :
    ∃ kinds, t.kinds = kinds ++ [.flowMappingEnd] ∧
      Leads t.Readable t.text.length (start (before.chars ++ (t.text ++ after.chars)))
        fun u => u.Inside 1 kinds ∧ u.cursor.IsBefore ('}' :: after.chars) := by
  have hnul : ∀ c ∈ before.chars ++ (t.text ++ after.chars), c ≠ '\x00' := by
    intro c hc
    rcases List.mem_append.mp hc with hc | hc
    · exact before.ne_nul c hc
    · rcases List.mem_append.mp hc with hc | hc
      · exact t.ne_nul c hc
      · exact after.ne_nul c hc
  cases t with
  | emptyObject gap =>
    have hfirst := next_start (r := '}' :: after.chars) hnul before.isGap gap.isGap
      (stops_cons (by decide)) (by simp [Json.Term.text])
    obtain ⟨u, hnext, hu, hcursor, -⟩ := hfirst
    refine ⟨[.flowMappingStart], rfl, ?_⟩
    have hopen : Leads True 1
        (start (before.chars ++ ((Json.Term.emptyObject gap).text ++ after.chars))) fun u =>
          u.Inside 1 [.flowMappingStart] ∧ u.cursor.IsBefore ('}' :: after.chars) :=
      leads_of_next rfl (fun _ => ⟨u, hnext, hu, hcursor⟩) fun hfalse => absurd trivial hfalse
    refine hopen.mono ?_ (Nat.succ_pos _) fun u hu => hu
    exact iff_of_true trivial (show 0 < maxDepth by decide)
  | object members =>
    have hfirst := next_start (r := members.inner ++ '}' :: after.chars) hnul before.isGap
      members.name.before.isGap (stops_members members _)
      (by simp [Json.Term.text, members.text_eq])
    obtain ⟨u, hnext, hu, hcursor, hkey⟩ := hfirst
    refine ⟨.flowMappingStart :: members.kinds, rfl, ?_⟩
    have hopen : Leads (0 < maxDepth) 1
        (start (before.chars ++ ((Json.Term.object members).text ++ after.chars))) fun u =>
          u.Inside 1 [.flowMappingStart] ∧
            u.cursor.IsBefore (members.inner ++ '}' :: after.chars) ∧ u.keyAllowed = true :=
      leads_of_next rfl (fun _ => ⟨u, hnext, hu, hcursor, hkey⟩) fun hfalse =>
        absurd (by decide) hfalse
    refine (hopen.bind fun u hu => leads_members members hu.1 hu.2.2 hu.2.1).mono Iff.rfl ?_
      fun u hu => hu
    simp only [Json.Term.text, List.length_cons, List.length_append]
    omega
  | literal => exact ht.elim
  | string => exact ht.elim
  | emptyArray => exact ht.elim
  | array => exact ht.elim

end Layout

/-- **The tokens of a JSON text** whose root is an object: those of its value and the end of the
text, or no token at all if the value cannot be read as YAML. -/
theorem TokenStream.ofText_of_isObject {t : Json.Term} (ht : t.IsObject)
    (before after : Json.Blanks) :
    (t.Readable → ∃ ts, ofText (before.chars ++ (t.text ++ after.chars)) = ⟨ts, false⟩ ∧
        ts.map Token.kind = t.kinds ++ [.streamEnd]) ∧
      (¬ t.Readable → ofText (before.chars ++ (t.text ++ after.chars)) = ⟨[], true⟩) := by
  obtain ⟨kinds, hkinds, hread, hstuck⟩ := Layout.leads_object ht before after
  have hlength : t.text.length ≤ (before.chars ++ (t.text ++ after.chars)).length := by
    simp only [List.length_append]
    omega
  constructor
  · intro hreadable
    obtain ⟨n, hn, u, hreads, hu, hcursor⟩ := hread hreadable
    rw [← List.append_nil after.chars] at hcursor
    obtain ⟨v, hnext, hv, hend⟩ :=
      Layout.next_of_close hu (.inr ⟨rfl, rfl⟩) after.isGap stops_nil hcursor
    obtain ⟨w, hsettle, hw, hcursor'⟩ := Layout.settleAll_of_closed hv
    obtain ⟨x, y, hnext', hsettle', hfinished, htokens⟩ :=
      Layout.next_end hw (hcursor' ▸ hend)
    obtain ⟨fuel, hfuel⟩ : ∃ fuel,
        (before.chars ++ (t.text ++ after.chars)).length + 2 = fuel + 2 + n :=
      ⟨(before.chars ++ (t.text ++ after.chars)).length - n, by omega⟩
    refine ⟨y.settledTokens, ?_, by rw [htokens, hkinds]⟩
    rw [ofText, hfuel, Layout.readAll_of_reads hreads, Layout.readAll, hnext]
    simp only [hsettle, hw.isFinished, Bool.false_eq_true, if_false]
    rw [Layout.readAll, hnext']
    simp only [hsettle', hfinished, if_true]
  · intro hreadable
    obtain ⟨n, hn, u, hreads, hnext, hsettled⟩ := hstuck hreadable
    obtain ⟨fuel, hfuel⟩ : ∃ fuel,
        (before.chars ++ (t.text ++ after.chars)).length + 2 = fuel + 1 + n :=
      ⟨(before.chars ++ (t.text ++ after.chars)).length + 1 - n, by omega⟩
    rw [ofText, hfuel, Layout.readAll_of_reads hreads, Layout.readAll, hnext]
    simp only [Layout.settledTokens, hsettled, List.take_zero]

end Yaml
end LintLocator
