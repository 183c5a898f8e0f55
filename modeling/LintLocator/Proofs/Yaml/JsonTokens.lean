import LintLocator.Proofs.Yaml.FlowLayout

/-!
# The tokens of a JSON text

Inside of the outermost collection a value is read token by token.  `Leads` is what is said of a
part of the text: if the part is good, it is read, and otherwise the text goes wrong before anything
is settled.  Parts that follow each other are put together with `Leads.bind`, so `leads_term`,
`leads_items` and `leads_members` go along with the grammar of JSON.
-/

namespace LintLocator

namespace Json

open Yaml (TokenKind)

theorem Blanks.isGap (b : Blanks) : ∀ c ∈ b.chars, Yaml.isGap c = true := by
  intro c hc
  rw [Yaml.isGap_eq_isBlank]
  exact b.blank c hc

/-- The blanks at the start of items. -/
def Items.before : Items → Blanks
  | .last before _ _ => before
  | .more before _ _ _ => before

/-- The text of items behind the blanks at its start. -/
def Items.inner : Items → List Char
  | .last _ item after => item.text ++ after.chars
  | .more _ item after others => item.text ++ (after.chars ++ ',' :: others.text)

theorem Items.text_eq (items : Items) : items.text = items.before.chars ++ items.inner := by
  cases items with
  | last => rfl
  | more => rfl

/-- The text of a name behind the blanks at its start. -/
def Name.inner (n : Name) : List Char :=
  quoted n.pieces ++ (n.after.chars ++ ':' :: n.behind.chars)

def Members.name : Members → Name
  | .last name _ _ => name
  | .more name _ _ _ => name

/-- The text of members behind the blanks at its start. -/
def Members.inner : Members → List Char
  | .last name value after => name.inner ++ (value.text ++ after.chars)
  | .more name value after others =>
    name.inner ++ (value.text ++ (after.chars ++ ',' :: others.text))

theorem Members.text_eq (members : Members) :
    members.text = members.name.before.chars ++ members.inner := by
  cases members with
  | last => simp [text, Name.text, inner, Name.inner, name]
  | more => simp [text, Name.text, inner, Name.inner, name]

mutual

/-- The tokens that a value stands for. -/
def Term.kinds : Term → List TokenKind
  | .literal text _ => [.scalar .plain text]
  | .string ps => [.scalar .doubleQuoted (plainText ps)]
  | .emptyArray _ => [.flowSequenceStart, .flowSequenceEnd]
  | .array items => .flowSequenceStart :: (items.kinds ++ [.flowSequenceEnd])
  | .emptyObject _ => [.flowMappingStart, .flowMappingEnd]
  | .object members => .flowMappingStart :: (members.kinds ++ [.flowMappingEnd])

def Items.kinds : Items → List TokenKind
  | .last _ item _ => item.kinds
  | .more _ item _ others => item.kinds ++ .flowEntry :: others.kinds

def Members.kinds : Members → List TokenKind
  | .last name value _ =>
    [.key, .scalar .doubleQuoted (plainText name.pieces), .value] ++ value.kinds
  | .more name value _ others =>
    [.key, .scalar .doubleQuoted (plainText name.pieces), .value] ++
      (value.kinds ++ .flowEntry :: others.kinds)

end

end Json

namespace Yaml
namespace Layout

/-! ## Several tokens -/

/-- That many tokens are read one after the other, and the end of the text is not among them. -/
inductive Reads : Nat → Layout → Layout → Prop where
  | refl (s : Layout) : Reads 0 s s
  | step {n : Nat} {s t u v : Layout} (hnext : s.next = some t) (hsettle : t.settleAll = some u)
      (hopen : u.isFinished = false) (h : Reads n u v) : Reads (n + 1) s v

theorem Reads.trans {m n : Nat} {s t u : Layout} (h : Reads m s t) (h' : Reads n t u) :
    Reads (m + n) s u := by
  induction h with
  | refl s => rwa [Nat.zero_add]
  | step hnext hsettle hopen h ih =>
    rw [Nat.add_right_comm]
    exact .step hnext hsettle hopen (ih h')

theorem readAll_of_reads {n : Nat} {s u : Layout} (h : Reads n s u) (fuel : Nat) :
    readAll (fuel + n) s = readAll fuel u := by
  induction h with
  | refl s => rfl
  | step hnext hsettle hopen h ih =>
    rw [← Nat.add_assoc, readAll, hnext]
    simp only [hsettle, hopen, Bool.false_eq_true, if_false]
    exact ih

/-- If it is good, a state is reached in which `P` holds, and otherwise the text goes wrong before
anything has been settled. -/
def Leads (good : Prop) (n : Nat) (s : Layout) (P : Layout → Prop) : Prop :=
  (good → ∃ k ≤ n, ∃ u, Reads k s u ∧ P u) ∧
    (¬ good → ∃ k ≤ n, ∃ u, Reads k s u ∧ u.next = none ∧ u.settled = 0)

theorem Leads.bind {good good' : Prop} {m n : Nat} {s : Layout} {P Q : Layout → Prop}
    (h : Leads good m s P) (h' : ∀ u, P u → Leads good' n u Q) :
    Leads (good ∧ good') (m + n) s Q := by
  by_cases hgood : good
  · obtain ⟨j, hj, t, hreads, ht⟩ := h.1 hgood
    obtain ⟨hfound, hlost⟩ := h' t ht
    constructor
    · rintro ⟨-, hgood'⟩
      obtain ⟨k, hk, u, hreads', hu⟩ := hfound hgood'
      exact ⟨j + k, Nat.add_le_add hj hk, u, hreads.trans hreads', hu⟩
    · intro hbad
      obtain ⟨k, hk, u, hreads', hu⟩ := hlost fun hgood' => hbad ⟨hgood, hgood'⟩
      exact ⟨j + k, Nat.add_le_add hj hk, u, hreads.trans hreads', hu⟩
  · obtain ⟨k, hk, hlost⟩ := h.2 hgood
    exact ⟨fun hboth => absurd hboth.1 hgood, fun _ => ⟨k, Nat.le_trans hk (Nat.le_add_right m n),
      hlost⟩⟩

theorem Leads.mono {good good' : Prop} {m n : Nat} {s : Layout} {P Q : Layout → Prop}
    (h : Leads good m s P) (hgood : good ↔ good') (hle : m ≤ n) (hP : ∀ u, P u → Q u) :
    Leads good' n s Q := by
  refine ⟨fun hg => ?_, fun hg => ?_⟩
  · obtain ⟨k, hk, u, hreads, hu⟩ := h.1 (hgood.mpr hg)
    exact ⟨k, Nat.le_trans hk hle, u, hreads, hP u hu⟩
  · obtain ⟨k, hk, hlost⟩ := h.2 fun hg' => hg (hgood.mp hg')
    exact ⟨k, Nat.le_trans hk hle, hlost⟩

variable {s : Layout} {depth : Nat} {kinds : List TokenKind}

/-- One token is read, inside of a collection that goes on behind it. -/
theorem leads_of_next (h : s.settled = 0) {good : Prop} {P : Layout → Prop}
    (hsome : good → ∃ u, s.next = some u ∧ u.Inside (depth + 1) kinds ∧ P u)
    (hnone : ¬ good → s.next = none) :
    Leads good 1 s fun u => u.Inside (depth + 1) kinds ∧ P u := by
  refine ⟨fun hg => ?_, fun hg => ⟨0, Nat.zero_le 1, s, .refl s, hnone hg, h⟩⟩
  obtain ⟨u, hnext, hu, hP⟩ := hsome hg
  exact ⟨1, Nat.le_refl 1, u, .step hnext hu.settleAll_eq hu.isFinished (.refl u), hu, hP⟩

/-! ## The tokens of a text -/

theorem next_of_isFlow (h : s.Inside (depth + 1) kinds) {ch : Char} (hch : isFlow ch = true)
    {r : List Char} (hbefore : s.cursor.IsBefore (ch :: r)) :
    ∃ c, (c.skip 1).rest = r ∧ s.next = (s.moveTo c).readToken ch r := by
  obtain ⟨hgap, hcomment, hdirective, hdash, hdot⟩ := ne_of_isFlow hch
  obtain ⟨c, hc, hnext, -⟩ := next_of_stops h hbefore ⟨hgap, hcomment⟩ hdirective
    (atDocumentMark_eq_false hdash hdot)
  exact ⟨c, by rw [Cursor.skip, hc]; rfl, hnext⟩

/-- A bracket opens a collection. -/
theorem leads_open (h : s.Inside (depth + 1) kinds) {ch : Char} {kind : TokenKind}
    (hkind : ch = '[' ∧ kind = .flowSequenceStart ∨ ch = '{' ∧ kind = .flowMappingStart)
    {gap r : List Char} (hgap : ∀ ch ∈ gap, isGap ch = true) (hr : Stops r)
    (hbefore : s.cursor.IsBefore (ch :: (gap ++ r))) :
    Leads (depth + 1 < maxDepth) 1 s fun u => u.Inside (depth + 2) (kinds ++ [kind]) ∧
      u.cursor.IsBefore r ∧ u.keyAllowed = true := by
  have hch : isFlow ch = true := by rcases hkind with ⟨rfl, -⟩ | ⟨rfl, -⟩ <;> rfl
  have hend : kind ≠ .streamEnd := by
    rcases hkind with ⟨-, rfl⟩ | ⟨-, rfl⟩ <;> exact TokenKind.noConfusion
  obtain ⟨c, hc, hnext⟩ := next_of_isFlow h hch hbefore
  have hread : s.next = (s.moveTo c).readFlowStart kind := by
    rcases hkind with ⟨rfl, rfl⟩ | ⟨rfl, rfl⟩ <;> exact hnext
  obtain ⟨hsome, hnone⟩ := readFlowStart_of_inside (h.moveTo c) hend hr ⟨gap, hgap, hc⟩
  rw [← hread] at hsome hnone
  exact leads_of_next h.settled hsome hnone

/-- A comma leads to the next entry. -/
theorem leads_comma (h : s.Inside (depth + 1) kinds) {gap r : List Char}
    (hgap : ∀ ch ∈ gap, isGap ch = true) (hr : Stops r)
    (hbefore : s.cursor.IsBefore (',' :: (gap ++ r))) :
    Leads True 1 s fun u => u.Inside (depth + 1) (kinds ++ [.flowEntry]) ∧
      u.cursor.IsBefore r ∧ u.keyAllowed = true := by
  obtain ⟨c, hc, hnext⟩ := next_of_isFlow h rfl hbefore
  have hsome := readFlowEntry_of_inside (h.moveTo c) hr ⟨gap, hgap, hc⟩
  exact leads_of_next h.settled (fun _ => hnext ▸ hsome) fun hfalse => absurd trivial hfalse

/-- What a bracket does that closes a collection. -/
theorem next_of_close (h : s.Inside (depth + 1) kinds) {ch : Char} {kind : TokenKind}
    (hkind : ch = ']' ∧ kind = .flowSequenceEnd ∨ ch = '}' ∧ kind = .flowMappingEnd)
    {gap r : List Char} (hgap : ∀ ch ∈ gap, isGap ch = true) (hr : Stops r)
    (hbefore : s.cursor.IsBefore (ch :: (gap ++ r))) :
    ∃ u, s.next = some u ∧ u.Inside depth (kinds ++ [kind]) ∧ u.cursor.IsBefore r := by
  have hch : isFlow ch = true := by rcases hkind with ⟨rfl, -⟩ | ⟨rfl, -⟩ <;> rfl
  have hend : kind ≠ .streamEnd := by
    rcases hkind with ⟨-, rfl⟩ | ⟨-, rfl⟩ <;> exact TokenKind.noConfusion
  obtain ⟨c, hc, hnext⟩ := next_of_isFlow h hch hbefore
  have hread : s.next = (s.moveTo c).readFlowEnd kind := by
    rcases hkind with ⟨rfl, rfl⟩ | ⟨rfl, rfl⟩ <;> exact hnext
  rw [hread]
  exact readFlowEnd_of_inside (h.moveTo c) hend hr ⟨gap, hgap, hc⟩

/-- A bracket closes a collection inside of another one. -/
theorem leads_close (h : s.Inside (depth + 2) kinds) {ch : Char} {kind : TokenKind}
    (hkind : ch = ']' ∧ kind = .flowSequenceEnd ∨ ch = '}' ∧ kind = .flowMappingEnd)
    {gap r : List Char} (hgap : ∀ ch ∈ gap, isGap ch = true) (hr : Stops r)
    (hbefore : s.cursor.IsBefore (ch :: (gap ++ r))) :
    Leads True 1 s fun u => u.Inside (depth + 1) (kinds ++ [kind]) ∧ u.cursor.IsBefore r :=
  leads_of_next h.settled (fun _ => next_of_close h hkind hgap hr hbefore)
    fun hfalse => absurd trivial hfalse

theorem readToken_of_starts {text : List Char} (htext : Json.Starts text) {ch : Char}
    {r r' : List Char} (hsplit : text ++ r = ch :: r') (s : Layout) :
    s.readToken ch r' = s.readPlainScalar := by
  cases htext with
  | word c text hc =>
    obtain ⟨rfl, -⟩ := List.cons.inj hsplit
    unfold readToken
    split <;> first | rfl | exact absurd hc (by decide)
  | minus c text hc =>
    obtain ⟨rfl, rfl⟩ := List.cons.inj hsplit
    have halone : isGap c = false := (isGap_isFlow_of_isLiteralChar (.inl hc)).1
    show (if isGap c = true then s.readBlockEntry else s.readPlainScalar) = _
    rw [if_neg (by simp [halone])]

theorem leads_literal (h : s.Inside (depth + 1) kinds) {text gap r : List Char}
    (htext : Json.IsLiteral text) (hgap : ∀ ch ∈ gap, isGap ch = true) (hr : EndsValue r)
    (hbefore : s.cursor.IsBefore (text ++ (gap ++ r))) :
    Leads True 1 s fun u => u.Inside (depth + 1) (kinds ++ [.scalar .plain text]) ∧
      u.cursor.IsBefore r := by
  obtain ⟨hstarts, hchars⟩ := htext.starts_and_forall
  obtain ⟨hmark, hcomment, -⟩ := not_mark_of_starts hstarts (gap ++ r)
  obtain ⟨ch, r', hsplit⟩ : ∃ ch r', text ++ (gap ++ r) = ch :: r' := by
    cases hstarts with
    | word c text hc => exact ⟨_, _, rfl⟩
    | minus c text hc => exact ⟨_, _, rfl⟩
  have hmem : Json.IsLiteralChar ch := by
    cases hstarts with
    | word c text hc =>
      obtain ⟨rfl, -⟩ := List.cons.inj hsplit
      exact .inl hc
    | minus c text hc =>
      obtain ⟨rfl, -⟩ := List.cons.inj hsplit
      exact .inr (.inr (.inl rfl))
  rw [hsplit] at hmark hcomment hbefore
  have hdirective : ch ≠ '%' := by
    rintro rfl
    rcases hmem with h | h | h | h
    all_goals exact absurd h (by decide)
  obtain ⟨c, hc, hnext, -⟩ := next_of_stops h hbefore
    ⟨(isGap_isFlow_of_isLiteralChar hmem).1, by simpa [startsWith] using hcomment⟩ hdirective hmark
  rw [readToken_of_starts hstarts hsplit] at hnext
  obtain ⟨u, hread, hu, hrest⟩ := readPlainScalar_of_inside (h.moveTo c) htext hgap hr
    (hc.trans hsplit.symm)
  exact leads_of_next h.settled (fun _ => ⟨u, hnext.trans hread, hu, Cursor.isBefore_of_rest hrest⟩)
    fun hfalse => absurd trivial hfalse

/-- What may come behind a string. -/
def EndsString (r : List Char) : Prop := EndsValue r ∨ ∃ later, r = ':' :: later

theorem EndsString.stops {r : List Char} (h : EndsString r) : Stops r := by
  rcases h with h | ⟨later, rfl⟩
  · exact h.stops
  · exact stops_cons (by decide)

/-- A string is read with the gap behind it. -/
theorem leads_string (h : s.Inside (depth + 1) kinds) {ps : List Json.Piece} {gap r : List Char}
    (hgap : ∀ ch ∈ gap, isGap ch = true) (hr : EndsString r)
    (hbefore : s.cursor.IsBefore (Json.quoted ps ++ (gap ++ r))) :
    Leads (Json.IsPlainText ps) 1 s fun u =>
      u.Inside (depth + 1) (kinds ++ [.scalar .doubleQuoted (Json.plainText ps)]) ∧
        u.cursor.rest = r ∧ u.adjacentValue = u.mark.index ∧ (s.keyAllowed = true →
          ∃ mark outer, u.candidates = some ⟨u.count - 1, mark, false⟩ :: outer) := by
  obtain ⟨c, hc, hnext, -⟩ := next_of_stops h hbefore (by decide) (by decide) rfl
  have hfollow :
      startsWith (fun ch => ch == ',' || ch == '}' || ch == ']' || ch == ':') r = true := by
    rcases hr with ⟨ch, later, rfl, rfl | rfl | rfl⟩ | ⟨later, rfl⟩
    all_goals rfl
  obtain ⟨hsome, hnone⟩ := readQuotedScalar_of_inside (h.moveTo c) hr.stops hfollow hgap hc
  have hread : s.next = (s.moveTo c).readQuotedScalar '"' := hnext
  rw [← hread] at hsome hnone
  refine leads_of_next h.settled (fun hps => ?_) hnone
  obtain ⟨u, hu, hinside, hrest, hadjacent, hkey⟩ := hsome hps
  refine ⟨u, hu, hinside, hrest, hadjacent, fun hallowed => ?_⟩
  obtain ⟨outer, houter⟩ := hkey hallowed
  exact ⟨_, outer, houter⟩

/-- A `:` directly behind a key makes it one. -/
theorem leads_colon {kind : TokenKind} (h : s.Inside (depth + 1) (kinds ++ [kind])) {mark : Mark}
    {outer : List (Option Candidate)}
    (hkey : s.candidates = some ⟨s.count - 1, mark, false⟩ :: outer)
    (hadjacent : s.adjacentValue = s.mark.index) {gap r : List Char}
    (hgap : ∀ ch ∈ gap, isGap ch = true) (hr : Stops r)
    (hrest : s.cursor.rest = ':' :: (gap ++ r)) :
    Leads (¬ IsTabbed gap r) 1 s fun u =>
      u.Inside (depth + 1) (kinds ++ [.key, kind, .value]) ∧ u.cursor.IsBefore r := by
  obtain ⟨c, -, hnext, hstay⟩ := next_of_stops h (Cursor.isBefore_of_rest hrest) (by decide)
    (by decide) rfl
  obtain rfl := hstay hrest
  have hnext : s.next = s.readToken ':' (gap ++ r) := hnext
  have hread : s.readToken ':' (gap ++ r) = s.readValue := by
    show (if _ then s.readValue else s.readPlainScalar) = _
    rw [if_pos]
    simp [h.inFlow, hadjacent]
  obtain ⟨hsome, hnone⟩ := readValue_of_inside h hkey hgap hr hrest
  rw [hread] at hnext
  rw [← hnext] at hsome hnone
  exact leads_of_next h.settled hsome fun htab => hnone (Classical.not_not.mp htab)

/-- A value starts with a character of its own. -/
theorem exists_text (t : Json.Term) :
    ∃ ch left, t.text = ch :: left ∧ isGap ch = false ∧ ch ≠ '#' ∧
      (isWord ch = true ↔ t.IsWord) := by
  cases t with
  | literal text htext =>
    obtain ⟨hstarts, -⟩ := htext.starts_and_forall
    cases hstarts with
    | word c left hc =>
      refine ⟨c, left, rfl, (isGap_isFlow_of_isLiteralChar (.inl hc)).1, ne_of_isAlphanum hc rfl,
        fun _ => trivial, fun _ => ?_⟩
      rw [isWord, hc]
      rfl
    | minus c left hc => exact ⟨'-', c :: left, rfl, rfl, by decide, fun _ => trivial, fun _ => rfl⟩
  | string ps => exact ⟨'"', _, rfl, rfl, by decide, fun h => absurd h (by decide), False.elim⟩
  | emptyArray gap => exact ⟨'[', _, rfl, rfl, by decide, fun h => absurd h (by decide), False.elim⟩
  | array items => exact ⟨'[', _, rfl, rfl, by decide, fun h => absurd h (by decide), False.elim⟩
  | emptyObject gap =>
    exact ⟨'{', _, rfl, rfl, by decide, fun h => absurd h (by decide), False.elim⟩
  | object members =>
    exact ⟨'{', _, rfl, rfl, by decide, fun h => absurd h (by decide), False.elim⟩

theorem stops_text (t : Json.Term) (r : List Char) : Stops (t.text ++ r) := by
  obtain ⟨ch, left, htext, hgap, hcomment, -⟩ := exists_text t
  rw [htext]
  exact stops_cons ⟨hgap, hcomment⟩

theorem isTabbed_iff (gap : Json.Blanks) (t : Json.Term) (r : List Char) :
    IsTabbed gap.chars (t.text ++ r) ↔ t.IsTabbed gap := by
  obtain ⟨ch, left, htext, -, -, hword⟩ := exists_text t
  rw [IsTabbed, Json.Term.IsTabbed, ← hword, htext]
  constructor
  · rintro ⟨hne, htabs, hstart⟩
    exact ⟨hstart, hne, htabs⟩
  · rintro ⟨hstart, hne, htabs⟩
    exact ⟨hne, htabs, hstart⟩

theorem stops_items (items : Json.Items) (r : List Char) : Stops (items.inner ++ r) := by
  cases items with
  | last before item after =>
    rw [Json.Items.inner, List.append_assoc]
    exact stops_text item _
  | more before item after others =>
    rw [Json.Items.inner, List.append_assoc]
    exact stops_text item _

theorem stops_members (members : Json.Members) (r : List Char) : Stops (members.inner ++ r) := by
  cases members with
  | last name value after => exact stops_cons (by decide)
  | more name value after others => exact stops_cons (by decide)

/-- A name is read with its `:`. -/
theorem leads_name (h : s.Inside (depth + 1) kinds) (hkey : s.keyAllowed = true)
    {name : Json.Name} {value : Json.Term} {r : List Char}
    (hbefore : s.cursor.IsBefore (name.inner ++ (value.text ++ r))) :
    Leads (Json.IsPlainText name.pieces ∧ ¬ value.IsTabbed name.behind) 2 s fun u =>
      u.Inside (depth + 1)
          (kinds ++ [.key, .scalar .doubleQuoted (Json.plainText name.pieces), .value]) ∧
        u.cursor.IsBefore (value.text ++ r) := by
  have hbefore : s.cursor.IsBefore (Json.quoted name.pieces ++
      (name.after.chars ++ ':' :: (name.behind.chars ++ (value.text ++ r)))) := by
    simpa [Json.Name.inner] using hbefore
  refine Leads.bind (m := 1) (n := 1)
    (leads_string h name.after.isGap (.inr ⟨_, rfl⟩) hbefore) fun u hu => ?_
  obtain ⟨hinside, hrest, hadjacent, hcandidate⟩ := hu
  obtain ⟨mark, outer, hcandidates⟩ := hcandidate hkey
  rw [← isTabbed_iff name.behind value r]
  exact leads_colon hinside hcandidates hadjacent name.behind.isGap (stops_text value r) hrest

mutual

/-- **A value is read as its tokens.** -/
theorem leads_term (t : Json.Term) {s : Layout} {depth : Nat} {kinds : List TokenKind}
    (h : s.Inside (depth + 1) kinds) {gap r : List Char} (hgap : ∀ ch ∈ gap, isGap ch = true)
    (hr : EndsValue r) (hbefore : s.cursor.IsBefore (t.text ++ (gap ++ r))) :
    Leads (t.ReadableAt (depth + 1)) t.text.length s fun u =>
      u.Inside (depth + 1) (kinds ++ t.kinds) ∧ u.cursor.IsBefore r := by
  cases t with
  | literal text htext =>
    refine (leads_literal h htext hgap hr hbefore).mono Iff.rfl ?_ fun u hu => hu
    obtain ⟨ch, left, htext', -⟩ := exists_text (.literal text htext)
    rw [htext', List.length_cons]
    omega
  | string ps =>
    refine (leads_string h hgap (.inl hr) hbefore).mono Iff.rfl (Nat.succ_pos _)
      fun u hu => ⟨hu.1, Cursor.isBefore_of_rest hu.2.1⟩
  | emptyArray gap' =>
    have hbefore : s.cursor.IsBefore ('[' :: (gap'.chars ++ ']' :: (gap ++ r))) := by
      simpa [Json.Term.text] using hbefore
    refine ((leads_open h (.inl ⟨rfl, rfl⟩) gap'.isGap (stops_cons (by decide)) hbefore).bind
      fun u hu => leads_close hu.1 (.inl ⟨rfl, rfl⟩) hgap hr.stops hu.2.1).mono
        (iff_of_eq (and_true _)) ?_ fun u hu => ?_
    · simp [Json.Term.text]
    · rwa [List.append_assoc] at hu
  | array items =>
    have hbefore : s.cursor.IsBefore
        ('[' :: (items.before.chars ++ (items.inner ++ ']' :: (gap ++ r)))) := by
      simpa [Json.Term.text, items.text_eq] using hbefore
    have hopen := leads_open h (.inl ⟨rfl, rfl⟩) items.before.isGap (stops_items items _) hbefore
    refine ((hopen.bind fun u hu => leads_items items hu.1 hu.2.1).bind fun u hu =>
      leads_close hu.1 (.inl ⟨rfl, rfl⟩) hgap hr.stops hu.2).mono (iff_of_eq (and_true _)) ?_
        fun u hu => ?_
    · simp only [Json.Term.text, List.length_cons, List.length_append, List.length_nil]
      omega
    · rwa [List.append_assoc, List.append_assoc] at hu
  | emptyObject gap' =>
    have hbefore : s.cursor.IsBefore ('{' :: (gap'.chars ++ '}' :: (gap ++ r))) := by
      simpa [Json.Term.text] using hbefore
    refine ((leads_open h (.inr ⟨rfl, rfl⟩) gap'.isGap (stops_cons (by decide)) hbefore).bind
      fun u hu => leads_close hu.1 (.inr ⟨rfl, rfl⟩) hgap hr.stops hu.2.1).mono
        (iff_of_eq (and_true _)) ?_ fun u hu => ?_
    · simp [Json.Term.text]
    · rwa [List.append_assoc] at hu
  | object members =>
    have hbefore : s.cursor.IsBefore
        ('{' :: (members.name.before.chars ++ (members.inner ++ '}' :: (gap ++ r)))) := by
      simpa [Json.Term.text, members.text_eq] using hbefore
    have hopen := leads_open h (.inr ⟨rfl, rfl⟩) members.name.before.isGap
      (stops_members members _) hbefore
    refine ((hopen.bind fun u hu => leads_members members hu.1 hu.2.2 hu.2.1).bind fun u hu =>
      leads_close hu.1 (.inr ⟨rfl, rfl⟩) hgap hr.stops hu.2).mono (iff_of_eq (and_true _)) ?_
        fun u hu => ?_
    · simp only [Json.Term.text, List.length_cons, List.length_append, List.length_nil]
      omega
    · rwa [List.append_assoc, List.append_assoc] at hu

/-- The items of an array are read as their tokens. -/
theorem leads_items (items : Json.Items) {s : Layout} {depth : Nat} {kinds : List TokenKind}
    (h : s.Inside (depth + 1) kinds) {r : List Char}
    (hbefore : s.cursor.IsBefore (items.inner ++ ']' :: r)) :
    Leads (items.ReadableAt (depth + 1)) items.text.length s fun u =>
      u.Inside (depth + 1) (kinds ++ items.kinds) ∧ u.cursor.IsBefore (']' :: r) := by
  cases items with
  | last before item after =>
    have hbefore : s.cursor.IsBefore (item.text ++ (after.chars ++ ']' :: r)) := by
      simpa [Json.Items.inner] using hbefore
    refine (leads_term item h after.isGap ⟨_, _, rfl, .inr (.inl rfl)⟩ hbefore).mono Iff.rfl ?_
      fun u hu => hu
    simp only [Json.Items.text, List.length_append]
    omega
  | more before item after others =>
    have hbefore : s.cursor.IsBefore (item.text ++ (after.chars ++
        ',' :: (others.before.chars ++ (others.inner ++ ']' :: r)))) := by
      simpa [Json.Items.inner, others.text_eq] using hbefore
    have hitem := leads_term item h after.isGap ⟨_, _, rfl, .inl rfl⟩ hbefore
    have hcomma := hitem.bind fun u hu =>
      leads_comma hu.1 others.before.isGap (stops_items others _) hu.2
    refine (hcomma.bind fun u hu => leads_items others hu.1 hu.2.1).mono ?_ ?_ fun u hu => ?_
    · rw [and_true]
      rfl
    · simp only [Json.Items.text, List.length_append, List.length_cons]
      omega
    · rwa [List.append_assoc, List.append_assoc] at hu

/-- The members of an object are read as their tokens. -/
theorem leads_members (members : Json.Members) {s : Layout} {depth : Nat} {kinds : List TokenKind}
    (h : s.Inside (depth + 1) kinds) (hkey : s.keyAllowed = true) {r : List Char}
    (hbefore : s.cursor.IsBefore (members.inner ++ '}' :: r)) :
    Leads (members.ReadableAt (depth + 1)) members.text.length s fun u =>
      u.Inside (depth + 1) (kinds ++ members.kinds) ∧ u.cursor.IsBefore ('}' :: r) := by
  cases members with
  | last name value after =>
    have hbefore : s.cursor.IsBefore (name.inner ++ (value.text ++ (after.chars ++ '}' :: r))) := by
      simpa [Json.Members.inner] using hbefore
    have hname := leads_name h hkey hbefore
    refine (hname.bind fun u hu => leads_term value hu.1 after.isGap
      ⟨_, _, rfl, .inr (.inr rfl)⟩ hu.2).mono and_assoc ?_ fun u hu => ?_
    · simp only [Json.Members.text, Json.Name.text, Json.quoted, List.length_append,
        List.length_cons]
      omega
    · rwa [List.append_assoc] at hu
  | more name value after others =>
    have hbefore : s.cursor.IsBefore (name.inner ++ (value.text ++ (after.chars ++
        ',' :: (others.name.before.chars ++ (others.inner ++ '}' :: r))))) := by
      simpa [Json.Members.inner, others.text_eq] using hbefore
    have hvalue := (leads_name h hkey hbefore).bind fun u hu =>
      leads_term value hu.1 after.isGap ⟨_, _, rfl, .inl rfl⟩ hu.2
    have hcomma := hvalue.bind fun u hu =>
      leads_comma hu.1 others.name.before.isGap (stops_members others _) hu.2
    refine (hcomma.bind fun u hu => leads_members others hu.1 hu.2.2 hu.2.1).mono ?_ ?_
      fun u hu => ?_
    · rw [and_true, and_assoc, and_assoc]
      rfl
    · simp only [Json.Members.text, Json.Name.text, Json.quoted, List.length_append,
        List.length_cons]
      omega
    · rwa [List.append_assoc, List.append_assoc, List.append_assoc] at hu

end

end Layout
end Yaml
end LintLocator
