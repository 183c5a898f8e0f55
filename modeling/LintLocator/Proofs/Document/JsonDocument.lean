import LintLocator.Proofs.Document.JsonEvents
import LintLocator.Proofs.Document.Streaming
import LintLocator.Proofs.Yaml.JsonText

/-!
# JSON files as files of documents

A file may be JSON.  It is read as YAML all the same, because YAML is said to include JSON.  That is
nearly so: `decodeAll_json` says of every JSON text whose root is an object what comes of it.  If
the object is `Readable`, there is one document, and it says what the object says.  If it is not,
the text counts as malformed.

* `exists_document`: the tokens of a value become the events of one document;
* `decodeAll_of_failed`: without any token there is no document;
* `decodeAll_json`: both put together with what is known of the tokens.
-/

namespace LintLocator
namespace Document

open Yaml (Token TokenKind TokenStream Event EventKind EventStream Grammar Mark)

/-! ## One document -/

/-- The tokens of a value, followed by the end of the text, are those of one document. -/
theorem exists_document {t : Json.Term} {ts : List Token}
    (hts : ts.map Token.kind = t.kinds ++ [.streamEnd]) :
    ∃ (o : Outline) (m₁ m₂ : Mark), EventStream.ofTokens ⟨ts, false⟩ =
        ⟨⟨.documentStart, m₁⟩ :: (o.events ++ [⟨.documentEnd, m₂⟩]), false⟩ ∧
      ∀ lines table, (o.denote lines table).1.datum = t.plainDatum := by
  obtain ⟨ts, last, rfl, hnode, hlast⟩ := List.map_eq_append_iff.mp hts
  obtain ⟨m₂, others, rfl, hothers⟩ := exists_token hlast
  obtain rfl := List.map_eq_nil_iff.mp hothers
  obtain ⟨o, hread, hlength, hdatum⟩ := exists_node t hnode
  obtain ⟨kind, kinds, hkinds, hstart⟩ := exists_kinds t
  obtain ⟨m₁, later, rfl, hlater⟩ := exists_token (hnode.trans hkinds)
  refine ⟨o, m₁, m₂, ?_, hdatum⟩
  let g : Grammar := Grammar.start (⟨kind, m₁⟩ :: later ++ [⟨.streamEnd, m₂⟩])
  let h : Grammar := { g with stack := [.node, .documentEnd], anchors := [] }
  have hfirst : g.step = .event ⟨.documentStart, m₁⟩ h := by
    cases kind <;> first | rfl | exact hstart.elim
  obtain ⟨e, es, k, hevents, hnode', hemits⟩ := hread h true false [⟨.streamEnd, m₂⟩]
    [.documentEnd] rfl
  have hroot : h.step = .event e k := by
    rw [Grammar.step_of_node rfl, hnode']
    rfl
  let behind : Grammar := h.goOn [⟨.streamEnd, m₂⟩] [.document false]
  have hend : (h.goOn [⟨.streamEnd, m₂⟩] [.documentEnd]).step = .event ⟨.documentEnd, m₂⟩ behind :=
    rfl
  have hall : g.Emits (⟨.documentStart, m₁⟩ :: (o.events ++ [⟨.documentEnd, m₂⟩])) behind := by
    rw [hevents]
    exact .step hfirst (.step hroot (hemits.trans (.step hend (.refl _))))
  have hdone : ∀ fuel, Grammar.steps (fuel + 1) behind = ([], false) := fun _ => rfl
  obtain ⟨fuel, hfuel⟩ : ∃ fuel, 8 * (⟨kind, m₁⟩ :: later ++ [⟨.streamEnd, m₂⟩] : List Token).length
      + 8 = fuel + 1 +
        (⟨.documentStart, m₁⟩ :: (o.events ++ [⟨.documentEnd, m₂⟩]) : List Event).length := by
    simp only [List.length_cons, List.length_append, List.length_nil] at hlength ⊢
    exact ⟨8 * (later.length + 1 + (0 + 1)) + 8 - (o.events.length + (0 + 1) + 1) - 1, by omega⟩
  have hsteps := Grammar.steps_of_emits hall (fuel + 1)
  rw [hdone, List.append_nil] at hsteps
  rw [EventStream.ofTokens, hfuel, hsteps]

/-! ## JSON texts -/

/-- Where the text goes wrong before its first token, nothing comes of it. -/
theorem decodeAll_of_failed {source : List Char}
    (h : TokenStream.ofText source = ⟨[], true⟩) :
    decodeAll (String.ofList source) = [.malformed] := by
  rw [decodeAll, String.toList_ofList, Stream.ofText, h]
  rfl

/-- **What comes of a JSON text** whose root is an object, whatever blanks, escapes and digits it is
written with.  A readable one is one document that says what the text says; any other is
malformed. -/
theorem decodeAll_json {t : Json.Term} (ht : t.IsObject) (before after : Json.Blanks) :
    (t.Readable → ∃ u : Tree,
        decodeAll (String.ofList (before.chars ++ (t.text ++ after.chars))) = [.document u] ∧
        t.datum? = some u.datum) ∧
      (¬ t.Readable →
        decodeAll (String.ofList (before.chars ++ (t.text ++ after.chars))) = [.malformed]) := by
  obtain ⟨hreadable, hmalformed⟩ := TokenStream.ofText_of_isObject ht before after
  constructor
  · intro h
    obtain ⟨ts, hts, hkinds⟩ := hreadable h
    obtain ⟨o, m₁, m₂, hevents, hdatum⟩ := exists_document hkinds
    let lines := Text.lines (before.chars ++ (t.text ++ after.chars))
    refine ⟨(o.denote lines []).1, ?_, ?_⟩
    · rw [decodeAll, String.toList_ofList, Stream.ofText, hts, hevents, toList_of_one]
    · rw [hdatum, t.datum?_of_readableAt h]
  · intro h
    exact decodeAll_of_failed (hmalformed h)

/-- The object `{"a": [true, "é"]}` with the `é` written as an escape: it is readable. -/
theorem decodeAll_json_of_escape :
    ∃ t : Json.Term, t.IsObject ∧ t.Readable ∧
      String.ofList t.text = "\x7b\"a\": [true, \"\\u00e9\"]\x7d" ∧
      ∃ u : Tree, decodeAll "\x7b\"a\": [true, \"\\u00e9\"]\x7d" = [.document u] ∧
        u.datum = .mapping [(.scalar "a", .sequence [.scalar "true", .scalar "é"])] := by
  let none : Json.Blanks := ⟨[], by simp⟩
  let space : Json.Blanks := ⟨[' '], List.forall_mem_singleton.mpr rfl⟩
  let word : Json.Term := .literal ['t', 'r', 'u', 'e'] (.inl rfl)
  let escape : Json.Term := .string [.code ['0', '0', 'e', '9'] 0xe9 rfl rfl]
  let t : Json.Term := .object (.last ⟨none, [.plain 'a' (by decide)], none, space⟩
    (.array (.more none word none (.last space escape none))) none)
  have ht : t.IsObject := trivial
  have hreadable : t.Readable := by
    refine ⟨by decide, fun p hp => ?_, fun h => h.1, by decide, trivial, fun p hp => ?_⟩
    · obtain rfl := List.mem_singleton.mp hp
      rfl
    · obtain rfl := List.mem_singleton.mp hp
      rfl
  obtain ⟨u, hu, hdatum⟩ := (decodeAll_json ht none none).1 hreadable
  have hlist : none.chars ++ (t.text ++ none.chars) = t.text := List.append_nil _
  rw [hlist] at hu
  exact ⟨t, ht, hreadable, rfl, u, hu, (Option.some.inj hdatum).symm⟩

/-- Two objects that are not readable, though they are written as JSON wants it: only a tab stands
between a `:` and a number, or a character is written as a surrogate pair. -/
theorem decodeAll_of_tab_and_pair :
    (∃ t : Json.Term, t.IsObject ∧ String.ofList t.text = "\x7b\"a\":\t1\x7d" ∧
        t.datum? = some (.mapping [(.scalar "a", .scalar "1")]) ∧
        decodeAll (String.ofList t.text) = [.malformed]) ∧
      ∃ t : Json.Term, t.IsObject ∧
        String.ofList t.text = "\x7b\"a\":\"\\ud83d\\ude00\"\x7d" ∧
        t.datum? = some (.mapping [(.scalar "a", .scalar "😀")]) ∧
        decodeAll (String.ofList t.text) = [.malformed] := by
  let none : Json.Blanks := ⟨[], by simp⟩
  let tab : Json.Blanks := ⟨['\t'], List.forall_mem_singleton.mpr rfl⟩
  have hnumber : Json.IsLiteral ['1'] :=
    .inr (.inr (.inr ⟨[], ['1'], [], [], .inl rfl,
      .inr ⟨⟨by simp, List.forall_mem_singleton.mpr rfl⟩, by decide⟩, .inl rfl, .inl rfl, rfl⟩))
  let pair : List Json.Piece :=
    [.code ['d', '8', '3', 'd'] 0xd83d rfl rfl, .code ['d', 'e', '0', '0'] 0xde00 rfl rfl]
  refine ⟨⟨.object (.last ⟨none, [.plain 'a' (by decide)], none, tab⟩ (.literal ['1'] hnumber)
      none), trivial, rfl, rfl, decodeAll_of_failed ?_⟩,
    .object (.last ⟨none, [.plain 'a' (by decide)], none, none⟩ (.string pair) none), trivial, rfl,
      rfl, decodeAll_of_failed ?_⟩
  · show TokenStream.ofText ['\x7b', '"', 'a', '"', ':', '\t', '1', '\x7d'] = _
    decide +kernel
  · show TokenStream.ofText ['\x7b', '"', 'a', '"', ':', '"', '\\', 'u', 'd', '8', '3', 'd', '\\',
      'u', 'd', 'e', '0', '0', '"', '\x7d'] = _
    decide +kernel

end Document
end LintLocator
