import LintLocator.Yaml.Grammar

/-!
# Runs of the grammar

`Grammar.Emits` follows the grammar from one state to a later one and gathers the events in between.
With enough fuel `Grammar.steps` gives the same events (`steps_of_emits`).
-/

namespace LintLocator
namespace Yaml
namespace Grammar

/-- The grammar at other tokens, with other expectations. -/
def goOn (g : Grammar) (tokens : List Token) (stack : List Expecting) : Grammar :=
  { g with tokens := tokens, stack := stack }

/-- The events are given one after the other. -/
inductive Emits : Grammar → List Event → Grammar → Prop where
  | refl (g : Grammar) : Emits g [] g
  | step {g h k : Grammar} {e : Event} {es : List Event} (hstep : g.step = .event e h)
      (rest : Emits h es k) : Emits g (e :: es) k

theorem Emits.trans {g h k : Grammar} {es fs : List Event} (hes : Emits g es h)
    (hfs : Emits h fs k) : Emits g (es ++ fs) k := by
  induction hes with
  | refl g => exact hfs
  | step hstep rest ih => exact .step hstep (ih hfs)

theorem steps_of_emits {g h : Grammar} {es : List Event} (hes : Emits g es h) (fuel : Nat) :
    steps (fuel + es.length) g = (es ++ (steps fuel h).1, (steps fuel h).2) := by
  induction hes with
  | refl g => rfl
  | step hstep rest ih =>
    rw [List.length_cons, ← Nat.add_assoc, steps_of_event hstep, ih, List.cons_append]

/-! ## What is expected decides what is read -/

section

variable {g : Grammar} {first : Bool} {after : List Expecting}

theorem step_of_node (h : g.stack = .node :: after) :
    g.step = .ofEvent? (g.readNode true false after) := by
  rw [step, h]

theorem step_of_documentEnd (h : g.stack = .documentEnd :: after) :
    g.step = .ofEvent? (g.readDocumentEnd after) := by
  rw [step, h]

theorem step_of_flowEntry (h : g.stack = .flowEntry first :: after) :
    g.step = .ofEvent? (g.readFlowEntry first after) := by
  rw [step, h]

theorem step_of_flowKey (h : g.stack = .flowKey first :: after) :
    g.step = .ofEvent? (g.readFlowKey first after) := by
  rw [step, h]

theorem step_of_flowValue (h : g.stack = .flowValue :: after) :
    g.step = .ofEvent? (g.readFlowValue after) := by
  rw [step, h]

end

end Grammar
end Yaml
end LintLocator
