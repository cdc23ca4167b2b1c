import ParserGen.Template.Expansion.Bound

/-!
# Expanded grammars

The instances are expanded in the order in which they wait, beginning with the start symbol, until
none is left.  The expanded grammar has the tokens, the instances and their rules.
-/

namespace ParserGen
namespace Expansion

/-- Expand the instances that wait, and those that come to wait meanwhile. -/
def expandQueue (src : ExpansionSource) (x : Expansion)
    (bounded : ∃ next, x.Bounded src.template next) : Except ExpansionError Unit × Expansion :=
  match hpop : x.queue.pop? with
  | none => (.ok (), x)
  | some (i, rest) =>
      let step := ({ x with queue := rest }).process src i
      match step.1 with
      | .error e => (.error e, step.2)
      | .ok () =>
          expandQueue src step.2 (bounded.imp' (· + 1) fun _ h => (h.pop hpop).2.2.process i)
termination_by (Parameter.upTo src.template.vocabulary maxInstanceDepth).length - x.taken
decreasing_by
  -- One more number has been taken, and none is taken that no instance has.
  obtain ⟨next, h⟩ := bounded
  obtain ⟨_, hlt, hpopped⟩ := h.pop hpop
  have hsize := h.size_le
  rw [h.taken_eq, (hpopped.process i).taken_eq]
  omega

/-- Expand everything that can be reached from the start symbol. -/
def expandAll (src : ExpansionSource) : Except ExpansionError Unit × Expansion :=
  match hs : src.template.startName? with
  | none => (.error .noStartSymbol, empty)
  | some name =>
      let begun := empty.instantiate src (.var name)
      match begun.1 with
      | .error e => (.error e, begun.2)
      | .ok _ =>
          expandQueue src begun.2
            ⟨0, (bounded_empty src.template).instantiate (Template.over_vocabulary_start hs)⟩

/-! ## The expanded grammar -/

/-- The rules of an expansion in the order of the template: by rule, by branch and by instance. -/
def orderedRules (t : Template) (x : Expansion) : List InstanceRule :=
  t.rules.zipIdx.flatMap fun (rule, source) =>
    rule.branches.zipIdx.flatMap fun (_, b) =>
      x.rules.toList.filter fun r => r.source == source && r.branch == b

/-- The declarations of the expanded grammar. -/
def declarations (src : ExpansionSource) (x : Expansion) : List Declaration :=
  src.template.tokens.map (fun name => .terminal name src.levels[name]?)
    ++ x.instances.toList.map (fun i => .nonterminal i.closed.text)
    ++ (x.orderedRules src.template).map (fun r => .rule (r.owner + 1) r.right r.precedence)
    ++ [.start 1]

/-- The rules of the template that have no instance. -/
def unusedRules (t : Template) (x : Expansion) : List String :=
  (t.rules.zipIdx.filter fun (_, source) => x.instances.all (·.source != source)).map (·.1.name)

end Expansion

/-- Expand the rules of a template that can be reached from its start symbol. -/
def Template.expand (t : Template) (sorts : RuleSorts) : Traced ExpansionError Grammar :=
  match Template.precedences ∅ 0 t.levels with
  | .error e => ⟨[], .error e⟩
  | .ok levels =>
      let src : ExpansionSource := ⟨t, sorts, levels⟩
      match Expansion.expandAll src with
      | (.error e, x) => ⟨x.events.toList, .error e⟩
      | (.ok (), x) =>
          let events := x.events.toList ++ (x.unusedRules t).map .unusedRule
          match Grammar.define (x.declarations src) with
          | .error e => ⟨events, .error (.definition e)⟩
          | .ok g =>
              ⟨events ++ [.expanded (g.nonterminals.size - 1) (g.rules.size - 1)], .ok g⟩

end ParserGen
