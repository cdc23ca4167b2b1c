import Mathlib.Algebra.GroupWithZero.Nat
import ParserGen.Proofs.Sorts.Decoding
import ParserGen.Template.Expansion.Vocabulary
import ParserGen.Template.SortInference

/-!
# Well-sorted templates

A sorting gives a sort to every rule of a template and to every formal parameter.  It fits the
template if a rule has the arrow from the sorts of its formal parameters, every symbol of a branch
and the start symbol have the sort `*`, and what is applied takes as many arguments as there are,
each of the sort that is expected of it.  Sort inference is about the existence of a sorting that
fits.
-/

namespace ParserGen

/-- Sorts of the rules, and of the formal parameters of each rule. -/
structure Sorting where
  rule : String → GroundSort
  formal : String → String → GroundSort

/-! ## Parameters -/

namespace Parameter

mutual

/-- Whether a parameter has a sort when names have those in `env`.  An application has the sort `*`.
-/
def HasSort (env : String → GroundSort) : Parameter → GroundSort → Prop
  | var name, s => env name = s
  | app head args, s => HaveSorts env args (env head).domain ∧ s = .star

/-- Whether there is a sort for each parameter, and it has it. -/
def HaveSorts (env : String → GroundSort) : List Parameter → List GroundSort → Prop
  | [], [] => True
  | p :: ps, s :: sorts => HasSort env p s ∧ HaveSorts env ps sorts
  | _, _ => False

end

theorem HaveSorts.length_eq {env : String → GroundSort} {ps : List Parameter}
    {sorts : List GroundSort} (h : HaveSorts env ps sorts) : sorts.length = ps.length := by
  induction ps generalizing sorts with
  | nil =>
    cases sorts with
    | nil => rfl
    | cons => exact h.elim
  | cons p ps ih =>
    cases sorts with
    | nil => exact h.elim
    | cons s sorts => exact congrArg (· + 1) (ih h.2)

mutual

/-- The number of variables that checking a parameter needs: one for each argument of an application
and one for the sort of its head. -/
def variableCount : Parameter → Nat
  | var _ => 0
  | app _ args => args.length + 1 + variableCounts args

def variableCounts : List Parameter → Nat
  | [] => 0
  | p :: ps => p.variableCount + variableCounts ps

end

end Parameter

/-! ## Templates -/

namespace TemplateRule

/-- The number of variables that checking the symbols of a rule needs. -/
def symbolVariables (rule : TemplateRule) : Nat :=
  (rule.branches.map fun branch => (branch.elements.map Parameter.variableCount).sum).sum

/-- The number of variables that a rule needs: one for each formal parameter, one for its sort, and
those for its symbols. -/
def variableCount (rule : TemplateRule) : Nat := rule.formals.length + 1 + rule.symbolVariables

end TemplateRule

namespace Template

/-- The number of variables that a template needs, with the one that stands for `*`. -/
def variableCount (t : Template) : Nat := 1 + (t.rules.map TemplateRule.variableCount).sum

/-- The names of the rules. -/
def ruleNames (t : Template) : List String := t.rules.map (·.name)

/-- No name is declared twice in one place, every name is declared where it is used, and the start
symbol is a rule. -/
structure WellNamed (t : Template) : Prop where
  globals : (t.tokens ++ t.ruleNames).Nodup
  formals : ∀ rule ∈ t.rules, rule.formals.Nodup
  known : ∀ rule ∈ t.rules, ∀ branch ∈ rule.branches, ∀ p ∈ branch.elements, ∀ name ∈ p.names,
    name ∈ rule.formals ∨ name ∈ t.tokens ∨ name ∈ t.ruleNames
  start : ∃ name ∈ t.ruleNames, t.startName? = some name

/-- The sort of a name in a rule: formal parameters hide what has the same name outside, and tokens
have the sort `*`. -/
def sortOf (t : Template) (σ : Sorting) (rule : TemplateRule) (name : String) : GroundSort :=
  if name ∈ rule.formals then σ.formal rule.name name
  else if name ∈ t.ruleNames then σ.rule name
  else .star

/-- A sorting fits a template. -/
structure SortedBy (t : Template) (σ : Sorting) : Prop where
  rules : ∀ rule ∈ t.rules, σ.rule rule.name = .arrow (rule.formals.map (σ.formal rule.name))
  symbols : ∀ rule ∈ t.rules, ∀ branch ∈ rule.branches, ∀ p ∈ branch.elements,
    p.HasSort (t.sortOf σ rule) .star
  start : ∀ name, t.startName? = some name → σ.rule name = .star

/-- The sorts of the rules in a sorting. -/
def sortsBy (t : Template) (σ : Sorting) : RuleSorts :=
  t.rules.map fun rule => (rule.name, σ.rule rule.name)

/-- The sorts of the rules and formal parameters of a template in `σ` are below those in `σ'`. -/
structure SortsBelow (t : Template) (σ σ' : Sorting) : Prop where
  rule : ∀ rule ∈ t.rules, σ.rule rule.name ≤ σ'.rule rule.name
  formal : ∀ rule ∈ t.rules, ∀ name ∈ rule.formals,
    σ.formal rule.name name ≤ σ'.formal rule.name name

end Template
end ParserGen
