import ParserGen.Grammar.Symbol
import ParserGen.Template.Parameter

/-!
# Grammar templates

A template is a grammar whose rules may have formal parameters.  It is what a front end hands over:
names are not resolved and parameters are not checked.
-/

namespace ParserGen

/-- One precedence level, shared by tokens and by names that branches refer to. -/
structure PrecedenceLevel where
  assoc : Assoc
  names : List String
deriving Repr

/-- One alternative of a rule; `precedence` names a level. -/
structure Branch where
  elements : List Parameter
  precedence : Option String
deriving Repr

/-- A rule with formal parameters. -/
structure TemplateRule where
  name : String
  formals : List String
  branches : List Branch
deriving Repr

/-- A grammar with parameterised rules.  Precedence levels go from the lowest to the highest. -/
structure Template where
  tokens : List String
  levels : List PrecedenceLevel
  rules : List TemplateRule
  start : Option String
deriving Repr

/-- The start symbol: the one given, or else the first rule. -/
def Template.startName? (t : Template) : Option String :=
  match t.start with
  | some name => some name
  | none => t.rules.head?.map (·.name)

end ParserGen
