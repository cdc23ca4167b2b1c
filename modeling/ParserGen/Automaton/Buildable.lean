import ParserGen.Grammar.Basic

/-!
# Grammars without an automaton

Why no automaton can be built, and the check that a grammar has to pass first.
-/

namespace ParserGen

/-- Why the construction of an automaton fails. -/
inductive BuildError where
  | unknownSymbol (rule : Nat)
  | missingAugmentedRule
  | undeclaredStart
  | emptyStart (name : String)
  | tooManyStates
  | danglingEdge (state : Nat)
deriving DecidableEq, Repr

/-- Errors that a grammar made by its definition cannot cause are called internal. -/
def BuildError.message : BuildError → String
  | unknownSymbol rule =>
      "internal error: the rule RuleID(" ++ toString rule ++ ") refers to an unknown symbol"
  | missingAugmentedRule => "internal error: the augmented start rule is missing"
  | undeclaredStart => "internal error: the start symbol is not declared"
  | emptyStart name => "the start symbol `" ++ name ++ "' has no production rules"
  | tooManyStates => "internal error: too many states"
  | danglingEdge state => "internal error: dangling edge from state " ++ toString state

namespace Grammar

/-- Whether a rule uses known symbols only. -/
def knowsRule (g : Grammar) (r : Rule) : Bool :=
  g.knows (.nonterminal r.left) && r.right.all g.knows

/-- Check that an automaton can be built: all symbols of the rules are known, the augmented rule is
there, and the start symbol is declared and has a rule. -/
def checkBuildable (g : Grammar) : Except BuildError Unit :=
  match g.ruleList.find? fun r => !g.knowsRule r with
  | some r => .error (.unknownSymbol r.id)
  | none =>
      if !g.rules.contains augmentedRule then .error .missingAugmentedRule
      else if !g.nonterminals.contains g.start then .error .undeclaredStart
      else if (g.rulesOf g.start).isEmpty then
        .error (.emptyStart (g.symbolName (.nonterminal g.start)))
      else .ok ()

end Grammar
end ParserGen
