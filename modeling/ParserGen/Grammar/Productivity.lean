import ParserGen.Fixpoint
import ParserGen.Grammar.Basic
import ParserGen.IdSet

/-!
# Productive nonterminals

A nonterminal is productive if it derives some string of terminals.
-/

namespace ParserGen
namespace Grammar

/-- Whether a right-hand side needs no nonterminal outside `known`. -/
def derivesFrom (known : IdSet) (right : List Symbol) : Bool :=
  right.all fun
    | .terminal _ => true
    | .nonterminal n => known.contains n

/-- Whether a rule makes its left-hand side known, which was not known before. -/
def learns (known : IdSet) (r : Rule) : Bool :=
  !known.contains r.left && derivesFrom known r.right

/-- What is known once a rule has been looked at. -/
def learn (known : IdSet) (r : Rule) : IdSet :=
  if learns known r then known.insert r.left else known

/-- One sweep over the rules, each of which may make its left-hand side known. -/
def productiveSweep (g : Grammar) (known : IdSet) : IdSet × Bool :=
  roundOver learn learns g.ruleList known

/-- The nonterminals that derive a string of terminals.  A sweep that changes something adds the
left-hand side of a rule. -/
def productive (g : Grammar) : IdSet :=
  iterateWhileChanged g.productiveSweep (g.rules.size + 1) ∅

/-- The nonterminals that derive no string of terminals. -/
def unproductive (g : Grammar) : List Nat :=
  g.nonterminals.keys.filter fun n => !g.productive.contains n

end Grammar
end ParserGen
