import ParserGen.Grammar.Definition

/-!
# Sketches of grammars

A grammar written down by names, for use where it is fixed.
-/

namespace ParserGen

/-- A rule by names: its left-hand side, its right-hand side and its precedence. -/
structure SketchRule where
  left : String
  right : List String
  precedence : Option Precedence

/-- A grammar by names.  No two symbols share a name; a name that is not declared stands for no
symbol of the grammar. -/
structure Sketch where
  terminals : List (String × Option Precedence)
  nonterminals : List String
  start : Option String
  rules : List SketchRule

namespace Sketch

/-- The number that the nonterminal of a name will have. -/
def nonterminalId (s : Sketch) (name : String) : Nat := s.nonterminals.idxOf name + 1

/-- The symbol that a name will have. -/
def symbol (s : Sketch) (name : String) : Symbol :=
  match (s.terminals.map (·.1)).idxOf? name with
  | some i => .terminal (i + 1)
  | none => .nonterminal (s.nonterminalId name)

def declarations (s : Sketch) : List Declaration :=
  s.terminals.map (fun t => .terminal t.1 t.2)
    ++ s.nonterminals.map .nonterminal
    ++ s.start.toList.map (fun name => .start (s.nonterminalId name))
    ++ s.rules.map fun r => .rule (s.nonterminalId r.left) (r.right.map s.symbol) r.precedence

end Sketch
end ParserGen
