import ParserGen.Grammar.Basic
import ParserGen.IdSet
import ParserGen.Text

/-!
# Printing rules and grammars

A rule is printed as `left := right`, an empty right-hand side as `@empty`.  A grammar is printed as
its terminals, its start symbol and its numbered rules, one a line.
-/

namespace ParserGen

/-- The rule as `A := x y z`, or `A := @empty`. -/
def Rule.text (r : Rule) (g : Grammar) : String :=
  let right :=
    match r.right with
    | [] => " @empty"
    | right => String.join (right.map fun x => " " ++ g.symbolName x)
  g.symbolName (.nonterminal r.left) ++ " :=" ++ right

/-- A set of terminals for inspection, each number marked as that of a terminal. -/
def IdSet.terminalsText (s : IdSet) : String :=
  let marked := s.toList.map fun t => "TerminalID(" ++ toString t ++ ")"
  "\x7b" ++ String.intercalate ", " marked ++ "\x7d"

namespace Grammar

def terminalLine (t : Terminal) : String :=
  "%token " ++ t.name ++ (t.precedence.elim "" fun p => " " ++ p.text)

/-- The order of a rule is right-aligned; a precedence that was declared with the rule is shown. -/
def ruleLine (g : Grammar) (r : Rule) : String :=
  Text.padLeft 3 ' ' (toString r.order) ++ ": " ++ r.text g ++
    r.declaredPrecedence.elim "" fun p => " %prec(" ++ p.text ++ ")"

def text (g : Grammar) : String :=
  Text.unlines <|
    g.terminals.values.map terminalLine
      ++ ["%start " ++ g.symbolName (.nonterminal g.start)]
      ++ g.ruleList.map g.ruleLine

end Grammar
end ParserGen
