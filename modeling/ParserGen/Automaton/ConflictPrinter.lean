import ParserGen.Automaton.Conflict
import ParserGen.Grammar.Printer

/-!
# Printing conflicts

A conflict is printed on one line: its kind, where it is, the competing actions and how it was
settled.
-/

namespace ParserGen

/-- The rule of a reduction, as it is printed. -/
def Grammar.reductionText (g : Grammar) (rule : Nat) : String :=
  match g.rules[rule]? with
  | some r => "reduce(" ++ r.text g ++ ")"
  | none => "reduce(<unknown>)"

def shiftText (next : Nat) : String := "shift(" ++ Text.twoDigits next ++ ")"

def ConflictReason.text : ConflictReason → String
  | missingPrecedence => "MissingPrecedence"
  | inconsistentShiftResolution => "InconsistentShiftResolution"
  | multipleReductions => "MultipleReductions"

def Resolution.text : Resolution → String
  | precedence => "[resolved by precedence]"
  | arbitrary reason => "[arbitrary: " ++ reason.text ++ "]"

namespace Conflict

/-- The kind of a conflict; a shift may compete with reductions that compete among themselves. -/
def kindText (c : Conflict) : String :=
  match c.kind with
  | .shiftReduce => if c.isReduceReduce then "shift/reduce/reduce" else "shift/reduce"
  | .reduceReduce => "reduce/reduce"

def text (c : Conflict) (g : Grammar) : String :=
  c.kindText ++ " conflict on " ++ g.symbolName (.terminal c.terminal)
    ++ " in state " ++ toString c.state ++ ":"
    ++ String.join ((c.shift.toList.map shiftText ++ c.reduces.map g.reductionText).map (" " ++ ·))
    ++ " " ++ c.resolution.text

end Conflict
end ParserGen
