import ParserGen.Automaton.Basic
import ParserGen.Engine.Table

/-!
# Automata as parse tables

The end of input is the terminal that no token has.  A state without an action on a terminal fails
on it.
-/

namespace ParserGen
namespace Automaton

/-- What to do in a state on a terminal. -/
def parseAction (a : Automaton) (s : Nat) (lookahead : Option Nat) : ParseAction Nat Nat Nat :=
  match (a.state? s).bind fun state => state.action? (lookahead.getD endOfInput) with
  | some (.shift next) => .shift next
  | some (.reduce rule) =>
      match a.reductions[rule]? with
      | some (left, length) => .reduce rule left length
      | none => .fail
  | some .accept => .accept
  | some .fail | none => .fail

/-- The parse table of an automaton. -/
def table (a : Automaton) : ParseTable Nat Nat Nat Nat where
  initial := initialState
  action := a.parseAction
  goto s n := (a.state? s).bind fun state => state.goto? n

end Automaton
end ParserGen
