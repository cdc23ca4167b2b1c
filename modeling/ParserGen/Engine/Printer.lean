import ParserGen.Engine.Basic

/-!
# Printing engines

The full state of an engine on one line, for inspection.  How states, tokens and nonterminals are
written depends on what they are.
-/

namespace ParserGen

/-- How the parts of an engine are written. -/
structure EngineStyle (σ τ ν : Type) where
  state : σ → String
  token : τ → String
  nonterminal : ν → String

namespace EngineStyle

/-- Numbers are written as they are, and tokens are marked. -/
def plain : EngineStyle Nat Nat Nat where
  state := toString
  token t := "Tok(" ++ toString t ++ ")"
  nonterminal := toString

/-- Each number is marked with what it is the number of. -/
def marked : EngineStyle Nat Nat Nat where
  state s := "StateID \x7b raw: " ++ toString s ++ " \x7d"
  token t := "TerminalID(" ++ toString t ++ ")"
  nonterminal n := "NonterminalID(" ++ toString n ++ ")"

variable {σ τ ν : Type}

def phaseText (style : EngineStyle σ τ ν) : Phase σ ν → String
  | .ready => "Ready"
  | .awaitingInput => "AwaitingInput"
  | .shift next => "Shift(" ++ style.state next ++ ")"
  | .reduce left length => "Reduce(" ++ style.nonterminal left ++ ", " ++ toString length ++ ")"
  | .rejecting => "Error"
  | .accepted => "Done"

def symbolText (style : EngineStyle σ τ ν) : StackSymbol τ ν → String
  | .token t => "T(" ++ style.token t ++ ")"
  | .nonterminal n => "N(" ++ style.nonterminal n ++ ")"

def lookaheadText (style : EngineStyle σ τ ν) : Lookahead τ → String
  | .absent => "Absent"
  | .token t => "Token(" ++ style.token t ++ ")"
  | .finish => "End"

def listText (items : List String) : String := "[" ++ String.intercalate ", " items ++ "]"

end EngineStyle

/-- The engine as its fields; both stacks are written from the bottom. -/
def Engine.text {σ τ ν : Type} (style : EngineStyle σ τ ν) (e : Engine σ τ ν) : String :=
  "ParseEngine \x7b phase: " ++ style.phaseText e.phase
    ++ ", states: " ++ EngineStyle.listText (e.states.reverse.map style.state)
    ++ ", symbols: " ++ EngineStyle.listText (e.symbols.map style.symbolText)
    ++ ", lookahead: " ++ style.lookaheadText e.lookahead ++ ", .. \x7d"

end ParserGen
