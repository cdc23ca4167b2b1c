import ParserGen.Grammar.Symbol
import ParserGen.IndexMap

/-!
# Context-free grammars

A grammar holds its symbols and rules in tables keyed by their numbers.  Running through a table
goes by the order of its entries, which is a matter of how the table was made: it is that of the
numbers if the grammar has been defined.  A table may lack numbers that a rule uses: such a symbol
is unknown.
-/

namespace ParserGen

/-- A terminal symbol, with the precedence that settles shift/reduce conflicts on it. -/
structure Terminal where
  name : String
  precedence : Option Precedence
deriving Repr

/-- A rule `left := right`.  `order` is its place among the declared rules, counted from one; the
augmented rule has order zero. -/
structure Rule where
  id : Nat
  left : Nat
  right : List Symbol
  declaredPrecedence : Option Precedence
  order : Nat
deriving DecidableEq, Repr

/-- A grammar with a start symbol; `names` leads from the declared names back to the symbols. -/
structure Grammar where
  terminals : IndexMap Terminal
  nonterminals : IndexMap String
  rules : IndexMap Rule
  start : Nat
  names : Std.TreeMap String Symbol

namespace Grammar

/-- The name of a symbol, if the symbol is in its table. -/
def name? (g : Grammar) : Symbol → Option String
  | .terminal t => (g.terminals[t]?).map (·.name)
  | .nonterminal n => g.nonterminals[n]?

/-- The name under which a symbol is printed. -/
def symbolName (g : Grammar) (x : Symbol) : String :=
  (g.name? x).getD "<unknown>"

/-- Whether a symbol is in its table. -/
def knows (g : Grammar) : Symbol → Bool
  | .terminal t => g.terminals.contains t
  | .nonterminal n => g.nonterminals.contains n

/-- The terminal that was declared as `name`. -/
def terminalNamed? (g : Grammar) (name : String) : Option Nat :=
  g.names[name]?.bind Symbol.terminal?

/-- The nonterminal that was declared as `name`. -/
def nonterminalNamed? (g : Grammar) (name : String) : Option Nat :=
  g.names[name]?.bind Symbol.nonterminal?

/-- The rules in the order of their table. -/
def ruleList (g : Grammar) : List Rule := g.rules.values

/-- The rules with the left-hand side `n`, in the order of their table. -/
def rulesOf (g : Grammar) (n : Nat) : List Rule :=
  g.ruleList.filter (·.left == n)

/-- The terminals that input may contain. -/
def alphabet (g : Grammar) : List Nat :=
  g.terminals.keys.filter (· != endOfInput)

/-- The number of symbols on all right-hand sides. -/
def symbolCount (g : Grammar) : Nat :=
  (g.ruleList.flatMap (·.right)).length

def precedenceOf (g : Grammar) (t : Nat) : Option Precedence :=
  g.terminals[t]?.bind (·.precedence)

/-- The order of a rule; one that is not in the table comes after all others. -/
def orderOf (g : Grammar) (r : Nat) : Nat :=
  (g.rules[r]?.map (·.order)).getD (UInt64.size - 1)

/-! ## Leaving something out -/

def dropTerminal (g : Grammar) (t : Nat) : Grammar :=
  { g with terminals := g.terminals.erase t }

def dropNonterminal (g : Grammar) (n : Nat) : Grammar :=
  { g with nonterminals := g.nonterminals.erase n }

def dropRule (g : Grammar) (r : Nat) : Grammar :=
  { g with rules := g.rules.erase r }

end Grammar

namespace Rule

/-- The augmented rule for a start symbol. -/
def augmented (start : Nat) : Rule where
  id := augmentedRule
  left := augmentedStart
  right := [.nonterminal start]
  declaredPrecedence := none
  order := 0

/-- The last terminal on the right-hand side. -/
def lastTerminal? (r : Rule) : Option Nat :=
  r.right.reverse.findSome? Symbol.terminal?

/-- The precedence with which a rule takes part in conflicts: the one declared with the rule, or
else that of the last terminal on its right-hand side. -/
def precedence (r : Rule) (g : Grammar) : Option Precedence :=
  match r.declaredPrecedence with
  | some p => some p
  | none => r.lastTerminal?.bind g.precedenceOf

end Rule
end ParserGen
