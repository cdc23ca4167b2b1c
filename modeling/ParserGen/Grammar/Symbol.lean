/-!
# Symbols and precedences

Terminals, nonterminals and rules are numbered from zero.  Number zero is reserved in each class:
it is the end of input, the start symbol of the augmented grammar and the augmented rule.
-/

namespace ParserGen

/-- The end of input, `$eoi`. -/
def endOfInput : Nat := 0

/-- The left-hand side of the augmented rule, `$start`. -/
def augmentedStart : Nat := 0

/-- The augmented rule `$start := S`, where `S` is the start symbol. -/
def augmentedRule : Nat := 0

/-- A grammar symbol. -/
inductive Symbol where
  | terminal (id : Nat)
  | nonterminal (id : Nat)
deriving DecidableEq, Repr, Inhabited

namespace Symbol

def isTerminal : Symbol → Bool
  | terminal _ => true
  | nonterminal _ => false

def terminal? : Symbol → Option Nat
  | terminal t => some t
  | nonterminal _ => none

def nonterminal? : Symbol → Option Nat
  | terminal _ => none
  | nonterminal n => some n

/-- A number that tells symbols apart: even for terminals, odd for nonterminals. -/
def code : Symbol → Nat
  | terminal t => 2 * t
  | nonterminal n => 2 * n + 1

theorem code_inj {x y : Symbol} : x.code = y.code ↔ x = y := by
  cases x <;> cases y <;> simp only [code, terminal.injEq, nonterminal.injEq, reduceCtorEq,
    iff_false] <;> omega

end Symbol

/-- How an operator groups with another one of the same priority. -/
inductive Assoc where
  | left
  | right
  | nonassoc
deriving DecidableEq, Repr

def Assoc.text : Assoc → String
  | left => "left"
  | right => "right"
  | nonassoc => "nonassoc"

/-- A precedence; the larger priority binds tighter. -/
structure Precedence where
  priority : Nat
  assoc : Assoc
deriving DecidableEq, Repr

/-- A precedence is written as its associativity and its priority: `%left 0`. -/
def Precedence.text (p : Precedence) : String :=
  "%" ++ p.assoc.text ++ " " ++ toString p.priority

end ParserGen
