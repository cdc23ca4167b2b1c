import Std.Data.ExtTreeMap
import ParserGen.Fixpoint
import ParserGen.Grammar.Basic
import ParserGen.IdSet

/-!
# FIRST sets

Which terminals can begin what a nonterminal derives, and which nonterminals derive the empty
string.  Both are found together, by sweeping over the rules until a sweep changes nothing; within a
sweep, a rule already sees what the rules before it have added.
-/

namespace ParserGen

/-- What is known about one nonterminal. -/
structure FirstEntry where
  nullable : Bool
  first : IdSet
deriving DecidableEq, Repr

/-- What is known about each nonterminal of a grammar. -/
abbrev FirstTable := Std.ExtTreeMap Nat FirstEntry

namespace FirstTable

def isNullable (table : FirstTable) (n : Nat) : Bool :=
  (table[n]?.map (·.nullable)).getD false

/-- The terminals that can begin what `n` derives. -/
def firstOf (table : FirstTable) (n : Nat) : IdSet :=
  (table[n]?.map (·.first)).getD ∅

/-- Whether every symbol of a string can vanish. -/
def allNullable (table : FirstTable) (string : List Symbol) : Bool :=
  string.all fun
    | .terminal _ => false
    | .nonterminal n => table.isNullable n

/-- The terminals that can begin what a string derives. -/
def firstOfString (table : FirstTable) : List Symbol → IdSet
  | [] => ∅
  | .terminal t :: _ => IdSet.singleton t
  | .nonterminal n :: rest =>
      if table.isNullable n then table.firstOf n ∪ table.firstOfString rest else table.firstOf n

/-- The terminals that can begin what a string followed by one of `lookaheads` derives. -/
def firstWith (table : FirstTable) (string : List Symbol) (lookaheads : IdSet) : IdSet :=
  if table.allNullable string then table.firstOfString string ∪ lookaheads
  else table.firstOfString string

/-- The table in which nothing is known yet. -/
def initial (g : Grammar) : FirstTable :=
  g.nonterminals.keys.foldl (fun table n => table.insert n ⟨false, ∅⟩) ∅

/-- Add what one rule says about its left-hand side. -/
def absorb (table : FirstTable) (r : Rule) : FirstTable :=
  match table[r.left]? with
  | none => table
  | some entry =>
      table.insert r.left
        { nullable := entry.nullable || table.allNullable r.right
          first := entry.first ∪ table.firstOfString r.right }

/-- Whether a rule says something new about its left-hand side. -/
def isNews (table : FirstTable) (r : Rule) : Bool :=
  match table[r.left]? with
  | none => false
  | some entry =>
      entry.first.growsBy (table.firstOfString r.right)
        || (table.allNullable r.right && !entry.nullable)

/-- One sweep over the rules. -/
def sweep (g : Grammar) (table : FirstTable) : FirstTable × Bool :=
  roundOver absorb isNews g.ruleList table

/-- A sweep that changes the table makes a nonterminal nullable or adds to a FIRST set a terminal
that stands on some right-hand side. -/
def sweepBound (g : Grammar) : Nat :=
  g.nonterminals.size * (g.symbolCount + 1) + 1

/-- The FIRST sets of a grammar. -/
def ofGrammar (g : Grammar) : FirstTable :=
  iterateWhileChanged (sweep g) (sweepBound g) (initial g)

/-- How many sweeps it takes, the last one included, which changes nothing. -/
def sweepCount (g : Grammar) : Nat :=
  roundsWhileChanged (sweep g) (sweepBound g) (initial g)

@[simp]
theorem firstOfString_nil (table : FirstTable) : table.firstOfString [] = ∅ := rfl

@[simp]
theorem firstOfString_terminal (table : FirstTable) (t : Nat) (rest : List Symbol) :
    table.firstOfString (.terminal t :: rest) = IdSet.singleton t := rfl

/-- A lookahead counts exactly when the whole string can vanish. -/
theorem mem_firstWith {table : FirstTable} {string : List Symbol} {lookaheads : IdSet} {t : Nat} :
    t ∈ table.firstWith string lookaheads ↔
      t ∈ table.firstOfString string ∨ table.allNullable string = true ∧ t ∈ lookaheads := by
  unfold firstWith
  split <;> simp_all

end FirstTable
end ParserGen
