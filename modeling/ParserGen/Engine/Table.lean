/-!
# Parse tables

What a parser has to know: the initial state, what to do in a state when the next token is seen, and
where to go after a reduction.
-/

namespace ParserGen

/-- What to do next. -/
inductive ParseAction (σ ν ρ : Type) where
  /-- Push the lookahead and move to a state. -/
  | shift (next : σ)
  /-- Replace the topmost `length` symbols by the left-hand side of a rule. -/
  | reduce (rule : ρ) (left : ν) (length : Nat)
  | accept
  /-- The lookahead is not acceptable. -/
  | fail
deriving DecidableEq, Repr

/-- A parse table over states `σ`, tokens `τ`, nonterminals `ν` and rules `ρ`.  No token stands for
the end of input. -/
structure ParseTable (σ τ ν ρ : Type) where
  initial : σ
  action : σ → Option τ → ParseAction σ ν ρ
  goto : σ → ν → Option σ

/-- The last value in a list of rows that is given for a key. -/
def lastRow? {κ α : Type} [BEq κ] (rows : List (κ × α)) (key : κ) : Option α :=
  rows.reverse.lookup key

/-- The table that is written out as rows.  The last row for a cell counts; a cell without a row
fails. -/
def ParseTable.ofRows {σ τ ν ρ : Type} [BEq σ] [BEq τ] [BEq ν] (initial : σ)
    (actions : List ((σ × Option τ) × ParseAction σ ν ρ)) (gotos : List ((σ × ν) × σ)) :
    ParseTable σ τ ν ρ where
  initial := initial
  action s lookahead := (lastRow? actions (s, lookahead)).getD .fail
  goto s n := lastRow? gotos (s, n)

end ParserGen
