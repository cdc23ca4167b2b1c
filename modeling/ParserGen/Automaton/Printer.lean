import ParserGen.Automaton.Basic
import ParserGen.Automaton.ConflictPrinter

/-!
# Printing automata

Each state is printed as its items, its actions, its edges on nonterminals and, if there are any,
its conflicts.  A blank line divides states.
-/

namespace ParserGen

/-- The item as `(A := x . y)`. -/
def Item.text (i : Item) (g : Grammar) : String :=
  match g.rules[i.rule]? with
  | none => "(<unknown>)"
  | some r =>
      let names := r.right.map fun x => " " ++ g.symbolName x
      let marked :=
        if i.marker ≤ names.length then names.take i.marker ++ [" ."] ++ names.drop i.marker
        else names
      "(" ++ g.symbolName (.nonterminal r.left) ++ " :=" ++ String.join marked ++ ")"

def Action.text (g : Grammar) : Action → String
  | shift next => shiftText next
  | reduce rule => g.reductionText rule
  | accept => "accept"
  | fail => "fail"

namespace State

def itemLine (g : Grammar) (row : Item × IdSet) : String :=
  let lookaheads := row.2.toList.map fun t => g.symbolName (.terminal t)
  "- " ++ row.1.text g ++ "  [" ++ String.intercalate " " lookaheads ++ "]"

def actionLine (g : Grammar) (row : Nat × Action) : String :=
  "- " ++ g.symbolName (.terminal row.1) ++ " => " ++ row.2.text g

def gotoLine (g : Grammar) (row : Nat × Nat) : String :=
  "- " ++ g.symbolName (.nonterminal row.1) ++ " => goto(" ++ Text.twoDigits row.2 ++ ")"

/-- The lines of the state with the number `id`. -/
def lines (s : State) (g : Grammar) (id : Nat) (conflicts : List Conflict) : List String :=
  ["#### State " ++ Text.twoDigits id, "## items"]
    ++ s.items.toList.map (itemLine g)
    ++ ["## actions"] ++ s.actions.map (actionLine g)
    ++ ["## gotos"] ++ s.gotos.map (gotoLine g)
    ++ if conflicts.isEmpty then []
      else "## conflicts" :: conflicts.map fun c => "- " ++ c.text g

end State

def Automaton.text (a : Automaton) (g : Grammar) : String :=
  let sections := a.states.toList.zipIdx.map fun (s, id) =>
    Text.unlines (s.lines g id (a.conflicts.filter (·.state == id)))
  String.intercalate "\n" sections

end ParserGen
