import ParserGen.Automaton.Basic
import ParserGen.Automaton.StateGraph
import ParserGen.Grammar.Productivity

/-!
# Building automata

The states of a grammar that can be reached are numbered breadth first, closed, and given their
actions.
-/

namespace ParserGen

/-- What is reported when the FIRST sets of a grammar are found. -/
def FirstTable.events (g : Grammar) : List Event := [.firstSetsConverged (sweepCount g)]

/-- What is reported when a grammar is found to be buildable: its unproductive nonterminals. -/
def Grammar.warnings (g : Grammar) : List Event :=
  g.unproductive.map fun n => .unproductive (g.symbolName (.nonterminal n))

namespace Automaton

/-- The edges of a state under its new numbering, in which a state has its place in `order`, and
those of them that are on nonterminals. -/
def renumberEdges (order : List Nat) :
    List (Symbol × Nat) → Option (List (Symbol × Nat) × List (Nat × Nat))
  | [] => some ([], [])
  | (x, target) :: rest => do
      let new ← order.idxOf? target
      let (transitions, gotos) ← renumberEdges order rest
      match x with
      | .terminal _ => some ((x, new) :: transitions, gotos)
      | .nonterminal n => some ((x, new) :: transitions, (n, new) :: gotos)

/-- Finish the state that was numbered `old` and becomes `new`. -/
def finishState (g : Grammar) (first : FirstTable) (graph : StateGraph) (order : List Nat)
    (old new : Nat) : Except BuildError (State × List Conflict) :=
  match renumberEdges order (graph.edges.getD old []) with
  | none => .error (.danglingEdge old)
  | some (transitions, gotos) =>
      let items := (graph.kernel old).closure g first
      let rows := actionRows g new items transitions
      .ok
        ({ items := items
           transitions := transitions
           actions := rows.map fun (t, action, _) => (t, action)
           gotos := gotos },
          rows.filterMap fun (_, _, conflict) => conflict)

/-- The left-hand side of each rule and the length of its right-hand side. -/
def reductionsOf (g : Grammar) : Std.TreeMap Nat (Nat × Nat) :=
  g.ruleList.foldl (fun table r => table.insert r.id (r.left, r.right.length)) ∅

/-- Finish the states that can be reached. -/
def ofStateGraph (g : Grammar) (first : FirstTable) (graph : StateGraph) :
    Except BuildError Automaton := do
  let order := graph.reachable
  let finished ← order.zipIdx.mapM fun (old, new) => finishState g first graph order old new
  .ok
    { states := (finished.map (·.1)).toArray
      conflicts := finished.flatMap (·.2)
      reductions := reductionsOf g }

/-- What is reported while the states of `graph` are finished. -/
def finishingEvents (g : Grammar) (graph : StateGraph) (a : Automaton) : List Event :=
  let lost := graph.kernels.size - graph.reachable.length
  (if lost > 0 then [Event.collected lost] else [])
    ++ a.conflicts.map (Event.conflict g)
    ++ [.built a.size a.conflicts.length]

/-- Finish the states of a graph, if there is one; `opening` was reported before the graph. -/
def conclude (g : Grammar) (first : FirstTable) (opening : List Event) :
    Except BuildError StateGraph → Traced BuildError Automaton
  | .error e => ⟨opening, .error e⟩
  | .ok graph =>
      let growth := opening ++ graph.events.toList
      match ofStateGraph g first graph with
      | .error e => ⟨growth, .error e⟩
      | .ok a => ⟨growth ++ finishingEvents g graph a, .ok a⟩

/-- Build the automaton of a grammar. -/
def generate (mode : MergeMode) (g : Grammar) : Traced BuildError Automaton :=
  match g.checkBuildable with
  | .error e => ⟨[], .error e⟩
  | .ok () =>
      let first := FirstTable.ofGrammar g
      conclude g first (g.warnings ++ FirstTable.events g) (StateGraph.ofGrammar g first mode)

end Automaton
end ParserGen
