import ParserGen.Automaton.Buildable
import ParserGen.Automaton.Closure
import ParserGen.Automaton.Merging
import ParserGen.Event
import ParserGen.WorkQueue

/-!
# The graph of states

States are created and connected until none of them has to be looked at again.  A state whose kernel
grows by a merge is looked at once more, and then gets its edges anew.
-/

namespace ParserGen

/-- The states found so far.  A state is known by the kernels in `registry`, latest first, among
them those it had before it grew. -/
structure StateGraph where
  kernels : Array ItemSet
  edges : Array (List (Symbol × Nat))
  registry : List (ItemSet × Nat)
  pending : WorkQueue Nat
  events : Array Event

/-- States are numbered with thirty-two bits. -/
def stateLimit : Nat := 1 <<< 32

namespace StateGraph

def empty : StateGraph := ⟨#[], #[], [], .empty, #[]⟩

def kernel (graph : StateGraph) (s : Nat) : ItemSet := graph.kernels.getD s ∅

def report (graph : StateGraph) (e : Event) : StateGraph :=
  { graph with events := graph.events.push e }

/-- Create the state of a kernel. -/
def create (graph : StateGraph) (kernel : ItemSet) : Except BuildError (Nat × StateGraph) :=
  let s := graph.kernels.size
  if s < stateLimit then
    .ok (s,
      { kernels := graph.kernels.push kernel
        edges := graph.edges.push []
        registry := (kernel, s) :: graph.registry
        pending := graph.pending.add s
        events := graph.events.push (.newState s) })
  else .error .tooManyStates

/-- Add the lookaheads of a kernel to a state, which is looked at again if it grows by that. -/
def mergeInto (graph : StateGraph) (s : Nat) (incoming : ItemSet) : StateGraph :=
  let kernel := graph.kernel s
  let grown := kernel.join incoming
  if grown = kernel then graph
  else
    { graph with
      kernels := graph.kernels.setIfInBounds s grown
      registry := (grown, s) :: graph.registry
      pending := graph.pending.add s
      events := graph.events.push (.mergedLookaheads s) }

/-- The first state that can take in a kernel, with the way it does so. -/
def host? (mode : MergeMode) (graph : StateGraph) (kernel : ItemSet) :
    Option (Nat × ItemSet.MergeDecision) :=
  (List.range graph.kernels.size).findSome? fun s =>
    let existing := graph.kernel s
    if existing.core = kernel.core then
      match existing.decideMerge mode kernel with
      | .distinct => none
      | decision => some (s, decision)
    else none

/-- Find or create the state of a kernel. -/
def place (mode : MergeMode) (graph : StateGraph) (kernel : ItemSet) :
    Except BuildError (Nat × StateGraph) :=
  match graph.registry.lookup kernel with
  | some s => .ok (s, graph)
  | none =>
      match graph.host? mode kernel with
      | some (s, .merge) => .ok (s, graph.mergeInto s kernel)
      | some (s, _) => .ok (s, graph)
      | none => graph.create kernel

/-- Find or create the states that a state is connected to. -/
def placeAll (mode : MergeMode) (graph : StateGraph) :
    List (Symbol × ItemSet) → Except BuildError (List (Symbol × Nat) × StateGraph)
  | [] => .ok ([], graph)
  | (x, kernel) :: rest => do
      let (s, graph) ← graph.place mode kernel
      let (edges, graph) ← placeAll mode graph rest
      .ok ((x, s) :: edges, graph)

/-- Give a state its edges. -/
def connect (g : Grammar) (first : FirstTable) (mode : MergeMode) (graph : StateGraph) (s : Nat) :
    Except BuildError StateGraph := do
  let items := (graph.kernel s).closure g first
  let (edges, graph) ← graph.placeAll mode (items.transitions g)
  .ok
    { graph with
      edges := graph.edges.setIfInBounds s edges
      events := graph.events.push (.connected s edges.length) }

/-- Connect the pending states in turn, at most `steps` of them. -/
def saturate (g : Grammar) (first : FirstTable) (mode : MergeMode) :
    Nat → StateGraph → Except BuildError StateGraph
  | 0, graph => .ok graph
  | steps + 1, graph =>
      match graph.pending.pop? with
      | none => .ok graph
      | some (s, pending) =>
          match connect g first mode { graph with pending := pending } s with
          | .ok next => saturate g first mode steps next
          | .error e => .error e

/-- A state becomes pending when it is created and whenever one of its items gets a new lookahead,
which is the end of input or a terminal on some right-hand side. -/
def stepBound (g : Grammar) : Nat :=
  stateLimit * (1 + (g.symbolCount + 1) * (g.symbolCount + 1)) + 1

/-- The kernel of the initial state: nothing of the augmented rule has been recognised. -/
def initialKernel : ItemSet :=
  ItemSet.ofRows [(Item.start augmentedRule, IdSet.singleton endOfInput)]

/-- The graph of all states of a grammar. -/
def ofGrammar (g : Grammar) (first : FirstTable) (mode : MergeMode) :
    Except BuildError StateGraph := do
  let (_, graph) ← empty.place mode initialKernel
  let graph ← graph.saturate g first mode (stepBound g)
  .ok (graph.report (.populated graph.kernels.size))

/-! ## Reachable states -/

/-- The states that an edge of `s` leads to. -/
def successors (graph : StateGraph) (s : Nat) : List Nat :=
  (graph.edges.getD s []).map (·.2)

/-- Walk through the graph breadth first, `steps` states at most.  The states of `queue` come next;
they are among the `seen` ones. -/
def walk (graph : StateGraph) : Nat → IdSet → List Nat → List Nat
  | 0, _, _ => []
  | _, _, [] => []
  | steps + 1, seen, s :: queue =>
      let found := ((graph.successors s).filter fun t =>
        t < graph.edges.size && !seen.contains t).eraseDups
      s :: walk graph steps (seen ∪ IdSet.ofList found) (queue ++ found)

/-- The states that can be reached from the initial one, in breadth-first order. -/
def reachable (graph : StateGraph) : List Nat :=
  graph.walk graph.kernels.size (IdSet.singleton 0) [0]

end StateGraph
end ParserGen
