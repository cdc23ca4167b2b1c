import ParserGen.Automaton.Conflict

/-!
# Automata

A finished automaton: its states with their items, edges and actions, and the conflicts that were
met on the way.  A state is known by its place in the list; the initial state is state zero.
-/

namespace ParserGen

/-- A state.  Its edges are in the order of the first items that have their symbols after the
marker, its actions are ascending by terminal.  The edges on nonterminals are kept a second time, as
`gotos`. -/
structure State where
  items : ItemSet
  transitions : List (Symbol × Nat)
  actions : List (Nat × Action)
  gotos : List (Nat × Nat)

/-- An automaton.  `reductions` gives the left-hand side of each rule and the length of its
right-hand side. -/
structure Automaton where
  states : Array State
  conflicts : List Conflict
  reductions : Std.TreeMap Nat (Nat × Nat)

namespace State

def action? (s : State) (terminal : Nat) : Option Action := s.actions.lookup terminal

def goto? (s : State) (nonterminal : Nat) : Option Nat := s.gotos.lookup nonterminal

def target? (s : State) (x : Symbol) : Option Nat := s.transitions.lookup x

end State

namespace Automaton

def initialState : Nat := 0

def size (a : Automaton) : Nat := a.states.size

def isEmpty (a : Automaton) : Bool := a.size == 0

def state? (a : Automaton) (s : Nat) : Option State := a.states[s]?

end Automaton
end ParserGen
