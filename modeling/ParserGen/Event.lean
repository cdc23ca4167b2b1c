import ParserGen.Automaton.ConflictPrinter
import ParserGen.Sorts.Term
import ParserGen.Template.Parameter

/-!
# Events

What the stages report while they work.  A stage that fails has reported what came before.
-/

namespace ParserGen

/-- How much attention an event deserves. -/
inductive Level where
  | warn
  | debug
  | trace
deriving DecidableEq, Repr

def Level.text : Level → String
  | warn => "WARN"
  | debug => "DEBUG"
  | trace => "TRACE"

/-- Levels in ascending order of detail. -/
def Level.detail : Level → Nat
  | warn => 0
  | debug => 1
  | trace => 2

/-- Something worth reporting. -/
inductive Event where
  | inferredSort (rule : String) (sort : GroundSort)
  | instantiated (closed : Parameter)
  | droppedDuplicate (closed : Parameter)
  | unusedRule (name : String)
  | expanded (nonterminals rules : Nat)
  | unproductive (name : String)
  | firstSetsConverged (sweeps : Nat)
  | newState (state : Nat)
  | mergedLookaheads (state : Nat)
  | connected (state edges : Nat)
  | populated (states : Nat)
  | collected (states : Nat)
  | conflict (grammar : Grammar) (found : Conflict)
  | built (states conflicts : Nat)

namespace Event

def level : Event → Level
  | droppedDuplicate _ | unusedRule _ | unproductive _ => .warn
  | inferredSort _ _ | expanded _ _ | populated _ | collected _ | conflict _ _ | built _ _ => .debug
  | instantiated _ | firstSetsConverged _ | newState _ | mergedLookaheads _ | connected _ _ =>
      .trace

def message : Event → String
  | inferredSort rule sort => "inferred sort rule=" ++ rule ++ " sort=" ++ sort.text
  | instantiated closed => "instantiate " ++ closed.text
  | droppedDuplicate closed => "dropping a duplicated production of `" ++ closed.text ++ "'"
  | unusedRule name => "the rule `" ++ name ++ "' is never used"
  | expanded nonterminals rules =>
      "expanded into " ++ toString nonterminals ++ " nonterminals and " ++ toString rules
        ++ " rules"
  | unproductive name => "the nonterminal `" ++ name ++ "' derives no terminal string"
  | firstSetsConverged sweeps => "first sets converged after " ++ toString sweeps ++ " rounds"
  | newState state => "new state " ++ toString state
  | mergedLookaheads state => "merged lookaheads into state " ++ toString state
  | connected state edges => "state " ++ toString state ++ " has " ++ toString edges ++ " edges"
  | populated states => "populated " ++ toString states ++ " states"
  | collected states => "collected " ++ toString states ++ " unreachable states"
  | conflict grammar found => found.text grammar
  | built states conflicts =>
      "built " ++ toString states ++ " states with " ++ toString conflicts ++ " conflicts"

/-- An event as a line of a log. -/
def line (e : Event) : String := e.level.text ++ " " ++ e.message

/-- The events that a log of the given level shows. -/
def upTo (level : Level) (events : List Event) : List Event :=
  events.filter fun e => e.level.detail ≤ level.detail

end Event

/-- A result together with the events reported on the way to it. -/
structure Traced (ε α : Type) where
  events : List Event
  result : Except ε α

namespace Traced

variable {ε δ α β : Type}

/-- Go on with the value of a result; the events of both parts are kept. -/
def andThen (x : Traced ε α) (f : α → Traced ε β) : Traced ε β :=
  match x.result with
  | .ok a => { events := x.events ++ (f a).events, result := (f a).result }
  | .error e => { events := x.events, result := .error e }

/-- Report an error as one of another kind. -/
def mapError (f : ε → δ) (x : Traced ε α) : Traced δ α :=
  { events := x.events, result := x.result.mapError f }

def map (f : α → β) (x : Traced ε α) : Traced ε β :=
  { events := x.events, result := x.result.map f }

end Traced
end ParserGen
