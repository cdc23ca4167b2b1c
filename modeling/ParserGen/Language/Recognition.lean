import ParserGen.Automaton.Table
import ParserGen.Engine.Run

/-!
# Accepted strings

The strings that an automaton accepts, and all strings that could be tried.
-/

namespace ParserGen

/-- Run an automaton on a string; the engine is resumed `limit` times at most. -/
def Automaton.run (a : Automaton) (limit : Nat) (input : List Nat) : Run Nat Nat Nat Nat :=
  Run.ofInput a.table limit input

/-- Whether an automaton accepts a string, if the engine says so within `limit` calls. -/
def Automaton.accepts? (a : Automaton) (limit : Nat) (input : List Nat) :
    Option (Except ParseError Bool) :=
  match (a.run limit input).outcome with
  | .accepted => some (.ok true)
  | .rejected => some (.ok false)
  | .error cause => some (.error cause)
  | .exhausted => none

namespace Language

/-- The strings of exactly `length` letters, in the order of the alphabet. -/
def stringsOfLength (alphabet : List Nat) : Nat → List (List Nat)
  | 0 => [[]]
  | length + 1 =>
      (stringsOfLength alphabet length).flatMap fun string =>
        alphabet.map fun letter => string ++ [letter]

/-- The strings of at most `length` letters, the shorter ones first. -/
def stringsUpTo (alphabet : List Nat) (length : Nat) : List (List Nat) :=
  (List.range (length + 1)).flatMap (stringsOfLength alphabet)

end Language
end ParserGen
