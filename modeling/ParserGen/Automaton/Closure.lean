import ParserGen.Automaton.Item
import ParserGen.Fixpoint
import ParserGen.Grammar.FirstSets

/-!
# Closed item sets and their transitions

An item whose marker stands before a nonterminal asks for the rules of that nonterminal, with the
lookaheads that can follow it.  An item set is closed if it holds all that its items ask for.
-/

namespace ParserGen
namespace ItemSet

/-- For each nonterminal that stands after a marker, the terminals that can follow it there. -/
def demands (g : Grammar) (first : FirstTable) (s : ItemSet) : Std.ExtTreeMap Nat IdSet :=
  s.toList.foldl
    (fun wanted row =>
      match row.1.rest g with
      | .nonterminal n :: rest =>
          wanted.alter n fun old => some (old.getD ∅ ∪ first.firstWith rest row.2)
      | _ => wanted)
    ∅

/-- The items that start the rules an item set asks for. -/
def spawned (g : Grammar) (first : FirstTable) (s : ItemSet) : ItemSet :=
  let wanted := s.demands g first
  g.ruleList.foldl
    (fun items r =>
      match wanted[r.left]? with
      | some lookaheads => items.insert (Item.start r.id) lookaheads
      | none => items)
    ∅

/-- Add the lookaheads of a row to those of its item. -/
def addRow (s : ItemSet) (row : Item × IdSet) : ItemSet := s.addLookaheads row.1 row.2

/-- Whether the item of a row is new, or some of its lookaheads are. -/
def isNews (s : ItemSet) (row : Item × IdSet) : Bool :=
  match s[row.1]? with
  | none => true
  | some lookaheads => lookaheads.growsBy row.2

/-- Add what an item set asks for itself. -/
def grow (g : Grammar) (first : FirstTable) (s : ItemSet) : ItemSet × Bool :=
  roundOver addRow isNews (s.spawned g first).toList s

/-- Growth adds the starting item of a rule, or to such an item a lookahead that stands on some
right-hand side or in the set one begins with. -/
def growthBound (g : Grammar) (s : ItemSet) : Nat :=
  g.rules.size * (1 + g.symbolCount + s.allLookaheads.bound) + 1

/-- The least closed item set that includes `s`. -/
def closure (g : Grammar) (first : FirstTable) (s : ItemSet) : ItemSet :=
  iterateWhileChanged (grow g first) (growthBound g s) s

/-- The symbols after the markers, in the order of the first items that have them. -/
def nextSymbols (g : Grammar) (s : ItemSet) : List Symbol :=
  (s.core.filterMap (·.next? g)).eraseDups

/-- The items that have `x` after their marker, with the marker moved over it. -/
def advanceOver (g : Grammar) (s : ItemSet) (x : Symbol) : ItemSet :=
  s.toList.foldl
    (fun items row =>
      if row.1.next? g = some x then items.insert row.1.advance row.2 else items)
    ∅

/-- What each symbol after a marker leads to. -/
def transitions (g : Grammar) (s : ItemSet) : List (Symbol × ItemSet) :=
  (s.nextSymbols g).map fun x => (x, s.advanceOver g x)

end ItemSet
end ParserGen
