import ParserGen.Grammar.Basic

/-!
# Enumerating sentences

The sentences of a grammar are found by expanding the leftmost nonterminal of each sentential form
in turn, breadth first.  Forms that are too long are given up, and so is the search after a number
of forms.  The bounds are machine words, and what is computed from them wraps around.
-/

namespace ParserGen
namespace Grammar

/-- The forms that result from expanding the leftmost nonterminal of a form; none if the form has
terminals only. -/
def expandLeftmost (g : Grammar) (form : List Symbol) : Option (List (List Symbol)) :=
  let before := form.takeWhile Symbol.isTerminal
  match form.drop before.length with
  | .nonterminal n :: after => some ((g.rulesOf n).map fun r => before ++ r.right ++ after)
  | _ => none

/-- The greatest length of a form that is expanded in the search for sentences up to `maxLength`. -/
def formBound (maxLength : UInt64) : UInt64 := 2 * maxLength + 4

/-- Whether a form is too long to be expanded in the search for sentences up to `maxLength`. -/
def tooLong (maxLength : UInt64) (form : List Symbol) : Bool :=
  form.countP Symbol.isTerminal > maxLength.toNat || form.length > (formBound maxLength).toNat

/-- The first form of a queue and what is left of it.  The forms of `front` come first, then those
of `back`, which is kept in reverse. -/
def nextForm? (front back : List (List Symbol)) :
    Option (List Symbol × List (List Symbol) × List (List Symbol)) :=
  match front with
  | form :: front => some (form, front, back)
  | [] =>
      match back.reverse with
      | form :: front => some (form, front, [])
      | [] => none

/-- Search for up to `limit` sentences, looking at up to `steps` forms of a queue. -/
def searchSentences (g : Grammar) (maxLength : UInt64) :
    Nat → Nat → List (List Symbol) → List (List Symbol) → List (List Nat)
  | 0, _, _, _ => []
  | _, 0, _, _ => []
  | steps + 1, limit + 1, front, back =>
      match nextForm? front back with
      | none => []
      | some (form, front, back) =>
          if tooLong maxLength form then
            searchSentences g maxLength steps (limit + 1) front back
          else
            match g.expandLeftmost form with
            | none =>
                form.filterMap Symbol.terminal?
                  :: searchSentences g maxLength steps limit front back
            | some next =>
                searchSentences g maxLength steps (limit + 1) front (next.reverse ++ back)

/-- Up to `limit` sentences of at most `maxLength` terminals. -/
def sentences (g : Grammar) (maxLength limit : UInt64) : List (List Nat) :=
  g.searchSentences maxLength (limit * 100).toNat limit.toNat [[.nonterminal g.start]] []

end Grammar
end ParserGen
