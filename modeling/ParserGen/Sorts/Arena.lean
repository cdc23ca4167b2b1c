import ParserGen.IdSet
import ParserGen.Sorts.Term

/-!
# Unification of sorts

Sort variables live in an arena.  A variable is linked to another one that stands for the same
sort, or it represents its sort itself: an unknown one, or an arrow from operands that are variables
again.  Unification links variables until two of them stand for the same sort.
-/

namespace ParserGen

/-- What an arena holds for a variable. -/
inductive SortCell where
  /-- The variable stands for the same sort as `next`. -/
  | link (next : Nat)
  /-- The variable represents a sort of which nothing is known. -/
  | unknown
  /-- The variable represents the arrow from `operands`. -/
  | arrow (operands : List Nat)
deriving DecidableEq, Repr

/-- Sort variables, of which there may be `limit`. -/
structure SortArena where
  cells : Array SortCell
  limit : Nat
deriving DecidableEq, Repr

/-- Why two variables cannot stand for the same sort. -/
inductive UnifyError where
  /-- They stand for arrows with different numbers of operands. -/
  | arity (found expected : Nat)
  /-- One would be part of itself. -/
  | occurs (found expected : Nat)
deriving DecidableEq, Repr

namespace SortArena

def variableText (v : Nat) : String := "?" ++ toString v

end SortArena

def UnifyError.message : UnifyError → String
  | arity v w =>
      "cannot unify the sorts " ++ SortArena.variableText v ++ " and " ++ SortArena.variableText w
  | occurs v w =>
      "the sort " ++ SortArena.variableText v ++ " would occur in " ++ SortArena.variableText w

/-- No number is left for another sort variable. -/
def tooManyVariablesMessage : String := "too many sort variables"

namespace SortArena

/-- The variable that stands for `*`. -/
def star : Nat := 0

/-- Variables are numbered with thirty-two bits. -/
def defaultLimit : Nat := (1 <<< 32) - 1

/-- The arena that has only the variable `star`. -/
def withLimit (limit : Nat) : SortArena := ⟨#[.arrow []], limit⟩

def initial : SortArena := withLimit defaultLimit

instance : Inhabited SortArena := ⟨initial⟩

/-! ## Allocation -/

/-- A new variable with the given cell, unless the arena is full. -/
def allocate (a : SortArena) (cell : SortCell) : Option (Nat × SortArena) :=
  if a.cells.size < a.limit then some (a.cells.size, { a with cells := a.cells.push cell })
  else none

/-- A variable for an unknown sort. -/
def fresh (a : SortArena) : Option (Nat × SortArena) := a.allocate .unknown

/-- A variable for the arrow from `operands`. -/
def arrow (a : SortArena) (operands : List Nat) : Option (Nat × SortArena) :=
  a.allocate (.arrow operands)

/-! ## Representatives -/

/-- Follow the links from `v`, `steps` of them at most. -/
def follow (a : SortArena) : Nat → Nat → Nat
  | 0, v => v
  | steps + 1, v =>
      match a.cells[v]? with
      | some (.link next) => a.follow steps next
      | _ => v

/-- The variable that represents the sort of `v`. -/
def root (a : SortArena) (v : Nat) : Nat := a.follow a.cells.size v

/-- The operands of a representative, if it is known to be an arrow. -/
def operands? (a : SortArena) (root : Nat) : Option (List Nat) :=
  match a.cells[root]? with
  | some (.arrow operands) => some operands
  | _ => none

/-- The operands of a variable, if it is known to be an arrow. -/
def domain? (a : SortArena) (v : Nat) : Option (List Nat) := a.operands? (a.root v)

/-- Let `v` stand for the same sort as `w`. -/
def link (a : SortArena) (v w : Nat) : SortArena :=
  { a with cells := a.cells.setIfInBounds v (.link w) }

/-- Link to `root` the variables on the way from `v` to it, `steps` of them at most. -/
def compress (a : SortArena) (root : Nat) : Nat → Nat → SortArena
  | 0, _ => a
  | steps + 1, v =>
      match a.cells[v]? with
      | some (.link next) => (a.link v root).compress root steps next
      | _ => a

/-- The variable that represents the sort of `v`, to which all variables on the way are linked. -/
def find (a : SortArena) (v : Nat) : Nat × SortArena :=
  let root := a.root v
  (root, a.compress root a.cells.size v)

/-! ## Occurrence -/

/-- A depth-first search for a part of a sort: the representatives that were met and those of them
whose operands are still to be looked at, the latest one first. -/
structure PartSearch where
  arena : SortArena
  visited : IdSet
  stack : List Nat

/-- Look at operands in turn until one of them is represented by `target`. -/
def PartSearch.look (target : Nat) : List Nat → PartSearch → Bool × PartSearch
  | [], search => (false, search)
  | operand :: rest, search =>
      let (root, arena) := search.arena.find operand
      if root = target then (true, { search with arena })
      else if search.visited.contains root then look target rest { search with arena }
      else look target rest ⟨arena, search.visited.insert root, root :: search.stack⟩

/-- Go on with a search, `steps` representatives at most. -/
def PartSearch.run (target : Nat) : Nat → PartSearch → Bool × SortArena
  | 0, search => (false, search.arena)
  | steps + 1, search =>
      match search.stack with
      | [] => (false, search.arena)
      | root :: stack =>
          match look target ((search.arena.operands? root).getD []) { search with stack } with
          | (true, search) => (true, search.arena)
          | (false, search) => run target steps search

/-- Whether the representative `target` is a proper part of the sort of the representative `root`.
The paths that are followed are compressed.  No representative is met twice. -/
def occurs (a : SortArena) (target root : Nat) : Bool × SortArena :=
  PartSearch.run target (a.cells.size + 1) ⟨a, ∅, [root]⟩

/-- Whether one of two representatives is a proper part of the sort of the other one. -/
def occursEither (a : SortArena) (r s : Nat) : Bool × SortArena :=
  match a.occurs r s with
  | (true, a) => (true, a)
  | (false, a) => a.occurs s r

/-! ## Unification -/

/-- The number of operands of all arrows that still represent a sort. -/
def operandCount (a : SortArena) : Nat :=
  (List.range a.cells.size).foldr (fun v count => ((a.operands? v).getD []).length + count) 0

/-- Link the representative `r`, of which nothing is known, to `s`, unless it is a part of that. -/
def linkUnlessPart (a : SortArena) (cause : UnifyError) (r s : Nat) :
    Except UnifyError (List (Nat × Nat)) × SortArena :=
  match a.occurs r s with
  | (true, a) => (.error cause, a)
  | (false, a) => (.ok [], a.link r s)

/-- Let the representatives `r` and `s` stand for the same sort, provided that the pairs of the
result do so too: these are the operands of two arrows, of which one is linked to the other.  An
error names the variables `v` and `w` that are represented. -/
def unifyRoots (a : SortArena) (v w r s : Nat) : Except UnifyError (List (Nat × Nat)) × SortArena :=
  if r = s then (.ok [], a)
  else
    match a.operands? r, a.operands? s with
    | none, none => (.ok [], a.link r s)
    | none, some _ => a.linkUnlessPart (.occurs v w) r s
    | some _, none => a.linkUnlessPart (.occurs v w) s r
    | some d, some e =>
        if d.length ≠ e.length then (.error (.arity v w), a)
        else
          match a.occursEither r s with
          | (true, a) => (.error (.occurs v w), a)
          | (false, a) => (.ok (d.zip e), a.link r s)

/-- Let `v` and `w` stand for the same sort, provided that the pairs of the result do so too. -/
def unifyOnce (a : SortArena) (v w : Nat) : Except UnifyError (List (Nat × Nat)) × SortArena :=
  let (r, a) := a.find v
  let (s, a) := a.find w
  a.unifyRoots v w r s

/-- Unify the pairs of a list in turn, and what is left to unify of a pair before the next one.  The
arena is also returned if a pair cannot be unified: it then has the links made so far.  A step takes
away a pair, and puts pairs in its place only for the operands of an arrow that is linked. -/
def unifyPairs : Nat → SortArena → List (Nat × Nat) → Except UnifyError Unit × SortArena
  | 0, a, _ => (.ok (), a)
  | _, a, [] => (.ok (), a)
  | steps + 1, a, (v, w) :: pairs =>
      match a.unifyOnce v w with
      | (.ok more, a) => unifyPairs steps a (more ++ pairs)
      | (.error e, a) => (.error e, a)

/-- Let `v` and `w` stand for the same sort. -/
def unify (a : SortArena) (v w : Nat) : Except UnifyError Unit × SortArena :=
  unifyPairs (a.operandCount + 2) a [(v, w)]

/-! ## Reading sorts -/

/-- Read `depth` levels of the sort of `v`. -/
def read (a : SortArena) : Nat → Nat → SortTerm
  | 0, v => .var (a.root v)
  | depth + 1, v =>
      let r := a.root v
      match a.operands? r with
      | some operands => .arrow (operands.map (a.read depth))
      | none => .var r

/-- The sort that `v` stands for; a variable in it is named after its representative.  No part of a
sort is its own part, so a sort has no more levels than the arena has variables. -/
def decode (a : SortArena) (v : Nat) : SortTerm := a.read a.cells.size v

end SortArena
end ParserGen
