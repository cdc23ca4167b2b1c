/-!
# Sorts

The sort of a grammar symbol says what parameters the symbol takes: `*` if it takes none, and
`(s₁, …, sₙ) -> *` if it takes `n` parameters of the sorts `s₁` to `sₙ`.  While sorts are being
inferred, variables stand for parts that are not known yet.
-/

namespace ParserGen

/-- A sort in which variables may stand for unknown parts. -/
inductive SortTerm where
  | var (id : Nat)
  | arrow (domain : List SortTerm)
deriving Repr, Inhabited

/-- A sort without variables. -/
inductive GroundSort where
  | arrow (domain : List GroundSort)
deriving Repr, Inhabited

/-- The arrow from operands with these texts. -/
def arrowText (domain : List String) : String :=
  if domain.isEmpty then "*" else "(" ++ String.intercalate ", " domain ++ ") -> *"

/-! ## Ground sorts -/

namespace GroundSort

/-- The sort of a symbol without parameters. -/
def star : GroundSort := .arrow []

def domain : GroundSort → List GroundSort
  | arrow domain => domain

/-- The number of parameters. -/
def arity (s : GroundSort) : Nat := s.domain.length

mutual

def beq : GroundSort → GroundSort → Bool
  | arrow d, arrow e => beqAll d e

def beqAll : List GroundSort → List GroundSort → Bool
  | [], [] => true
  | s :: d, t :: e => beq s t && beqAll d e
  | _, _ => false

end

mutual

theorem beq_iff_eq : ∀ s t : GroundSort, beq s t = true ↔ s = t
  | arrow d, arrow e => by simp [beq, beqAll_iff_eq d e]

theorem beqAll_iff_eq : ∀ d e : List GroundSort, beqAll d e = true ↔ d = e
  | [], [] => by simp [beqAll]
  | [], _ :: _ => by simp [beqAll]
  | _ :: _, [] => by simp [beqAll]
  | s :: d, t :: e => by simp [beqAll, beq_iff_eq s t, beqAll_iff_eq d e]

end

instance : DecidableEq GroundSort := fun s t => decidable_of_iff _ (beq_iff_eq s t)

mutual

def text : GroundSort → String
  | arrow domain => arrowText (texts domain)

def texts : List GroundSort → List String
  | [] => []
  | s :: rest => s.text :: texts rest

end

end GroundSort

/-! ## Sorts with variables -/

namespace SortTerm

def star : SortTerm := .arrow []

/-- The number of parameters, if it is known. -/
def arity? : SortTerm → Option Nat
  | var _ => none
  | arrow domain => some domain.length

mutual

def beq : SortTerm → SortTerm → Bool
  | var m, var n => m == n
  | arrow d, arrow e => beqAll d e
  | _, _ => false

def beqAll : List SortTerm → List SortTerm → Bool
  | [], [] => true
  | s :: d, t :: e => beq s t && beqAll d e
  | _, _ => false

end

mutual

theorem beq_iff_eq : ∀ s t : SortTerm, beq s t = true ↔ s = t
  | var m, var n => by simp [beq]
  | var _, arrow _ => by simp [beq]
  | arrow _, var _ => by simp [beq]
  | arrow d, arrow e => by simp [beq, beqAll_iff_eq d e]

theorem beqAll_iff_eq : ∀ d e : List SortTerm, beqAll d e = true ↔ d = e
  | [], [] => by simp [beqAll]
  | [], _ :: _ => by simp [beqAll]
  | _ :: _, [] => by simp [beqAll]
  | s :: d, t :: e => by simp [beqAll, beq_iff_eq s t, beqAll_iff_eq d e]

end

instance : DecidableEq SortTerm := fun s t => decidable_of_iff _ (beq_iff_eq s t)

mutual

def text : SortTerm → String
  | var id => "?" ++ toString id
  | arrow domain => arrowText (texts domain)

def texts : List SortTerm → List String
  | [] => []
  | s :: rest => s.text :: texts rest

end

mutual

/-- Put `*` for each variable. -/
def ground : SortTerm → GroundSort
  | var _ => .star
  | arrow domain => .arrow (groundAll domain)

def groundAll : List SortTerm → List GroundSort
  | [] => []
  | s :: rest => s.ground :: groundAll rest

end

end SortTerm

mutual

/-- A ground sort as a sort that happens to have no variables. -/
def GroundSort.toTerm : GroundSort → SortTerm
  | .arrow domain => .arrow (GroundSort.toTerms domain)

def GroundSort.toTerms : List GroundSort → List SortTerm
  | [] => []
  | s :: rest => s.toTerm :: GroundSort.toTerms rest

end

end ParserGen
