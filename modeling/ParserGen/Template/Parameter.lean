/-!
# Parameters

Symbols of a grammar template are applied to parameters, which are symbols again: `list(sexp)`.
-/

namespace ParserGen

/-- A symbol reference, possibly applied to actual parameters.  An application to no parameters is
not the same as the bare name. -/
inductive Parameter where
  | var (name : String)
  | app (head : String) (args : List Parameter)
deriving Repr, Inhabited

namespace Parameter

/-- The name in head position. -/
def head : Parameter → String
  | var name => name
  | app head _ => head

/-- The actual parameters. -/
def args : Parameter → List Parameter
  | var _ => []
  | app _ args => args

mutual

/-- How deep applications are nested. -/
def depth : Parameter → Nat
  | var _ => 0
  | app _ args => depthAll args + 1

/-- The greatest depth in a list. -/
def depthAll : List Parameter → Nat
  | [] => 0
  | p :: rest => max p.depth (depthAll rest)

end

mutual

/-- A parameter as it is written, `f(a,b)`. -/
def text : Parameter → String
  | var name => name
  | app head [] => head
  | app head (p :: rest) =>
      head ++ "(" ++ String.intercalate "," (p.text :: texts rest) ++ ")"

def texts : List Parameter → List String
  | [] => []
  | p :: rest => p.text :: texts rest

end

mutual

def beq : Parameter → Parameter → Bool
  | var a, var b => a == b
  | app f d, app g e => f == g && beqAll d e
  | _, _ => false

def beqAll : List Parameter → List Parameter → Bool
  | [], [] => true
  | p :: d, q :: e => beq p q && beqAll d e
  | _, _ => false

end

mutual

theorem beq_iff_eq : ∀ p q : Parameter, beq p q = true ↔ p = q
  | var a, var b => by simp [beq]
  | var _, app _ _ => by simp [beq]
  | app _ _, var _ => by simp [beq]
  | app f d, app g e => by simp [beq, beqAll_iff_eq d e]

theorem beqAll_iff_eq : ∀ d e : List Parameter, beqAll d e = true ↔ d = e
  | [], [] => by simp [beqAll]
  | [], _ :: _ => by simp [beqAll]
  | _ :: _, [] => by simp [beqAll]
  | p :: d, q :: e => by simp [beqAll, beq_iff_eq p q, beqAll_iff_eq d e]

end

instance : DecidableEq Parameter := fun p q => decidable_of_iff _ (beq_iff_eq p q)

end Parameter
end ParserGen
