import ParserGen.Grammar.Definition
import ParserGen.Template.Basic

/-!
# Substitution of parameters

When a rule is instantiated, its formal parameters are replaced by the actual ones.  The result has
no formal parameters left.
-/

namespace ParserGen

/-- Why a template cannot be expanded. -/
inductive ExpansionError where
  | diverging (closed : Parameter)
  | missingSort (rule : String)
  | unknownPrecedence (name : String)
  | noStartSymbol
  /-- There are more levels than priorities; `name` is the first name of the level too many. -/
  | tooManyLevels (name : String)
  | notARule (name : String)
  | wrongArgumentCount (closed : Parameter)
  /-- The turn of the number `i` has come, but no instance has it. -/
  | unknownInstance (i : Nat)
  /-- Something other than a name is put in the place of a head. -/
  | appliedNonSymbol (actual : Parameter)
  | definition (cause : DefinitionError)
deriving Repr

namespace ExpansionError

def internalText (symbol reason : String) : String :=
  "internal error at `" ++ symbol ++ "': " ++ reason

def message : ExpansionError → String
  | diverging closed => "the expansion of `" ++ closed.text ++ "' does not terminate"
  | missingSort rule => "no sort was inferred for the rule `" ++ rule ++ "'"
  | unknownPrecedence name => "unknown precedence level `" ++ name ++ "'"
  | noStartSymbol => internalText "$start" "no start symbol"
  | tooManyLevels name => internalText name "too many precedence levels"
  | notARule name => internalText name "not a rule"
  | wrongArgumentCount closed => internalText closed.text "wrong number of arguments"
  | unknownInstance i => internalText ("#" ++ toString i) "unknown instance"
  | appliedNonSymbol actual =>
      internalText actual.text "applied an argument that is not a symbol"
  | definition cause => cause.message

end ExpansionError

/-- The actual parameters of formal ones. -/
abbrev Bindings := List (String × Parameter)

/-- Bind formal parameters to actual ones; the last of several formals of one name counts. -/
def Bindings.ofLists (formals : List String) (actuals : List Parameter) : Bindings :=
  (formals.zip actuals).reverse

namespace Parameter

/-- What a head becomes: the name it is bound to, if it is a formal parameter. -/
def substHead (env : Bindings) (head : String) : Except ExpansionError String :=
  match env.lookup head with
  | none => .ok head
  | some (.var actual) => .ok actual
  | some actual => .error (.appliedNonSymbol actual)

/-- The application of a name, which is the name itself if there are no arguments. -/
def ofApplication (head : String) (args : List Parameter) : Parameter :=
  if args.isEmpty then .var head else .app head args

mutual

/-- Replace the formal parameters in a parameter; its arguments come before its head. -/
def subst (env : Bindings) : Parameter → Except ExpansionError Parameter
  | var name => .ok ((env.lookup name).getD (.var name))
  | app head args =>
      match substAll env args with
      | .error e => .error e
      | .ok args =>
          match substHead env head with
          | .error e => .error e
          | .ok head => .ok (ofApplication head args)

def substAll (env : Bindings) : List Parameter → Except ExpansionError (List Parameter)
  | [] => .ok []
  | p :: rest =>
      match subst env p with
      | .error e => .error e
      | .ok p =>
          match substAll env rest with
          | .error e => .error e
          | .ok rest => .ok (p :: rest)

end

end Parameter
end ParserGen
