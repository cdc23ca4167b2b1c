import Std.Data.TreeMap
import ParserGen.Sorts.Arena
import ParserGen.Template.Basic

/-!
# Sort inference

Every rule of a template has a sort, the arrow from the sorts of its formal parameters.  Tokens, the
symbols of a branch and the start symbol have the sort `*`; a symbol that is applied has the arrow
from the sorts of its arguments.  What this leaves open is taken to be `*`.
-/

namespace ParserGen

/-- Why a template has no sorts. -/
inductive SortError where
  | undefined (symbol : String)
  | duplicate (symbol : String)
  | noStartSymbol
  | tooManyVariables
  | illSorted (symbol : String) (expected found : SortTerm) (cause : UnifyError)
  | cyclic (symbol : String) (expected found : SortTerm) (cause : UnifyError)
deriving DecidableEq, Repr

namespace SortError

def message : SortError → String
  | undefined symbol => "undefined symbol `" ++ symbol ++ "'"
  | duplicate symbol => "the symbol `" ++ symbol ++ "' is defined more than once"
  | noStartSymbol => "the grammar has no rules to start from"
  | tooManyVariables => tooManyVariablesMessage
  | illSorted symbol expected found _ =>
      "ill-sorted symbol `" ++ symbol ++ "': expected " ++ expected.text ++ ", found " ++ found.text
  | cyclic symbol expected found _ =>
      "the sort of `" ++ symbol ++ "' would be cyclic (" ++ found.text ++ " against "
        ++ expected.text ++ ")"

/-- The failed unification behind an error. -/
def cause? : SortError → Option UnifyError
  | illSorted _ _ _ cause => some cause
  | cyclic _ _ _ cause => some cause
  | _ => none

end SortError

/-- The sorts of the rules of a template, in the order of the rules. -/
abbrev RuleSorts := List (String × GroundSort)

namespace Template

/-- The variables that stand for the sorts of the names in scope; formal parameters hide the tokens
and rules of the same name. -/
structure Scope where
  globals : Std.TreeMap String Nat
  locals : List (String × Nat)

def Scope.find (s : Scope) (name : String) : Except SortError Nat :=
  match s.locals.lookup name with
  | some v => .ok v
  | none =>
      match s.globals[name]? with
      | some v => .ok v
      | none => .error (.undefined name)

/-- Make `v` the sort of a token or rule, of which there must be no other of this name. -/
def declareGlobal (globals : Std.TreeMap String Nat) (name : String) (v : Nat) :
    Except SortError (Std.TreeMap String Nat) :=
  if globals.contains name then .error (.duplicate name) else .ok (globals.insert name v)

/-- A variable for an unknown sort. -/
def freshVariable (a : SortArena) : Except SortError (Nat × SortArena) :=
  match a.fresh with
  | some r => .ok r
  | none => .error .tooManyVariables

/-- A variable for the arrow from `operands`. -/
def arrowVariable (a : SortArena) (operands : List Nat) : Except SortError (Nat × SortArena) :=
  match a.arrow operands with
  | some r => .ok r
  | none => .error .tooManyVariables

/-- A variable for each of `count` unknown sorts. -/
def freshVariables (a : SortArena) : Nat → Except SortError (List Nat × SortArena)
  | 0 => .ok ([], a)
  | count + 1 => do
      let (v, a) ← freshVariable a
      let (vs, a) ← freshVariables a count
      .ok (v :: vs, a)

/-- Give each formal parameter a variable; `locals` are those that have one already. -/
def declareFormals (a : SortArena) (locals : List (String × Nat)) :
    List String → Except SortError (List (String × Nat) × SortArena)
  | [] => .ok (locals, a)
  | name :: rest => do
      let (v, a) ← freshVariable a
      if (locals.lookup name).isSome then .error (.duplicate name)
      else declareFormals a (locals ++ [(name, v)]) rest

/-- Declare the rules in turn; the result has the formal parameters of each rule. -/
def declareRules (a : SortArena) (globals : Std.TreeMap String Nat) :
    List TemplateRule →
      Except SortError (SortArena × Std.TreeMap String Nat × List (List (String × Nat)))
  | [] => .ok (a, globals, [])
  | rule :: rest => do
      let (locals, a) ← declareFormals a [] rule.formals
      let (head, a) ← arrowVariable a (locals.map (·.2))
      let globals ← declareGlobal globals rule.name head
      let (a, globals, others) ← declareRules a globals rest
      .ok (a, globals, locals :: others)

/-- Let `symbol` have the sort that is expected of it.  The two sorts reported are those of the
variables that could not be unified, as they are after the attempt. -/
def unifyAt (a : SortArena) (symbol : String) (found expected : Nat) :
    Except SortError SortArena :=
  match a.unify found expected with
  | (.ok (), a) => .ok a
  | (.error (.arity v w), a) =>
      .error (.illSorted symbol (a.decode w) (a.decode v) (.arity v w))
  | (.error (.occurs v w), a) =>
      .error (.cyclic symbol (a.decode w) (a.decode v) (.occurs v w))

mutual

/-- Let a parameter have the sort `expected`. -/
def checkParameter (s : Scope) (a : SortArena) : Parameter → Nat → Except SortError SortArena
  | .var name, expected => do
      let v ← s.find name
      unifyAt a name v expected
  | .app name args, expected => do
      let head ← s.find name
      let (operands, a) ← freshVariables a args.length
      let (shape, a) ← arrowVariable a operands
      let a ← unifyAt a name head shape
      let a ← checkArguments s a args operands
      unifyAt a (Parameter.app name args).text SortArena.star expected

/-- Let each argument have the sort of the operand in its place. -/
def checkArguments (s : Scope) (a : SortArena) :
    List Parameter → List Nat → Except SortError SortArena
  | p :: ps, v :: vs => do
      let a ← checkParameter s a p v
      checkArguments s a ps vs
  | _, _ => .ok a

end

/-- Let every symbol of every branch of a rule have the sort `*`. -/
def checkRule (s : Scope) (a : SortArena) (rule : TemplateRule) : Except SortError SortArena :=
  rule.branches.foldlM
    (fun a branch => branch.elements.foldlM (fun a p => checkParameter s a p SortArena.star) a) a

/-- Check each rule, with the formal parameters in its place. -/
def checkRules (globals : Std.TreeMap String Nat) (a : SortArena) :
    List TemplateRule → List (List (String × Nat)) → Except SortError SortArena
  | rule :: rules, locals :: others => do
      let a ← checkRule ⟨globals, locals⟩ a rule
      checkRules globals a rules others
  | _, _ => .ok a

/-- Let the start symbol have the sort `*`; it has to be a rule. -/
def checkStart (t : Template) (globals : Std.TreeMap String Nat) (a : SortArena) :
    Except SortError SortArena :=
  match t.startName? with
  | none => .error .noStartSymbol
  | some name =>
      if t.rules.any (·.name == name) then do
        let v ← Scope.find ⟨globals, []⟩ name
        unifyAt a name v SortArena.star
      else .error (.undefined name)

/-- The sort of each rule. -/
def readSorts (globals : Std.TreeMap String Nat) (a : SortArena) :
    List TemplateRule → Except SortError RuleSorts
  | [] => .ok []
  | rule :: rest => do
      let v ← Scope.find ⟨globals, []⟩ rule.name
      let sorts ← readSorts globals a rest
      .ok ((rule.name, (a.decode v).ground) :: sorts)

/-- Infer the sort of every rule. -/
def inferSorts (t : Template) : Except SortError RuleSorts := do
  let globals ← t.tokens.foldlM (fun globals name => declareGlobal globals name SortArena.star) ∅
  let (a, globals, formals) ← declareRules SortArena.initial globals t.rules
  let a ← checkRules globals a t.rules formals
  let a ← checkStart t globals a
  readSorts globals a t.rules

end Template
end ParserGen
