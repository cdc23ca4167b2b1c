import ParserGen.Event
import ParserGen.Template.Expansion.Substitution
import ParserGen.Template.SortInference
import ParserGen.WorkQueue

/-!
# Instances of rules

Each closed application of a rule is an instance, and each branch of an instance becomes a rule of
the expanded grammar.  Instances are numbered as they are first mentioned; the instance `i` is the
nonterminal `i + 1` of the expanded grammar, and the token `i` of the template its terminal `i + 1`.
The numbers of the instances that have not been expanded yet wait in a queue.
-/

namespace ParserGen

/-- A closed application of the rule with the number `source` in the template. -/
structure RuleInstance where
  closed : Parameter
  source : Nat
deriving Repr

/-- A branch of an instance, with its formal parameters replaced. -/
structure InstanceRule where
  source : Nat
  branch : Nat
  owner : Nat
  right : List Symbol
  precedence : Option Precedence
deriving Repr

/-- An expansion in progress; `queue` has the numbers of the instances to be expanded. -/
structure Expansion where
  instances : Array RuleInstance
  queue : WorkQueue Nat
  rules : Array InstanceRule
  events : Array Event

/-- Deeper nesting is taken as a sign of divergence. -/
def maxInstanceDepth : Nat := 16

namespace Template

/-- The rule of a name with its number; the last of several rules of one name. -/
def ruleNamed? (t : Template) (name : String) : Option (TemplateRule × Nat) :=
  t.rules.zipIdx.reverse.find? fun entry => entry.1.name == name

/-- The number of a token; the last of several tokens of one name. -/
def tokenNamed? (t : Template) (name : String) : Option Nat :=
  (t.tokens.zipIdx.reverse.find? fun entry => entry.1 == name).map (·.2)

/-- The precedence of each name; the lowest of several levels of one name.  `priority` is that of
the first of the given levels. -/
def precedences (table : Std.TreeMap String Precedence) (priority : Nat) :
    List PrecedenceLevel → Except ExpansionError (Std.TreeMap String Precedence)
  | [] => .ok table
  | level :: rest =>
      if priority < 1 <<< 16 then
        precedences (level.names.foldl (·.insertIfNew · ⟨priority, level.assoc⟩) table)
          (priority + 1) rest
      else .error (.tooManyLevels (level.names.head?.getD ""))

/-- The branches of the rule that has the given number. -/
def branchesOf (t : Template) (source : Nat) : List Branch :=
  (t.rules[source]?.map (·.branches)).getD []

/-- The formal parameters of the rule that has the given number. -/
def formalsOf (t : Template) (source : Nat) : List String :=
  (t.rules[source]?.map (·.formals)).getD []

end Template

/-- What an expansion is made from. -/
structure ExpansionSource where
  template : Template
  sorts : RuleSorts
  levels : Std.TreeMap String Precedence

namespace Expansion

def empty : Expansion := ⟨#[], .empty, #[], #[]⟩

def report (x : Expansion) (e : Event) : Expansion := { x with events := x.events.push e }

/-- The number of the instance for a closed application. -/
def find? (x : Expansion) (closed : Parameter) : Option Nat :=
  x.instances.findIdx? (·.closed == closed)

/-- Check that a closed application may be instantiated; the result is the number of its rule. -/
def sourceOf (src : ExpansionSource) (closed : Parameter) : Except ExpansionError Nat :=
  match src.template.ruleNamed? closed.head with
  | none => .error (.notARule closed.head)
  | some (rule, source) =>
      match src.sorts.lookup closed.head with
      | none => .error (.missingSort closed.head)
      | some sort =>
          if sort.arity ≠ closed.args.length ∨ rule.formals.length ≠ closed.args.length then
            .error (.wrongArgumentCount closed)
          else if maxInstanceDepth < closed.depth then .error (.diverging closed)
          else .ok source

/-- The number of the instance for a closed application; a new one is registered and waits to be
expanded. -/
def instantiate (src : ExpansionSource) (x : Expansion) (closed : Parameter) :
    Except ExpansionError Nat × Expansion :=
  match x.find? closed with
  | some i => (.ok i, x)
  | none =>
      match sourceOf src closed with
      | .error e => (.error e, x)
      | .ok source =>
          (.ok x.instances.size,
            { x with
              instances := x.instances.push ⟨closed, source⟩
              queue := x.queue.add x.instances.size
              events := x.events.push (.instantiated closed) })

/-- The symbol for a closed parameter: a token if it is the bare name of one, else an instance. -/
def resolve (src : ExpansionSource) (x : Expansion) (closed : Parameter) :
    Except ExpansionError Symbol × Expansion :=
  let token := if closed.args.isEmpty then src.template.tokenNamed? closed.head else none
  match token with
  | some i => (.ok (.terminal (i + 1)), x)
  | none =>
      match x.instantiate src closed with
      | (.ok i, x) => (.ok (.nonterminal (i + 1)), x)
      | (.error e, x) => (.error e, x)

/-- Replace the formal parameters in each element of a branch and look up its symbol. -/
def resolveAll (src : ExpansionSource) (env : Bindings) (x : Expansion) :
    List Parameter → Except ExpansionError (List Symbol) × Expansion
  | [] => (.ok [], x)
  | p :: rest =>
      match p.subst env with
      | .error e => (.error e, x)
      | .ok closed =>
          match x.resolve src closed with
          | (.error e, x) => (.error e, x)
          | (.ok symbol, x) =>
              match resolveAll src env x rest with
              | (.error e, x) => (.error e, x)
              | (.ok symbols, x) => (.ok (symbol :: symbols), x)

/-- The precedence that a branch names, if it names one. -/
def branchPrecedence (src : ExpansionSource) (branch : Branch) :
    Except ExpansionError (Option Precedence) :=
  match branch.precedence with
  | none => .ok none
  | some name =>
      match src.levels[name]? with
      | some p => .ok (some p)
      | none => .error (.unknownPrecedence name)

/-- Add a rule to an instance, unless the instance has one with the same right-hand side. -/
def addRule (x : Expansion) (closed : Parameter) (rule : InstanceRule) : Expansion :=
  if x.rules.any fun other => other.owner == rule.owner && other.right == rule.right then
    x.report (.droppedDuplicate closed)
  else { x with rules := x.rules.push rule }

/-- Expand some branches of an instance, each given with its number. -/
def expandBranches (src : ExpansionSource) (owner : Nat) (inst : RuleInstance) (env : Bindings)
    (x : Expansion) : List (Branch × Nat) → Except ExpansionError Unit × Expansion
  | [] => (.ok (), x)
  | (branch, b) :: rest =>
      match resolveAll src env x branch.elements with
      | (.error e, x) => (.error e, x)
      | (.ok right, x) =>
          match branchPrecedence src branch with
          | .error e => (.error e, x)
          | .ok precedence =>
              let rule : InstanceRule := ⟨inst.source, b, owner, right, precedence⟩
              expandBranches src owner inst env (x.addRule inst.closed rule) rest

/-- Expand all branches of an instance. -/
def expandInstance (src : ExpansionSource) (x : Expansion) (owner : Nat) (inst : RuleInstance) :
    Except ExpansionError Unit × Expansion :=
  let env := Bindings.ofLists (src.template.formalsOf inst.source) inst.closed.args
  expandBranches src owner inst env x (src.template.branchesOf inst.source).zipIdx

/-- Expand the instance that has the number `i`. -/
def process (src : ExpansionSource) (x : Expansion) (i : Nat) :
    Except ExpansionError Unit × Expansion :=
  match x.instances[i]? with
  | none => (.error (.unknownInstance i), x)
  | some inst => x.expandInstance src i inst

end Expansion
end ParserGen
