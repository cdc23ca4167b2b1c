import Std.Data.TreeSet
import ParserGen.Grammar.Basic
import ParserGen.Text

/-!
# Defining a grammar

A grammar is defined by a list of declarations.  Each declaration either takes effect and has a
number as its result, or is refused with a `DefinitionError`.  Finishing a definition adds the
augmented rule.
-/

namespace ParserGen

/-- One step of a grammar definition. -/
inductive Declaration where
  | terminal (name : String) (precedence : Option Precedence)
  | nonterminal (name : String)
  | rule (left : Nat) (right : List Symbol) (precedence : Option Precedence)
  | start (symbol : Nat)
deriving DecidableEq, Repr

/-- What makes a name unusable. -/
inductive NameFault where
  | empty
  | reserved
  | blank
deriving DecidableEq, Repr

/-- What a grammar has a bounded number of. -/
inductive Resource where
  | terminals
  | nonterminals
  | rules
deriving DecidableEq, Repr

/-- Why a declaration, or the end of a definition, is refused. -/
inductive DefinitionError where
  | invalidName (name : String) (fault : NameFault)
  | redeclared (name : String)
  | duplicateRule (left : String)
  | invalidStart
  | noNonterminals
  | tooMany (what : Resource)
deriving DecidableEq, Repr

def NameFault.text : NameFault → String
  | empty => "empty"
  | reserved => "the `$' prefix is reserved"
  | blank => "contains whitespace"

def Resource.text : Resource → String
  | terminals => "terminal symbols"
  | nonterminals => "nonterminal symbols"
  | rules => "production rules"

def DefinitionError.message : DefinitionError → String
  | invalidName name fault => "invalid symbol name `" ++ name ++ "': " ++ fault.text
  | redeclared name => "the symbol `" ++ name ++ "' is declared twice"
  | duplicateRule left => "a production of `" ++ left ++ "' is declared twice"
  | invalidStart => "the start symbol must be a declared nonterminal"
  | noNonterminals => "the grammar declares no nonterminal"
  | tooMany what => "too many " ++ what.text

/-- What is wrong with a name, if anything; the first fault that applies is the one reported. -/
def nameFault? (name : String) : Option NameFault :=
  if name.isEmpty then some .empty
  else if name.toList.head? == some '$' then some .reserved
  else if name.toList.any Text.isBlank then some .blank
  else none

/-- Numbers have sixteen bits. -/
def idLimit : Nat := 1 <<< 16

/-- The number after `count` numbers in use. -/
def nextId (count : Nat) (what : Resource) : Except DefinitionError Nat :=
  if count < idLimit then .ok count else .error (.tooMany what)

/-- A key that tells apart the two sides of rules. -/
def productionKey (left : Nat) (right : List Symbol) : List Nat :=
  left :: right.map Symbol.code

/-- A definition in progress. -/
structure Definition where
  terminals : IndexMap Terminal
  nonterminals : IndexMap String
  rules : IndexMap Rule
  names : Std.TreeMap String Symbol
  /-- The keys of the rules that were asked for, also of those refused for want of a number. -/
  productions : Std.TreeSet (List Nat)
  start : Option Nat

namespace Definition

/-- The definition that has only the reserved symbols. -/
def initial : Definition where
  terminals := (∅ : IndexMap Terminal).insert endOfInput ⟨"$eoi", none⟩
  nonterminals := (∅ : IndexMap String).insert augmentedStart "$start"
  rules := ∅
  names := ∅
  productions := ∅
  start := none

/-- Check that a name is well-formed and unused. -/
def checkName (d : Definition) (name : String) : Except DefinitionError Unit :=
  match nameFault? name with
  | some fault => .error (.invalidName name fault)
  | none => if d.names.contains name then .error (.redeclared name) else .ok ()

def declareTerminal (d : Definition) (name : String) (precedence : Option Precedence) :
    Except DefinitionError Nat × Definition :=
  match nextId d.terminals.size .terminals with
  | .error e => (.error e, d)
  | .ok id =>
      match d.checkName name with
      | .error e => (.error e, d)
      | .ok () =>
          (.ok id,
            { d with
              terminals := d.terminals.insert id ⟨name, precedence⟩
              names := d.names.insert name (.terminal id) })

def declareNonterminal (d : Definition) (name : String) :
    Except DefinitionError Nat × Definition :=
  match nextId d.nonterminals.size .nonterminals with
  | .error e => (.error e, d)
  | .ok id =>
      match d.checkName name with
      | .error e => (.error e, d)
      | .ok () =>
          (.ok id,
            { d with
              nonterminals := d.nonterminals.insert id name
              names := d.names.insert name (.nonterminal id) })

/-- Add a rule.  Its two sides are noted before its number is drawn, so a rule that finds no number
left is a duplicate when it is asked for again.  Its place in the order is one more than the number
of rules before it, and its number is drawn from that. -/
def declareRule (d : Definition) (left : Nat) (right : List Symbol)
    (precedence : Option Precedence) : Except DefinitionError Nat × Definition :=
  let key := productionKey left right
  if d.productions.contains key then
    (.error (.duplicateRule (d.nonterminals[left]?.getD "<unknown>")), d)
  else
    let noted := { d with productions := d.productions.insert key }
    let order := d.rules.size + 1
    match nextId order .rules with
    | .error e => (.error e, noted)
    | .ok id =>
        (.ok id, { noted with rules := noted.rules.insert id ⟨id, left, right, precedence, order⟩ })

def declareStart (d : Definition) (symbol : Nat) :
    Except DefinitionError Nat × Definition :=
  if !d.nonterminals.contains symbol || symbol == augmentedStart then (.error .invalidStart, d)
  else (.ok symbol, { d with start := some symbol })

/-- Carry out a declaration; the result is the number it concerns. -/
def declare (d : Definition) : Declaration → Except DefinitionError Nat × Definition
  | .terminal name precedence => d.declareTerminal name precedence
  | .nonterminal name => d.declareNonterminal name
  | .rule left right precedence => d.declareRule left right precedence
  | .start symbol => d.declareStart symbol

/-- Carry out declarations up to the first one that is refused. -/
def declareAll (d : Definition) : List Declaration → Except DefinitionError Definition
  | [] => .ok d
  | c :: cs =>
      match d.declare c with
      | (.ok _, next) => next.declareAll cs
      | (.error e, _) => .error e

/-- The start symbol: the one that was declared last, or else the first nonterminal. -/
def startSymbol? (d : Definition) : Option Nat :=
  match d.start with
  | some n => some n
  | none => d.nonterminals.keys.find? (· != augmentedStart)

/-- End the definition: add the augmented rule for the start symbol, which comes last then, and sort
the rules by their numbers. -/
def finish (d : Definition) : Except DefinitionError Grammar :=
  match d.startSymbol? with
  | none => .error .noNonterminals
  | some start =>
      .ok
        { terminals := d.terminals
          nonterminals := d.nonterminals
          rules := (d.rules.insert augmentedRule (.augmented start)).sortKeys
          start := start
          names := d.names }

end Definition

/-- The grammar that a list of declarations defines. -/
def Grammar.define (declarations : List Declaration) : Except DefinitionError Grammar :=
  match Definition.initial.declareAll declarations with
  | .ok d => d.finish
  | .error e => .error e

end ParserGen
