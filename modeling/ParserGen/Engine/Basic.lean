import ParserGen.Engine.Table

/-!
# The parse engine

An engine runs a parse table without reading tokens itself.  Each time it is resumed it makes at
most one shift or reduction, which it announced before, and then tells what comes next: it asks for
input, announces its next move, or has accepted or rejected the input.
-/

namespace ParserGen

/-- A symbol on the stack: a token that was shifted, or what a reduction put in place of others. -/
inductive StackSymbol (τ ν : Type) where
  | token (t : τ)
  | nonterminal (n : ν)
deriving DecidableEq, Repr

/-- The token that has been offered and not been shifted yet. -/
inductive Lookahead (τ : Type) where
  | absent
  | token (t : τ)
  | finish
deriving DecidableEq, Repr

/-- What an engine does first when it is resumed. -/
inductive Phase (σ ν : Type) where
  | ready
  | awaitingInput
  | shift (next : σ)
  | reduce (left : ν) (length : Nat)
  | rejecting
  | accepted
deriving DecidableEq, Repr

/-- Why an engine refuses a call. -/
inductive ParseError where
  | inputNotOffered
  | unexpectedInput
  | unexpectedEndOfInput
  | stackUnderflow
  | missingGoto
  | finished
deriving DecidableEq, Repr

def ParseError.message : ParseError → String
  | inputNotOffered => "resumed without offering the requested input"
  | unexpectedInput => "input offered while the engine was not waiting for it"
  | unexpectedEndOfInput => "shift requested at the end of input"
  | stackUnderflow => "the parse stack is shorter than the production"
  | missingGoto => "no transition after the reduction"
  | finished => "the input has already been accepted"

/-- What an engine tells when it has been resumed. -/
inductive ParseEvent (σ τ ν ρ : Type) where
  /-- A token or the end of input has to be offered. -/
  | inputNeeded
  /-- The token will be shifted. -/
  | shifting (t : τ)
  /-- The symbols, given from the bottom, will be replaced by the left-hand side of the rule. -/
  | reducing (rule : ρ) (replaced : List (StackSymbol τ ν))
  /-- The lookahead is not acceptable in the state; the input will be rejected. -/
  | failing (state : σ) (lookahead : Option τ)
  | accepted
  | rejected
deriving DecidableEq, Repr

/-- An engine.  Both stacks have their top first. -/
structure Engine (σ τ ν : Type) where
  phase : Phase σ ν
  states : List σ
  stack : List (StackSymbol τ ν)
  lookahead : Lookahead τ
deriving DecidableEq, Repr

namespace Engine

variable {σ τ ν ρ : Type}

def initial (table : ParseTable σ τ ν ρ) : Engine σ τ ν :=
  ⟨.ready, [table.initial], [], .absent⟩

/-- The symbols shifted or reduced so far, from the bottom. -/
def symbols (e : Engine σ τ ν) : List (StackSymbol τ ν) := e.stack.reverse

/-- Answer a request for input. -/
def offer (e : Engine σ τ ν) (input : Lookahead τ) : Except ParseError Unit × Engine σ τ ν :=
  match e.phase with
  | .awaitingInput => (.ok (), { e with phase := .ready, lookahead := input })
  | _ => (.error .unexpectedInput, e)

/-- Offer a token. -/
def offerToken (e : Engine σ τ ν) (t : τ) : Except ParseError Unit × Engine σ τ ν :=
  e.offer (.token t)

/-- Offer the end of input. -/
def offerEnd (e : Engine σ τ ν) : Except ParseError Unit × Engine σ τ ν :=
  e.offer .finish

/-- Make the shift that was announced. -/
def shift (e : Engine σ τ ν) (next : σ) : Except ParseError Unit × Engine σ τ ν :=
  let taken := { e with lookahead := .absent }
  match e.lookahead with
  | .token t => (.ok (), { taken with states := next :: e.states, stack := .token t :: e.stack })
  | .finish => (.error .unexpectedEndOfInput, taken)
  | .absent => (.error .inputNotOffered, taken)

/-- The topmost `length` symbols, the top first, if there are so many. -/
def top? (e : Engine σ τ ν) (length : Nat) : Option (List (StackSymbol τ ν)) :=
  let top := e.stack.take length
  if top.length < length then none else some top

/-- Make the reduction that was announced.  The initial state stays at the bottom.  The replaced
symbols are gone even if there is nowhere to go from the state below them. -/
def reduce (table : ParseTable σ τ ν ρ) (e : Engine σ τ ν) (left : ν) (length : Nat) :
    Except ParseError Unit × Engine σ τ ν :=
  match e.states.drop length, e.top? length with
  | s :: states, some _ =>
      let below := { e with states := s :: states, stack := e.stack.drop length }
      match table.goto s left with
      | none => (.error .missingGoto, below)
      | some next =>
          (.ok (),
            { below with
              states := next :: below.states
              stack := .nonterminal left :: below.stack })
  | _, _ => (.error .stackUnderflow, e)

/-- Look up and announce the next move. -/
def announce (table : ParseTable σ τ ν ρ) (e : Engine σ τ ν) (s : σ) (lookahead : Option τ) :
    Except ParseError (ParseEvent σ τ ν ρ) × Engine σ τ ν :=
  match table.action s lookahead with
  | .shift next =>
      match lookahead with
      | some t => (.ok (.shifting t), { e with phase := .shift next })
      | none => (.error .unexpectedEndOfInput, e)
  | .reduce rule left length =>
      match e.top? length with
      | none => (.error .stackUnderflow, e)
      | some top => (.ok (.reducing rule top.reverse), { e with phase := .reduce left length })
  | .accept => (.ok .accepted, { e with phase := .accepted })
  | .fail => (.ok (.failing s lookahead), { e with phase := .rejecting })

/-- Find out what comes next. -/
def step (table : ParseTable σ τ ν ρ) (e : Engine σ τ ν) :
    Except ParseError (ParseEvent σ τ ν ρ) × Engine σ τ ν :=
  match e.states with
  | [] => (.error .stackUnderflow, e)
  | s :: _ =>
      match e.lookahead with
      | .absent => (.ok .inputNeeded, { e with phase := .awaitingInput })
      | .token t => announce table e s (some t)
      | .finish => announce table e s none

/-- Find out what comes next, once the announced move has been made. -/
def proceed (table : ParseTable σ τ ν ρ) :
    Except ParseError Unit × Engine σ τ ν →
      Except ParseError (ParseEvent σ τ ν ρ) × Engine σ τ ν
  | (.ok (), e) => step table { e with phase := .ready }
  | (.error error, e) => (.error error, e)

/-- Go on until there is something to tell. -/
def resume (table : ParseTable σ τ ν ρ) (e : Engine σ τ ν) :
    Except ParseError (ParseEvent σ τ ν ρ) × Engine σ τ ν :=
  match e.phase with
  | .ready => proceed table (.ok (), e)
  | .awaitingInput => (.error .inputNotOffered, e)
  | .shift next => proceed table (e.shift next)
  | .reduce left length => proceed table (reduce table e left length)
  | .rejecting => (.ok .rejected, e)
  | .accepted => (.error .finished, e)

end Engine
end ParserGen
