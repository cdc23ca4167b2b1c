import ParserGen.Engine.Basic

/-!
# Parsing a token string

An engine is resumed again and again.  Whenever it asks for input it is offered the next token, or
the end of input when there is none left.
-/

namespace ParserGen

/-- How a run ends. -/
inductive Outcome where
  | accepted
  | rejected
  | error (cause : ParseError)
  /-- The engine was resumed as often as it may be. -/
  | exhausted
deriving DecidableEq, Repr

/-- A finished run: its outcome, how often the engine was resumed, the moves it announced and the
engine at the end. -/
structure Run (σ τ ν ρ : Type) where
  outcome : Outcome
  resumes : Nat
  moves : List (ParseEvent σ τ ν ρ)
  engine : Engine σ τ ν

namespace Run

variable {σ τ ν ρ : Type}

/-- Put one more announcement in front of a run. -/
def announced (move : ParseEvent σ τ ν ρ) (r : Run σ τ ν ρ) : Run σ τ ν ρ :=
  { r with resumes := r.resumes + 1, moves := move :: r.moves }

/-- Resume an engine up to `limit` times. -/
def drive (table : ParseTable σ τ ν ρ) : Nat → Engine σ τ ν → List τ → Run σ τ ν ρ
  | 0, e, _ => ⟨.exhausted, 0, [], e⟩
  | limit + 1, e, input =>
      match Engine.resume table e with
      | (.error cause, e) => ⟨.error cause, 1, [], e⟩
      | (.ok .accepted, e) => ⟨.accepted, 1, [], e⟩
      | (.ok .rejected, e) => ⟨.rejected, 1, [], e⟩
      | (.ok .inputNeeded, e) =>
          let (answer, rest) :=
            match input with
            | t :: rest => (e.offerToken t, rest)
            | [] => (e.offerEnd, [])
          match answer with
          | (.ok (), e) =>
              let r := drive table limit e rest
              { r with resumes := r.resumes + 1 }
          | (.error cause, e) => ⟨.error cause, 1, [], e⟩
      | (.ok move, e) => announced move (drive table limit e input)

/-- Run a table on a token string. -/
def ofInput (table : ParseTable σ τ ν ρ) (limit : Nat) (input : List τ) : Run σ τ ν ρ :=
  drive table limit (Engine.initial table) input

end Run
end ParserGen
