import ParserGen.Language.Recognition
import ParserGen.Proofs.Engine.Machine

/-!
# Acceptance

An automaton accepts a string if the engine says so when it may be called often enough.  That is the
case if and only if the machine can move to an accepting configuration.

Main results:

- Theorem `Automaton.accepts_iff_acceptsFrom`: acceptance in terms of moves.
- Theorem `Automaton.Accepts.eventually`: an accepting engine accepts whatever more calls it may be
  given, and no engine that has rejected a string accepts it.
-/

namespace ParserGen

/-- The tokens that a sequence of moves shifts. -/
def shiftedTokens (moves : List (ParseEvent Nat Nat Nat Nat)) : List Nat :=
  moves.filterMap fun
    | .shifting t => some t
    | _ => none

/-- The rules that a sequence of moves reduces by. -/
def reducedRules (moves : List (ParseEvent Nat Nat Nat Nat)) : List Nat :=
  moves.filterMap fun
    | .reducing rule _ => some rule
    | _ => none

@[simp]
theorem reducedRules_append (moves moves' : List (ParseEvent Nat Nat Nat Nat)) :
    reducedRules (moves ++ moves') = reducedRules moves ++ reducedRules moves' :=
  List.filterMap_append

namespace Automaton

variable {a : Automaton} {w : List Nat}

/-- The engine accepts a string if it is called often enough. -/
def Accepts (a : Automaton) (w : List Nat) : Prop :=
  ∃ limit, a.accepts? limit w = some (.ok true)

/-- The configuration that a parser of `w` starts in. -/
def startConfiguration (w : List Nat) : Configuration Nat Nat Nat := ⟨[initialState], [], w⟩

theorem accepts?_eq_true_iff {limit : Nat} :
    a.accepts? limit w = some (.ok true) ↔ (a.run limit w).outcome = .accepted := by
  unfold accepts?
  split <;> simp_all

theorem initial_settled (a : Automaton) :
    (Engine.initial a.table).Active ∧
      (Engine.initial a.table).settle a.table = (.ok (), Engine.initial a.table) := ⟨trivial, rfl⟩

/-- The moves that an accepting run announces lead to an accepting configuration. -/
theorem moves_of_accepted {limit : Nat} (h : (a.run limit w).outcome = .accepted) :
    ∃ c, Moves a.table (startConfiguration w) (a.run limit w).moves c ∧ Accepting a.table c ∧
      (a.run limit w).engine.stack = c.stack :=
  Run.moves_of_accepted a.initial_settled.1 a.initial_settled.2 h

/-- A string is accepted if and only if the machine can move to an accepting configuration. -/
theorem accepts_iff_acceptsFrom :
    a.Accepts w ↔ AcceptsFrom a.table (startConfiguration w) := by
  constructor
  · rintro ⟨limit, haccepts⟩
    obtain ⟨c, hmoves, hc, _⟩ := moves_of_accepted (accepts?_eq_true_iff.mp haccepts)
    exact ⟨_, c, hmoves, hc⟩
  · rintro ⟨events, c, hmoves, hc⟩
    obtain ⟨hactive, hsettle⟩ := a.initial_settled
    obtain ⟨limit, haccepted⟩ := Run.accepted_of_moves hmoves hc hactive hsettle rfl
    exact ⟨limit, accepts?_eq_true_iff.mpr haccepted⟩

theorem accepts?_mono {limit more : Nat} (hle : limit ≤ more)
    {answer : Except ParseError Bool} (h : a.accepts? limit w = some answer) :
    a.accepts? more w = some answer := by
  have hended : (a.run limit w).outcome ≠ .exhausted := by
    intro hexhausted
    rw [accepts?, hexhausted] at h
    cases h
  have hsame : a.run more w = a.run limit w := Run.drive_mono hle hended
  rw [accepts?, hsame]
  exact h

/-- An accepting engine accepts whatever more calls it may be given. -/
theorem Accepts.eventually (h : a.Accepts w) :
    ∃ limit, ∀ more, limit ≤ more → a.accepts? more w = some (.ok true) := by
  obtain ⟨limit, haccepts⟩ := h
  exact ⟨limit, fun more hle => accepts?_mono hle haccepts⟩

/-- A string that was rejected is not accepted with other numbers of calls. -/
theorem not_accepts_of_accepts?_eq_false {limit : Nat}
    (h : a.accepts? limit w = some (.ok false)) : ¬ a.Accepts w := by
  rintro ⟨limit', haccepts⟩
  have hmore := accepts?_mono (Nat.le_max_left limit limit') h
  rw [accepts?_mono (Nat.le_max_right limit limit') haccepts] at hmore
  cases hmore

end Automaton
end ParserGen
