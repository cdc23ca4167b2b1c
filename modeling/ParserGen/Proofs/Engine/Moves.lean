import ParserGen.Proofs.Engine.StackMachine

/-!
# The moves on the way of a run

A run announces one event after the other, and also a run that comes to no good end has made the
moves that it announced, but for the last event: that one is what the machine does in the
configuration that the moves lead to.

Main results:

- Theorem `Run.exists_moves_of_announced`: the events before an announced one are moves that lead to
  where it is announced.
- Theorem `Run.exists_moves_of_unexpectedEndOfInput`: a run that fails for want of a token has come
  to a state that shifts the end of input.
-/

namespace ParserGen

variable {σ τ ν ρ : Type} {table : ParseTable σ τ ν ρ}

namespace StackMachine

/-- The configuration with the states and the symbols of the one stack on two stacks. -/
def configuration (m : StackMachine σ τ ν) : Configuration σ τ ν :=
  ⟨m.states, m.stack.map (·.1), m.input⟩

/-- A machine that announces a move and goes on has made the move. -/
theorem move_of_announce {m next : StackMachine σ τ ν} {event : ParseEvent σ τ ν ρ}
    (hturn : m.turn table = .announce event (.ok next)) :
    Move table m.configuration event next.configuration := by
  obtain ⟨below, hstates⟩ := m.exists_states_eq
  have hconfiguration : m.configuration = ⟨m.top :: below, m.stack.map (·.1), m.input⟩ := by
    rw [configuration, hstates]
  unfold turn at hturn
  split at hturn
  · rename_i s haction
    split at hturn
    · rename_i t rest hinput
      cases hturn
      rw [hinput] at haction
      rw [hconfiguration, hinput]
      have hshift : Move table ⟨m.top :: below, m.stack.map (·.1), t :: rest⟩ (.shifting t)
          ⟨s :: m.top :: below, .token t :: m.stack.map (·.1), rest⟩ := .shift haction
      rw [← hstates] at hshift ⊢
      exact hshift
    · cases hturn
  · rename_i rule left length haction
    split at hturn
    · cases hturn
    · rename_i hlength
      have hlength := Nat.le_of_not_lt hlength
      injection hturn with hevent hnext
      subst hevent
      obtain ⟨below', hpop⟩ := (m.pop length).exists_states_eq
      unfold enter at hnext
      split at hnext
      · rename_i target hgoto
        cases hnext
        have hdrop : (m.top :: below).drop length = (m.pop length).top :: below' := by
          rw [← hstates, drop_states hlength, hpop]
        have hreduce : Move table ⟨m.top :: below, m.stack.map (·.1), m.input⟩
            (.reducing rule ((m.stack.map (·.1)).take length).reverse)
            ⟨target :: (m.pop length).top :: below',
              .nonterminal left :: (m.stack.map (·.1)).drop length, m.input⟩ :=
          .reduce haction hdrop (by rwa [List.length_map]) hgoto
        rw [← List.map_take, ← List.map_drop, ← hpop] at hreduce
        rw [hconfiguration]
        exact hreduce
      · cases hnext
  · cases hturn
  · cases hturn

/-- What is announced before an event are moves that lead to where the event is announced. -/
theorem exists_moves_of_run {n : Nat} {m : StackMachine σ τ ν}
    {before after : List (ParseEvent σ τ ν ρ)} {event : ParseEvent σ τ ν ρ}
    (hrun : (run table n (.ok m)).1 = before ++ event :: after) :
    ∃ (m' : StackMachine σ τ ν) (next : Except Outcome (StackMachine σ τ ν)),
      Moves table m.configuration before m'.configuration ∧
        m'.turn table = .announce event next := by
  induction before generalizing n m with
  | nil =>
    cases n with
    | zero => cases hrun
    | succ n =>
      cases hturn : m.turn table with
      | halt outcome => simp [run, hturn] at hrun
      | announce first next =>
        rw [run_announce hturn] at hrun
        obtain ⟨rfl, _⟩ := List.cons.inj hrun
        exact ⟨m, next, .nil _, hturn⟩
  | cons first before ih =>
    cases n with
    | zero => cases hrun
    | succ n =>
      cases hturn : m.turn table with
      | halt outcome => simp [run, hturn] at hrun
      | announce first' next =>
        rw [run_announce hturn] at hrun
        obtain ⟨rfl, hrest⟩ := List.cons.inj hrun
        cases next with
        | error outcome => cases n <;> simp [run] at hrest
        | ok next =>
          obtain ⟨m', last, hmoves, hlast⟩ := ih hrest
          exact ⟨m', last, .cons (move_of_announce hturn) hmoves, hlast⟩

/-- A machine that comes to an end has made moves to where it ends, without an announcement or with
one of a move that it cannot make. -/
theorem exists_moves_of_ended {n : Nat} {m : StackMachine σ τ ν} {outcome : Outcome}
    (hrun : (run table n (.ok m)).2 = outcome) (hended : outcome ≠ .exhausted) :
    ∃ (events : List (ParseEvent σ τ ν ρ)) (m' : StackMachine σ τ ν),
      Moves table m.configuration events m'.configuration ∧
        (m'.turn table = .halt outcome ∨
          ∃ event, m'.turn table = .announce event (.error outcome)) := by
  induction n generalizing m with
  | zero => exact absurd hrun.symm hended
  | succ n ih =>
    cases hturn : m.turn table with
    | halt outcome' =>
      have houtcome : outcome' = outcome := by simpa [run, hturn] using hrun
      exact ⟨[], m, .nil _, .inl (houtcome ▸ hturn)⟩
    | announce event next =>
      rw [run_announce hturn] at hrun
      cases next with
      | ok next =>
        obtain ⟨events, m', hmoves, hends⟩ := ih hrun
        exact ⟨event :: events, m', .cons (move_of_announce hturn) hmoves, hends⟩
      | error outcome' =>
        cases n with
        | zero => exact absurd hrun.symm hended
        | succ n =>
          have houtcome : outcome' = outcome := hrun
          exact ⟨[], m, .nil _, .inr ⟨event, houtcome ▸ hturn⟩⟩

/-- Only the first token that is left is announced to be shifted, and only if the table says so. -/
theorem shift_of_announce {m : StackMachine σ τ ν} {t : τ}
    {next : Except Outcome (StackMachine σ τ ν)}
    (hturn : m.turn table = .announce (.shifting t) next) :
    ∃ rest target, m.input = t :: rest ∧ table.action m.top (some t) = .shift target := by
  unfold turn at hturn
  split at hturn
  · rename_i target haction
    split at hturn
    · rename_i t' rest hinput
      cases hturn
      rw [hinput] at haction
      exact ⟨rest, target, hinput, haction⟩
    · cases hturn
  · split at hturn <;> cases hturn
  · cases hturn
  · cases hturn

/-- A machine ends for want of a token only if its state shifts the end of input. -/
theorem shift_of_unexpectedEndOfInput {m : StackMachine σ τ ν}
    (hends : m.turn table = .halt (.error .unexpectedEndOfInput) ∨
      ∃ event, m.turn table = .announce event (.error (.error .unexpectedEndOfInput))) :
    ∃ next, table.action m.top none = .shift next := by
  rcases hends with hturn | ⟨event, hturn⟩
  · unfold turn at hturn
    split at hturn
    · rename_i next haction
      split at hturn
      · cases hturn
      · rename_i hinput
        rw [hinput] at haction
        exact ⟨next, haction⟩
    · split at hturn <;> cases hturn
    · cases hturn
    · cases hturn
  · unfold turn at hturn
    split at hturn
    · split at hturn <;> cases hturn
    · split at hturn
      · cases hturn
      · injection hturn with _ hnext
        unfold enter at hnext
        split at hnext <;> cases hnext
    · cases hturn
    · cases hturn

end StackMachine

namespace Run

open StackMachine

theorem exists_report_ofInput (table : ParseTable σ τ ν ρ) (limit : Nat) (input : List τ) :
    ∃ n, (ofInput table limit input).report = run table n (.ok (.start table input)) := by
  obtain ⟨n, _, hreport⟩ : ∃ n ≤ limit, (ofInput table limit input).report = _ :=
    (Engine.tracks_initial table input).exists_run_of_drive
  exact ⟨n, hreport⟩

/-- The events that a run announces before another are moves that lead to where it is announced. -/
theorem exists_moves_of_announced {limit : Nat} {input : List τ}
    {before after : List (ParseEvent σ τ ν ρ)} {event : ParseEvent σ τ ν ρ}
    (hmoves : (ofInput table limit input).moves = before ++ event :: after) :
    ∃ (m : StackMachine σ τ ν) (next : Except Outcome (StackMachine σ τ ν)),
      Moves table ⟨[table.initial], [], input⟩ before m.configuration ∧
        m.turn table = .announce event next := by
  obtain ⟨n, hreport⟩ := exists_report_ofInput table limit input
  exact exists_moves_of_run ((congrArg Prod.fst hreport).symm.trans hmoves)

/-- A run ends for want of a token only if it comes to a state that shifts the end of input. -/
theorem exists_moves_of_unexpectedEndOfInput {limit : Nat} {input : List τ}
    (houtcome : (ofInput table limit input).outcome = .error .unexpectedEndOfInput) :
    ∃ (events : List (ParseEvent σ τ ν ρ)) (m : StackMachine σ τ ν) (next : σ),
      Moves table ⟨[table.initial], [], input⟩ events m.configuration ∧
        table.action m.top none = .shift next := by
  obtain ⟨n, hreport⟩ := exists_report_ofInput table limit input
  obtain ⟨events, m, hmoves, hends⟩ :=
    exists_moves_of_ended ((congrArg Prod.snd hreport).symm.trans houtcome) (by simp)
  obtain ⟨next, hshift⟩ := shift_of_unexpectedEndOfInput hends
  exact ⟨events, m, next, hmoves, hshift⟩

end Run
end ParserGen
