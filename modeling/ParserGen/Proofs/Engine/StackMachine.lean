import ParserGen.Proofs.Engine.Machine

/-!
# The engine and the stack machine

The stack machine of the textbooks has one stack, on which each symbol lies under the state that was
entered with it, and reads its input without being offered it.  The engine keeps states and symbols
apart, asks for each token when it has none, and announces each move in one call and makes it in the
next.  Whatever the table, a run of the engine announces what the machine does, and ends as it does.

Main results:

- Theorem `Engine.Tracks.reply`: a call of an engine that tracks the machine asks for a token that
  is not there, announces what the machine does next, or ends as the machine does.
- Theorem `Engine.Tracks.exists_run_of_drive`, `Engine.Tracks.exists_drive_of_run`: runs of the
  engine are runs of the machine.
-/

namespace ParserGen

variable {σ τ ν ρ : Type}

/-- The token that an event announces to be shifted. -/
def ParseEvent.shifted? : ParseEvent σ τ ν ρ → Option τ
  | shifting t => some t
  | _ => none

/-! ## The machine -/

/-- A stack machine: the state at the bottom, above it the symbols with their states, the top first,
and the tokens that have not been shifted. -/
structure StackMachine (σ τ ν : Type) where
  bottom : σ
  stack : List (StackSymbol τ ν × σ)
  input : List τ

namespace StackMachine

def start (table : ParseTable σ τ ν ρ) (input : List τ) : StackMachine σ τ ν :=
  ⟨table.initial, [], input⟩

/-- The state on top of the stack. -/
def top (m : StackMachine σ τ ν) : σ :=
  match m.stack with
  | [] => m.bottom
  | entry :: _ => entry.2

def push (m : StackMachine σ τ ν) (symbol : StackSymbol τ ν) (state : σ) : StackMachine σ τ ν :=
  { m with stack := (symbol, state) :: m.stack }

def pop (m : StackMachine σ τ ν) (length : Nat) : StackMachine σ τ ν :=
  { m with stack := m.stack.drop length }

/-- The symbols on the stack, from the bottom. -/
def symbols (m : StackMachine σ τ ν) : List (StackSymbol τ ν) := (m.stack.map (·.1)).reverse

/-- The states on the stack, the top first. -/
def states (m : StackMachine σ τ ν) : List σ := m.stack.map (·.2) ++ [m.bottom]

/-- What a machine does next: it announces a move, or that its lookahead is in error, and then is in
another configuration or comes to an end; or it halts without an announcement. -/
inductive Turn (σ τ ν ρ : Type) where
  | announce (event : ParseEvent σ τ ν ρ) (next : Except Outcome (StackMachine σ τ ν))
  | halt (outcome : Outcome)

/-- Push the left-hand side of a reduction, if there is somewhere to go. -/
def enter (table : ParseTable σ τ ν ρ) (m : StackMachine σ τ ν) (left : ν) :
    Except Outcome (StackMachine σ τ ν) :=
  match table.goto m.top left with
  | some next => .ok (m.push (.nonterminal left) next)
  | none => .error (.error .missingGoto)

/-- Act on the state on top and the first token that is left. -/
def turn (table : ParseTable σ τ ν ρ) (m : StackMachine σ τ ν) : Turn σ τ ν ρ :=
  match table.action m.top m.input.head? with
  | .shift next =>
      match m.input with
      | t :: rest => .announce (.shifting t) (.ok ({ m with input := rest }.push (.token t) next))
      | [] => .halt (.error .unexpectedEndOfInput)
  | .reduce rule left length =>
      if m.stack.length < length then .halt (.error .stackUnderflow)
      else
        .announce (.reducing rule ((m.stack.take length).map (·.1)).reverse)
          ((m.pop length).enter table left)
  | .accept => .halt .accepted
  | .fail => .announce (.failing m.top m.input.head?) (.error .rejected)

/-- What a machine announces first, as much of it as `n` allows, and how it ends. -/
def run (table : ParseTable σ τ ν ρ) :
    Nat → Except Outcome (StackMachine σ τ ν) → List (ParseEvent σ τ ν ρ) × Outcome
  | 0, _ => ([], .exhausted)
  | _ + 1, .error outcome => ([], outcome)
  | n + 1, .ok m =>
      match m.turn table with
      | .halt outcome => ([], outcome)
      | .announce event next =>
          let rest := run table n next
          (event :: rest.1, rest.2)

variable {m : StackMachine σ τ ν} {table : ParseTable σ τ ν ρ}

/-- A turn that announces an event puts it before those of the turns that follow. -/
theorem run_announce {event : ParseEvent σ τ ν ρ} {next : Except Outcome (StackMachine σ τ ν)}
    (h : m.turn table = .announce event next) (n : Nat) :
    run table (n + 1) (.ok m) = (event :: (run table n next).1, (run table n next).2) := by
  rw [run, h]

/-- The machine ends with an outcome, without another announcement. -/
def Ends (table : ParseTable σ τ ν ρ) (m : Except Outcome (StackMachine σ τ ν))
    (outcome : Outcome) : Prop :=
  m = .error outcome ∨ ∃ m', m = .ok m' ∧ m'.turn table = .halt outcome

/-- A machine that has ended announces nothing more. -/
theorem run_ends {m : Except Outcome (StackMachine σ τ ν)} {outcome : Outcome}
    (h : Ends table m outcome) (n : Nat) : run table (n + 1) m = ([], outcome) := by
  rcases h with rfl | ⟨m', rfl, hturn⟩
  · rfl
  · rw [run, hturn]

/-- The tokens that a machine may still shift. -/
def unread : Except Outcome (StackMachine σ τ ν) → List τ
  | .ok m => m.input
  | .error _ => []

/-- A machine shifts the first token that is left, and drops none. -/
theorem unread_of_announce {event : ParseEvent σ τ ν ρ}
    {next : Except Outcome (StackMachine σ τ ν)} (h : m.turn table = .announce event next) :
    event.shifted?.toList ++ unread next <+: m.input := by
  unfold turn at h
  split at h
  · split at h
    · rename_i hinput
      cases h
      rw [hinput]
      exact List.prefix_rfl
    · cases h
  · split at h
    · cases h
    · cases h
      unfold enter
      split
      · exact List.prefix_rfl
      · exact List.nil_prefix
  · cases h
  · cases h
    exact List.nil_prefix

/-- There is always a state on top. -/
theorem exists_states_eq (m : StackMachine σ τ ν) : ∃ rest, m.states = m.top :: rest := by
  unfold states top
  cases m.stack with
  | nil => exact ⟨[], rfl⟩
  | cons entry rest => exact ⟨_, rfl⟩

/-- To take symbols off the stack is to take as many states off. -/
theorem drop_states {length : Nat} (h : length ≤ m.stack.length) :
    m.states.drop length = (m.pop length).states := by
  rw [states, List.drop_append_of_le_length (by rwa [List.length_map]), ← List.map_drop]
  rfl

/-- A symbol that is pushed comes last. -/
@[simp]
theorem symbols_push (m : StackMachine σ τ ν) (symbol : StackSymbol τ ν) (state : σ) :
    (m.push symbol state).symbols = m.symbols ++ [symbol] := by
  simp [symbols, push]

/-- The symbols that are taken off the stack are its last ones, in their order. -/
theorem symbols_eq_append (m : StackMachine σ τ ν) (length : Nat) :
    m.symbols = (m.pop length).symbols ++ ((m.stack.take length).map (·.1)).reverse := by
  rw [symbols, symbols, ← List.reverse_append, ← List.map_append]
  exact congrArg (fun l => (l.map (·.1)).reverse) (List.take_append_drop length m.stack).symm

/-- A turn that reduces announces the symbols that it takes off the stack. -/
theorem turn_reduce {rule : ρ} {left : ν} {length : Nat}
    (haction : table.action m.top m.input.head? = .reduce rule left length)
    (hlength : length ≤ m.stack.length) :
    m.turn table = .announce (.reducing rule ((m.stack.take length).map (·.1)).reverse)
      ((m.pop length).enter table left) := by
  simp only [turn, haction, if_neg (Nat.not_lt.mpr hlength)]

end StackMachine

/-- What a run announces, and how it ends. -/
def Run.report (r : Run σ τ ν ρ) : List (ParseEvent σ τ ν ρ) × Outcome := (r.moves, r.outcome)

theorem Run.report_announced (event : ParseEvent σ τ ν ρ) (r : Run σ τ ν ρ) :
    (announced event r).report = (event :: r.report.1, r.report.2) := rfl

/-! ## Replaying what is announced -/

namespace ParseEvent

/-- Whether an event announces a move, or that the lookahead is in error. -/
def Announces : ParseEvent σ τ ν ρ → Prop
  | inputNeeded | accepted | rejected => False
  | _ => True

/-- Make the announced move on the symbols alone: push the token, or put the left-hand side in place
of the announced symbols. -/
def replay (event : ParseEvent σ τ ν ρ) (left? : Option ν) (symbols : List (StackSymbol τ ν)) :
    List (StackSymbol τ ν) :=
  match event with
  | shifting t => symbols ++ [.token t]
  | reducing _ replaced =>
      symbols.take (symbols.length - replaced.length) ++ (left?.map .nonterminal).toList
  | _ => symbols

end ParseEvent

/-- To replay a reduction is to replace the symbols that it takes off the stack by the left-hand
side. -/
theorem StackMachine.replay_reducing (m : StackMachine σ τ ν) (rule : ρ) (left : ν) (length : Nat) :
    (ParseEvent.reducing rule ((m.stack.take length).map (·.1)).reverse : ParseEvent σ τ ν ρ).replay
      (some left) m.symbols = (m.pop length).symbols ++ [.nonterminal left] := by
  rw [ParseEvent.replay, m.symbols_eq_append length, List.length_append, Nat.add_sub_cancel,
    List.take_left']
  rfl
  rfl

namespace Lookahead

/-- The token that a lookahead is. -/
def token? : Lookahead τ → Option τ
  | token t => some t
  | _ => none

/-- Whether there is a lookahead, be it the end of input. -/
def present : Lookahead τ → Bool
  | absent => false
  | _ => true

/-- A lookahead is present unless it has not been read yet. -/
theorem present_iff {lookahead : Lookahead τ} : lookahead.present = true ↔ lookahead ≠ absent := by
  cases lookahead <;> simp [present]

theorem eq_absent {lookahead : Lookahead τ} (h : lookahead.present = false) :
    lookahead = absent := by
  cases lookahead <;> first | rfl | cases h

end Lookahead

namespace Engine

open StackMachine

variable {table : ParseTable σ τ ν ρ} {e after : Engine σ τ ν} {input : List τ}
  {trail : List (StackSymbol τ ν)} {m : StackMachine σ τ ν}

/-- The left-hand side of the reduction that the table has for the state on top and the
lookahead. -/
def left? (table : ParseTable σ τ ν ρ) (e : Engine σ τ ν) : Option ν :=
  match e.states with
  | [] => none
  | s :: _ =>
      match table.action s e.lookahead.token? with
      | .reduce _ left _ => some left
      | _ => none

/-- If the table reduces in the state on top at the lookahead, the left-hand side is found. -/
theorem left?_eq {s : σ} {states : List σ} {token : Option τ} {rule : ρ} {left : ν} {length : Nat}
    (hstates : e.states = s :: states) (htoken : e.lookahead.token? = token)
    (haction : table.action s token = .reduce rule left length) : e.left? table = some left := by
  simp only [left?, hstates, htoken, haction]

/-- Once the lookahead has been read, the next terminal is the lookahead. -/
theorem head?_remaining (hpresent : e.lookahead ≠ .absent) (input : List τ) :
    (e.remaining input).head? = e.lookahead.token? := by
  unfold remaining
  cases h : e.lookahead with
  | absent => exact absurd h hpresent
  | token t => rfl
  | finish => rfl

/-- Whether there is a lookahead once the announced move has been made. -/
def buffers (e : Engine σ τ ν) : Bool :=
  match e.phase with
  | .shift _ => false
  | _ => e.lookahead.present

/-- Whether an engine has a lookahead once it has settled can be told before it settles. -/
theorem present_of_settle (hsettle : e.settle table = (.ok (), after)) :
    after.lookahead.present = e.buffers := by
  unfold settle at hsettle
  unfold buffers
  cases hphase : e.phase with
  | shift next =>
    rw [hphase] at hsettle
    unfold shift at hsettle
    cases hlookahead : e.lookahead <;> rw [hlookahead] at hsettle <;> cases hsettle
    rfl
  | reduce left length =>
    rw [hphase] at hsettle
    simp only [reduce] at hsettle
    split at hsettle
    · split at hsettle <;> cases hsettle
      rfl
    · cases hsettle
  | ready | awaitingInput | rejecting | accepted =>
    rw [hphase] at hsettle
    cases hsettle
    rfl

/-- Feeding gives an engine a lookahead, be it the end of input. -/
theorem present_fed (e : Engine σ τ ν) (input : List τ) :
    (e.fed input).lookahead.present = true := by
  cases input <;> rfl

/-- The move that was announced before does not take what an engine is fed. -/
theorem buffers_fed (e : Engine σ τ ν) (input : List τ) : (e.fed input).buffers = true := by
  cases input <;> rfl

/-! ## Tracking the machine -/

/-- The two stacks are those of the machine, and the token that is buffered comes before those that
have not been offered. -/
structure Shows (e : Engine σ τ ν) (input : List τ) (m : StackMachine σ τ ν) : Prop where
  states : e.states = m.states
  stack : e.stack = m.stack.map (·.1)
  remaining : e.remaining input = m.input

/-- The engine has the symbols of the machine. -/
theorem Shows.symbols (h : e.Shows input m) : e.symbols = m.symbols := by
  rw [Engine.symbols, h.stack]
  rfl

/-- The engine is where the machine is, once it has made the move that it announced; what has been
announced so far leaves the symbols `trail`. -/
inductive Tracks (table : ParseTable σ τ ν ρ) (e : Engine σ τ ν) (input : List τ) :
    List (StackSymbol τ ν) → Except Outcome (StackMachine σ τ ν) → Prop
  | running {after : Engine σ τ ν} {m : StackMachine σ τ ν} : e.Active →
      e.settle table = (.ok (), after) → after.Shows input m →
        Tracks table e input m.symbols (.ok m)
  | jammed {after : Engine σ τ ν} {cause : ParseError} {trail : List (StackSymbol τ ν)} :
      e.Active → e.settle table = (.error cause, after) →
        Tracks table e input trail (.error (.error cause))
  | rejecting : e.phase = .rejecting → e.lookahead.present = true →
      Tracks table e input e.symbols (.error .rejected)

/-- A call that announces what the machine announces. -/
structure Announcement (table : ParseTable σ τ ν ρ) (e : Engine σ τ ν) (input : List τ)
    (trail : List (StackSymbol τ ν)) (m : StackMachine σ τ ν) (event : ParseEvent σ τ ν ρ)
    (next : Except Outcome (StackMachine σ τ ν)) (after : Engine σ τ ν) : Prop where
  turn : m.turn table = .announce event next
  resume : e.resume table = (.ok event, after)
  announces : event.Announces
  full : e.buffers = true
  present : after.lookahead.present = true
  buffers : after.buffers = event.shifted?.isNone
  shown : after.symbols = trail
  replaced : ∀ rule replaced, event = .reducing rule replaced → replaced <:+ trail
  tracks : Tracks table after input (event.replay (after.left? table) trail) next

/-- How a call ends a run. -/
def EndsAs : Except ParseError (ParseEvent σ τ ν ρ) → Outcome → Prop
  | .ok .accepted, outcome => outcome = .accepted
  | .ok .rejected, outcome => outcome = .rejected
  | .ok _, _ => False
  | .error cause, outcome => outcome = .error cause

/-- A call that ends as the machine does. -/
structure Verdict (table : ParseTable σ τ ν ρ) (e : Engine σ τ ν)
    (trail : List (StackSymbol τ ν)) (m : Except Outcome (StackMachine σ τ ν)) (outcome : Outcome)
    (answer : Except ParseError (ParseEvent σ τ ν ρ)) (after : Engine σ τ ν) : Prop where
  ends : Ends table m outcome
  resume : e.resume table = (answer, after)
  endsAs : EndsAs answer outcome
  present : ∀ event, answer = .ok event → after.lookahead.present = true
  shown : ∀ event, answer = .ok event → after.symbols = trail

/-- A call that fails as the machine does. -/
theorem Verdict.failed {trail : List (StackSymbol τ ν)} {m : Except Outcome (StackMachine σ τ ν)}
    {cause : ParseError} {after : Engine σ τ ν} (hends : Ends table m (.error cause))
    (hresume : e.resume table = (.error cause, after)) :
    Verdict table e trail m (.error cause) (.error cause) after where
  ends := hends
  resume := hresume
  endsAs := rfl
  present event h := by cases h
  shown event h := by cases h

/-- A call that does what the machine does. -/
inductive Decided (table : ParseTable σ τ ν ρ) (e : Engine σ τ ν) (input : List τ)
    (trail : List (StackSymbol τ ν)) : Except Outcome (StackMachine σ τ ν) → Prop
  | announcement {m : StackMachine σ τ ν} {event : ParseEvent σ τ ν ρ}
      {next : Except Outcome (StackMachine σ τ ν)} {after : Engine σ τ ν} :
      Announcement table e input trail m event next after → Decided table e input trail (.ok m)
  | verdict {m : Except Outcome (StackMachine σ τ ν)} {outcome : Outcome}
      {answer : Except ParseError (ParseEvent σ τ ν ρ)} {after : Engine σ τ ν} :
      Verdict table e trail m outcome answer after → Decided table e input trail m

/-- The engine that has announced a shift tracks the machine that has made it. -/
theorem tracks_shift {t : τ} (h : after.Shows input m) (hlookahead : after.lookahead = .token t)
    (next : σ) :
    Tracks table { after with phase := .shift next } input (m.symbols ++ [.token t])
      (.ok ({ m with input := input }.push (.token t) next)) := by
  have hsymbols : ({ m with input := input }.push (.token t) next).symbols =
      m.symbols ++ [.token t] := StackMachine.symbols_push ..
  rw [← hsymbols]
  have hactive : Active { after with phase := .shift next } := trivial
  refine .running hactive (Run.settle_shift hlookahead next) ⟨?_, ?_, rfl⟩
  · exact congrArg (next :: ·) h.states
  · exact congrArg (StackSymbol.token t :: ·) h.stack

/-- The engine that has announced a reduction tracks the machine that has made it, or could not. -/
theorem tracks_reduce (h : after.Shows input m) {length : Nat} (hlength : length ≤ m.stack.length)
    (left : ν) :
    Tracks table { after with phase := .reduce left length } input
      ((m.pop length).symbols ++ [.nonterminal left]) ((m.pop length).enter table left) := by
  obtain ⟨below, htop⟩ := (m.pop length).exists_states_eq
  have hdrop : after.states.drop length = (m.pop length).top :: below := by
    rw [h.states, StackMachine.drop_states hlength, htop]
  have hstack : after.stack.drop length = (m.pop length).stack.map (·.1) := by
    rw [h.stack, ← List.map_drop]
    rfl
  have hlength' : length ≤ after.stack.length := by rwa [h.stack, List.length_map]
  have hactive : Active { after with phase := .reduce left length } := trivial
  rw [StackMachine.enter]
  cases hgoto : table.goto (m.pop length).top left with
  | some next =>
    rw [← StackMachine.symbols_push (m.pop length) (.nonterminal left) next]
    refine .running hactive (Run.settle_reduce hdrop hlength' hgoto) ⟨?_, ?_, h.remaining⟩
    · exact congrArg (next :: ·) htop.symm
    · exact congrArg (StackSymbol.nonterminal left :: ·) hstack
  | none =>
    have hnot : ¬ (after.stack.take length).length < length := by
      rw [List.length_take]
      omega
    have hsettle : settle table { after with phase := .reduce left length } =
        (.error .missingGoto, { after with
          phase := .reduce left length
          states := (m.pop length).top :: below
          stack := after.stack.drop length }) := by
      simp only [settle, reduce, top?, if_neg hnot, hdrop, hgoto]
    exact .jammed hactive hsettle

/-- The engine has made the move that it announced, is where the machine is, and has a lookahead. -/
structure Faces (table : ParseTable σ τ ν ρ) (e after : Engine σ τ ν) (input : List τ)
    (m : StackMachine σ τ ν) : Prop where
  active : e.Active
  settles : e.settle table = (.ok (), after)
  shown : after.Shows input m
  present : after.lookahead.present = true

namespace Faces

/-- The move that was announced does not take the lookahead of an engine that faces another one. -/
theorem full (h : Faces table e after input m) : e.buffers = true :=
  present_of_settle h.settles ▸ h.present

/-- An engine that faces a move has a lookahead. -/
theorem ne_absent (h : Faces table e after input m) : after.lookahead ≠ .absent :=
  Lookahead.present_iff.mp h.present

/-- The engine looks at the state and the token that the machine looks at. -/
theorem resume_eq (h : Faces table e after input m) :
    e.resume table = announce table { after with phase := .ready } m.top m.input.head? := by
  obtain ⟨below, htop⟩ := m.exists_states_eq
  have hstates : after.states = m.top :: below := h.shown.states.trans htop
  rw [Run.resume_of_lookahead ⟨h.active, h.settles, hstates⟩ h.ne_absent input,
    h.shown.remaining]

/-- The token that is ahead of the machine is the lookahead. -/
theorem lookahead_eq {t : τ} {rest : List τ} (h : Faces table e after input m)
    (hinput : m.input = t :: rest) : after.lookahead = .token t ∧ input = rest := by
  have hremaining := h.shown.remaining
  rw [hinput, remaining] at hremaining
  split at hremaining
  · rename_i habsent
    exact absurd habsent h.ne_absent
  · rename_i hlookahead
    cases hremaining
    exact ⟨hlookahead, rfl⟩
  · cases hremaining

/-- Where the machine shifts, the engine decides to shift, with the same symbols. -/
theorem decided_shift {next : σ} (h : Faces table e after input m)
    (haction : table.action m.top m.input.head? = .shift next) :
    Decided table e input m.symbols (.ok m) := by
  have hresume := h.resume_eq
  rw [announce] at hresume
  simp only [haction] at hresume
  cases hinput : m.input with
  | nil =>
    simp only [hinput, List.head?_nil] at hresume
    have hturn : m.turn table = .halt (.error .unexpectedEndOfInput) := by
      simp only [StackMachine.turn, haction]
      simp only [hinput]
    exact .verdict (.failed (Or.inr ⟨m, rfl, hturn⟩) hresume)
  | cons t rest =>
    simp only [hinput, List.head?_cons] at hresume
    have hturn : m.turn table =
        .announce (.shifting t) (.ok ({ m with input := rest }.push (.token t) next)) := by
      simp only [StackMachine.turn, haction]
      simp only [hinput]
    obtain ⟨hlookahead, rfl⟩ := h.lookahead_eq hinput
    exact .announcement ⟨hturn, hresume, trivial, h.full, h.present, rfl, h.shown.symbols,
      fun _ _ hevent => (by cases hevent), tracks_shift h.shown hlookahead next⟩

/-- Where the machine reduces, the engine decides to reduce, with the same symbols. -/
theorem decided_reduce {rule : ρ} {left : ν} {length : Nat} (h : Faces table e after input m)
    (haction : table.action m.top m.input.head? = .reduce rule left length) :
    Decided table e input m.symbols (.ok m) := by
  have hresume := h.resume_eq
  rw [announce] at hresume
  simp only [haction] at hresume
  have hcount : (after.stack.take length).length < length ↔ m.stack.length < length := by
    rw [List.length_take, h.shown.stack, List.length_map]
    omega
  by_cases hlength : m.stack.length < length
  · have hturn : m.turn table = .halt (.error .stackUnderflow) := by
      simp only [StackMachine.turn, haction, if_pos hlength]
    simp only [top?, if_pos (hcount.mpr hlength)] at hresume
    exact .verdict (.failed (Or.inr ⟨m, rfl, hturn⟩) hresume)
  · simp only [top?, if_neg (mt hcount.mp hlength)] at hresume
    have htake : after.stack.take length = (m.stack.take length).map (·.1) := by
      rw [h.shown.stack, List.map_take]
    rw [htake] at hresume
    have hturn := StackMachine.turn_reduce haction (Nat.le_of_not_lt hlength)
    obtain ⟨below, htop⟩ := m.exists_states_eq
    have htoken := head?_remaining h.ne_absent input
    rw [h.shown.remaining] at htoken
    have hleft : left? table { after with phase := .reduce left length } = some left :=
      left?_eq (h.shown.states.trans htop) htoken.symm haction
    have htracks : Tracks table { after with phase := .reduce left length } _ _ _ :=
      tracks_reduce h.shown (Nat.le_of_not_lt hlength) left
    rw [← m.replay_reducing rule left length, ← hleft] at htracks
    refine .announcement ⟨hturn, hresume, trivial, h.full, h.present, h.present, h.shown.symbols,
      ?_, htracks⟩
    rintro _ _ ⟨⟩
    exact ⟨_, (m.symbols_eq_append length).symm⟩

/-- An engine that has a lookahead does what the machine does. -/
theorem decided (h : Faces table e after input m) : Decided table e input m.symbols (.ok m) := by
  have hresume := h.resume_eq
  rw [announce] at hresume
  cases haction : table.action m.top m.input.head? with
  | shift next => exact h.decided_shift haction
  | reduce rule left length => exact h.decided_reduce haction
  | accept =>
    simp only [haction] at hresume
    have hturn : m.turn table = .halt .accepted := by simp only [StackMachine.turn, haction]
    exact .verdict ⟨Or.inr ⟨m, rfl, hturn⟩, hresume, rfl, fun _ _ => h.present,
      fun _ _ => h.shown.symbols⟩
  | fail =>
    simp only [haction] at hresume
    have hturn : m.turn table = .announce (.failing m.top m.input.head?) (.error .rejected) := by
      simp only [StackMachine.turn, haction]
    exact .announcement ⟨hturn, hresume, trivial, h.full, h.present, h.present,
      h.shown.symbols, fun _ _ hevent => (by cases hevent),
      h.shown.symbols ▸ .rejecting rfl h.present⟩

end Faces

/-- A call that asks for a token because there is none, and what the engine does when it has been
offered one. -/
structure Requests (table : ParseTable σ τ ν ρ) (e : Engine σ τ ν) (input : List τ)
    (trail : List (StackSymbol τ ν)) (m : Except Outcome (StackMachine σ τ ν))
    (after : Engine σ τ ν) : Prop where
  resume : e.resume table = (.ok .inputNeeded, after)
  waiting : after.phase = .awaitingInput
  absent : after.lookahead.present = false
  empty : e.buffers = false
  shown : after.symbols = trail
  tracks : Tracks table (after.fed input) input.tail trail m
  decided : Decided table (after.fed input) input.tail trail m

/-- What a call does when the engine tracks the machine. -/
theorem Tracks.reply {m : Except Outcome (StackMachine σ τ ν)}
    (h : Tracks table e input trail m) :
    (∃ after, Requests table e input trail m after) ∨ Decided table e input trail m := by
  cases h with
  | @running after m he hsettle hshows =>
    cases hpresent : after.lookahead.present with
    | true => exact Or.inr (Faces.decided ⟨he, hsettle, hshows, hpresent⟩)
    | false =>
      have habsent := Lookahead.eq_absent hpresent
      have hempty : e.buffers = false := (present_of_settle hsettle).symm.trans hpresent
      obtain ⟨below, htop⟩ := m.exists_states_eq
      have hresume : e.resume table =
          (.ok .inputNeeded, { after with phase := .awaitingInput }) := by
        rw [resume_eq he, hsettle]
        simp only [proceed, step, hshows.states, htop, habsent]
      have hfed : Shows (fed { after with phase := .awaitingInput } input) input.tail m := by
        have hremaining := hshows.remaining
        rw [remaining, habsent] at hremaining
        cases input <;> exact ⟨hshows.states, hshows.stack, hremaining⟩
      have hactive := active_fed { after with phase := .awaitingInput } input
      have hsettled := settle_fed table { after with phase := .awaitingInput } input
      exact Or.inl ⟨_, hresume, rfl, hpresent, hempty, hshows.symbols,
        .running hactive hsettled hfed,
        Faces.decided ⟨hactive, hsettled, hfed, present_fed _ input⟩⟩
  | @jammed after cause _ he hsettle =>
    have hresume : e.resume table = (.error cause, after) := by
      rw [resume_eq he, hsettle]
      rfl
    exact Or.inr (.verdict (.failed (Or.inl rfl) hresume))
  | rejecting hphase hpresent =>
    have hresume : e.resume table = (.ok .rejected, e) := by
      rw [resume, hphase]
    exact Or.inr (.verdict ⟨Or.inl rfl, hresume, rfl, fun _ _ => hpresent, fun _ _ => rfl⟩)

/-- A new engine tracks the machine at its start. -/
theorem tracks_initial (table : ParseTable σ τ ν ρ) (input : List τ) :
    Tracks table (initial table) input [] (.ok (.start table input)) :=
  .running (m := .start table input) trivial rfl ⟨rfl, rfl, rfl⟩

/-! ## Runs -/

/-- An engine that asks for a token is given the next one. -/
theorem Requests.drive_eq {m : Except Outcome (StackMachine σ τ ν)}
    (h : Requests table e input trail m after) (limit : Nat) :
    Run.drive table (limit + 1) e input =
      { Run.drive table limit (after.fed input) input.tail with
        resumes := (Run.drive table limit (after.fed input) input.tail).resumes + 1 } := by
  rw [Run.drive, h.resume]
  cases input with
  | nil => simp only [offerEnd, offer, h.waiting, fed, List.tail_nil]
  | cons t rest => simp only [offerToken, offer, h.waiting, fed, List.tail_cons]

/-- A run that begins with an announcement goes on after it. -/
theorem Announcement.drive_eq {event : ParseEvent σ τ ν ρ}
    {next : Except Outcome (StackMachine σ τ ν)}
    (h : Announcement table e input trail m event next after) (limit : Nat) :
    Run.drive table (limit + 1) e input =
      Run.announced event (Run.drive table limit after input) := by
  rw [Run.drive, h.resume]
  have hevent := h.announces
  cases event <;> first | rfl | exact hevent.elim

/-- A run that begins with a verdict is over. -/
theorem Verdict.drive_eq {m : Except Outcome (StackMachine σ τ ν)} {outcome : Outcome}
    {answer : Except ParseError (ParseEvent σ τ ν ρ)}
    (h : Verdict table e trail m outcome answer after) (limit : Nat) (input : List τ) :
    Run.drive table (limit + 1) e input = ⟨outcome, 1, [], after⟩ := by
  rw [Run.drive, h.resume]
  have hanswer := h.endsAs
  cases answer with
  | error cause => rw [hanswer]
  | ok event => cases event <;> first | rw [hanswer] | exact hanswer.elim

/-- What a run of the engine announces, and how it ends, is that of a run of the machine. -/
theorem Tracks.exists_run_of_drive {m : Except Outcome (StackMachine σ τ ν)} {limit : Nat}
    (h : Tracks table e input trail m) :
    ∃ n ≤ limit, (Run.drive table limit e input).report = StackMachine.run table n m := by
  induction limit generalizing e input trail m with
  | zero => exact ⟨0, Nat.le_refl _, rfl⟩
  | succ limit ih =>
    rcases h.reply with ⟨after, hrequests⟩ | hdecided
    · obtain ⟨n, hn, hrun⟩ := ih hrequests.tracks
      rw [hrequests.drive_eq]
      exact ⟨n, Nat.le_succ_of_le hn, hrun⟩
    · cases hdecided with
      | announcement hcall =>
        obtain ⟨n, hn, hrun⟩ := ih hcall.tracks
        rw [hcall.drive_eq, Run.report_announced, hrun]
        exact ⟨n + 1, Nat.succ_le_succ hn, (run_announce hcall.turn n).symm⟩
      | verdict hcall =>
        rw [hcall.drive_eq]
        exact ⟨1, Nat.succ_le_succ (Nat.zero_le _), (run_ends hcall.ends 0).symm⟩

/-- What a run of the machine announces, and how it ends, is that of a run of the engine. -/
theorem Tracks.exists_drive_of_run {m : Except Outcome (StackMachine σ τ ν)} {n : Nat}
    (h : Tracks table e input trail m) :
    ∃ limit, (Run.drive table limit e input).report = StackMachine.run table n m := by
  induction n generalizing e input trail m with
  | zero => exact ⟨0, rfl⟩
  | succ n ih =>
    have hdecides : ∀ {e : Engine σ τ ν} {input : List τ}, Decided table e input trail m →
        ∃ limit, (Run.drive table limit e input).report = StackMachine.run table (n + 1) m := by
      intro e input hdecided
      cases hdecided with
      | announcement hcall =>
        obtain ⟨limit, hrun⟩ := ih hcall.tracks
        refine ⟨limit + 1, ?_⟩
        rw [hcall.drive_eq, Run.report_announced, hrun, run_announce hcall.turn]
      | verdict hcall =>
        refine ⟨1, ?_⟩
        rw [hcall.drive_eq, run_ends hcall.ends]
        rfl
    -- A request for input only delays what the machine does next.
    rcases h.reply with ⟨after, hrequests⟩ | hdecided
    · obtain ⟨limit, hrun⟩ := hdecides hrequests.decided
      refine ⟨limit + 1, ?_⟩
      rw [hrequests.drive_eq]
      exact hrun
    · exact hdecides hdecided

end Engine
end ParserGen
