import ParserGen.Engine.Run

/-!
# The machine behind the engine

An engine is resumed in phases and is fed its input on request.  What it does with a table is that
of a machine on configurations, which have both stacks and the input that is left, and of which a
move is a shift or a reduction.

Main results:

- Theorem `acceptsFrom_iff_of_moves`: moves do not change whether the machine will accept.
- Theorem `Run.moves_of_accepted`: the moves that an accepting run announces lead the machine to an
  accepting configuration.
- Theorems `Run.accepted_of_moves` and `Run.rejected_of_moves`: a run accepts or rejects if the
  machine can move to a configuration that does.
- Theorem `Run.drive_mono`: more calls do not change the outcome of a run that has ended.
-/

namespace ParserGen

variable {σ τ ν ρ : Type}

/-- Both stacks, their tops first, and the tokens that have not been shifted. -/
structure Configuration (σ τ ν : Type) where
  states : List σ
  stack : List (StackSymbol τ ν)
  input : List τ

/-- A move of the machine, with the event that announces it. -/
inductive Move (table : ParseTable σ τ ν ρ) :
    Configuration σ τ ν → ParseEvent σ τ ν ρ → Configuration σ τ ν → Prop
  | shift {s next : σ} {states : List σ} {stack : List (StackSymbol τ ν)} {t : τ}
      {input : List τ} : table.action s (some t) = .shift next →
      Move table ⟨s :: states, stack, t :: input⟩ (.shifting t)
        ⟨next :: s :: states, .token t :: stack, input⟩
  | reduce {s below next : σ} {states rest : List σ} {stack : List (StackSymbol τ ν)}
      {input : List τ} {rule : ρ} {left : ν} {length : Nat} :
      table.action s input.head? = .reduce rule left length →
      (s :: states).drop length = below :: rest → length ≤ stack.length →
      table.goto below left = some next →
      Move table ⟨s :: states, stack, input⟩ (.reducing rule (stack.take length).reverse)
        ⟨next :: below :: rest, .nonterminal left :: stack.drop length, input⟩

/-- Moves one after the other. -/
inductive Moves (table : ParseTable σ τ ν ρ) :
    Configuration σ τ ν → List (ParseEvent σ τ ν ρ) → Configuration σ τ ν → Prop
  | nil (c : Configuration σ τ ν) : Moves table c [] c
  | cons {c c' c'' : Configuration σ τ ν} {e : ParseEvent σ τ ν ρ}
      {events : List (ParseEvent σ τ ν ρ)} : Move table c e c' → Moves table c' events c'' →
      Moves table c (e :: events) c''

/-- Moves can follow other moves. -/
theorem Moves.append {table : ParseTable σ τ ν ρ} {c c' c'' : Configuration σ τ ν}
    {events events' : List (ParseEvent σ τ ν ρ)} (h : Moves table c events c')
    (h' : Moves table c' events' c'') : Moves table c (events ++ events') c'' := by
  induction h with
  | nil _ => exact h'
  | cons hmove _ ih => exact .cons hmove (ih h')

/-- The input is accepted in the state on top. -/
def Accepting (table : ParseTable σ τ ν ρ) (c : Configuration σ τ ν) : Prop :=
  ∃ s states, c.states = s :: states ∧ table.action s c.input.head? = .accept

/-- The state on top rejects the input. -/
def Failing (table : ParseTable σ τ ν ρ) (c : Configuration σ τ ν) : Prop :=
  ∃ s states, c.states = s :: states ∧ table.action s c.input.head? = .fail

/-- The machine can move from a configuration to one where it accepts. -/
def AcceptsFrom (table : ParseTable σ τ ν ρ) (c : Configuration σ τ ν) : Prop :=
  ∃ events c', Moves table c events c' ∧ Accepting table c'

/-! ## The machine has no choice -/

section Deterministic

variable {table : ParseTable σ τ ν ρ} {c c' c'' : Configuration σ τ ν}

/-- A configuration has one successor at most. -/
theorem Move.unique {e e' : ParseEvent σ τ ν ρ} (h : Move table c e c') (h' : Move table c e' c'') :
    c' = c'' := by
  cases h with
  | shift haction =>
    cases h' with
    | shift haction' =>
      cases haction.symm.trans haction'
      rfl
    | reduce haction' _ _ _ => cases haction.symm.trans haction'
  | reduce haction hdrop _ hgoto =>
    cases h' with
    | shift haction' => cases haction.symm.trans haction'
    | reduce haction' hdrop' _ hgoto' =>
      cases haction.symm.trans haction'
      cases hdrop.symm.trans hdrop'
      cases hgoto.symm.trans hgoto'
      rfl

/-- Where the machine moves it does not accept. -/
theorem Move.not_accepting {e : ParseEvent σ τ ν ρ} (h : Move table c e c') :
    ¬ Accepting table c := by
  rintro ⟨s, states, hstates, haccept⟩
  cases h with
  | shift haction =>
    cases hstates
    cases haction.symm.trans haccept
  | reduce haction _ _ _ =>
    cases hstates
    cases haction.symm.trans haccept

/-- A move is announced by one event only. -/
theorem Move.event_unique {e e' : ParseEvent σ τ ν ρ} (h : Move table c e c')
    (h' : Move table c e' c'') : e = e' := by
  cases h with
  | shift haction =>
    cases h' with
    | shift _ => rfl
    | reduce haction' _ _ _ => cases haction.symm.trans haction'
  | reduce haction _ _ _ =>
    cases h' with
    | shift haction' => cases haction.symm.trans haction'
    | reduce haction' _ _ _ =>
      cases haction.symm.trans haction'
      rfl

/-- There is only one way to an accepting configuration. -/
theorem Moves.unique_of_accepting {events events' : List (ParseEvent σ τ ν ρ)}
    (h : Moves table c events c') (h' : Moves table c events' c'') (hc' : Accepting table c')
    (hc'' : Accepting table c'') : events = events' := by
  induction h generalizing events' with
  | nil _ =>
    cases h' with
    | nil _ => rfl
    | cons hmove _ => exact absurd hc' hmove.not_accepting
  | cons hmove _ ih =>
    cases h' with
    | nil _ => exact absurd hc'' hmove.not_accepting
    | cons hmove' hmoves' =>
      cases hmove.unique hmove'
      rw [hmove.event_unique hmove', ih hmoves' hc']

/-- Moves do not change whether the machine will accept. -/
theorem acceptsFrom_iff_of_moves {events : List (ParseEvent σ τ ν ρ)}
    (h : Moves table c events c') : AcceptsFrom table c ↔ AcceptsFrom table c' := by
  induction h with
  | nil _ => rfl
  | @cons c c₁ _ _ _ hmove _ ih =>
    rw [← ih]
    constructor
    · rintro ⟨events, final, hmoves, haccepting⟩
      cases hmoves with
      | nil => exact absurd haccepting hmove.not_accepting
      | cons hmove' hrest =>
        rw [← hmove.unique hmove'] at hrest
        exact ⟨_, final, hrest, haccepting⟩
    · rintro ⟨events, final, hmoves, haccepting⟩
      exact ⟨_, final, .cons hmove hmoves, haccepting⟩

end Deterministic

/-! ## Configurations of an engine -/

namespace Engine

/-- Carry out the move that was announced. -/
def settle (table : ParseTable σ τ ν ρ) (e : Engine σ τ ν) :
    Except ParseError Unit × Engine σ τ ν :=
  match e.phase with
  | .shift next => e.shift next
  | .reduce left length => reduce table e left length
  | _ => (.ok (), e)

/-- The engine is neither waiting for input nor done. -/
def Active (e : Engine σ τ ν) : Prop :=
  match e.phase with
  | .ready | .shift _ | .reduce _ _ => True
  | _ => False

/-- To resume an active engine is to make the announced move and go on. -/
theorem resume_eq {table : ParseTable σ τ ν ρ} {e : Engine σ τ ν} (he : e.Active) :
    e.resume table = proceed table (e.settle table) := by
  unfold resume settle
  unfold Active at he
  cases hphase : e.phase <;> simp_all

/-- The tokens that are left when `input` has not been offered yet. -/
def remaining (e : Engine σ τ ν) (input : List τ) : List τ :=
  match e.lookahead with
  | .absent => input
  | .token t => t :: input
  | .finish => []

/-- The configuration of an engine. -/
def configuration (e : Engine σ τ ν) (input : List τ) : Configuration σ τ ν :=
  ⟨e.states, e.stack, e.remaining input⟩

/-- The engine after it asked for input and was answered. -/
def fed (e : Engine σ τ ν) : List τ → Engine σ τ ν
  | t :: _ => { e with phase := .ready, lookahead := .token t }
  | [] => { e with phase := .ready, lookahead := .finish }

theorem active_fed (e : Engine σ τ ν) (input : List τ) : (e.fed input).Active := by
  cases input <;> trivial

/-- An engine that has been fed has no move left to make. -/
theorem settle_fed (table : ParseTable σ τ ν ρ) (e : Engine σ τ ν) (input : List τ) :
    (e.fed input).settle table = (.ok (), e.fed input) := by
  cases input <;> rfl

/-- Feeding takes the next token from the input, so the configuration stays the same. -/
theorem configuration_fed {e : Engine σ τ ν} {input : List τ} (habsent : e.lookahead = .absent) :
    (e.fed input).configuration input.tail = e.configuration input := by
  cases input <;> simp [fed, configuration, remaining, habsent]

end Engine

namespace Run

open Engine

variable {table : ParseTable σ τ ν ρ}

@[simp]
theorem moves_announced (e : ParseEvent σ τ ν ρ) (r : Run σ τ ν ρ) :
    (announced e r).moves = e :: r.moves := rfl

/-! ## One turn of a run -/

/-- After the announced move the engine is `after`, with `s` on top. -/
structure Reaches (table : ParseTable σ τ ν ρ) (e after : Engine σ τ ν) (s : σ)
    (states : List σ) : Prop where
  active : e.Active
  settled : e.settle table = (.ok (), after)
  states_eq : after.states = s :: states

variable {e after : Engine σ τ ν} {s : σ} {states : List σ}

/-- An engine without a lookahead is given one first. -/
theorem drive_absent (h : Reaches table e after s states) (habsent : after.lookahead = .absent)
    (limit : Nat) (input : List τ) :
    drive table (limit + 1) e input =
      { drive table limit (after.fed input) input.tail with
        resumes := (drive table limit (after.fed input) input.tail).resumes + 1 } := by
  have hresume : e.resume table = (.ok .inputNeeded, { after with phase := .awaitingInput }) := by
    rw [resume_eq h.active, h.settled]
    simp only [proceed, step, h.states_eq, habsent]
  rw [drive, hresume]
  cases input <;> rfl

/-- An engine with a lookahead looks up its next move. -/
theorem resume_of_lookahead (h : Reaches table e after s states)
    (hpresent : after.lookahead ≠ .absent) (input : List τ) :
    e.resume table =
      announce table { after with phase := .ready } s (after.remaining input).head? := by
  rw [resume_eq h.active, h.settled]
  cases hlookahead : after.lookahead with
  | absent => exact absurd hlookahead hpresent
  | token t => simp only [proceed, step, h.states_eq, hlookahead, remaining, List.head?_cons]
  | finish => simp only [proceed, step, h.states_eq, hlookahead, remaining, List.head?_nil]

/-- Where the table shifts, the run announces the shift and goes on. -/
theorem drive_shift (h : Reaches table e after s states) {t : τ} {next : σ}
    (hlookahead : after.lookahead = .token t) (haction : table.action s (some t) = .shift next)
    (limit : Nat) (input : List τ) :
    drive table (limit + 1) e input =
      announced (.shifting t) (drive table limit { after with phase := .shift next } input) := by
  have hpresent : after.lookahead ≠ .absent := by rw [hlookahead]; exact nofun
  have hremaining : after.remaining input = t :: input := by rw [remaining, hlookahead]
  have hresume := resume_of_lookahead h hpresent input
  rw [hremaining, List.head?_cons, announce, haction] at hresume
  rw [drive, hresume]

/-- Where the table reduces, the run announces the reduction and goes on. -/
theorem drive_reduce (h : Reaches table e after s states) (hpresent : after.lookahead ≠ .absent)
    {input : List τ} {rule : ρ} {left : ν} {length : Nat}
    (haction : table.action s (after.remaining input).head? = .reduce rule left length)
    (hlength : length ≤ after.stack.length) (limit : Nat) :
    drive table (limit + 1) e input =
      announced (.reducing rule (after.stack.take length).reverse)
        (drive table limit { after with phase := .reduce left length } input) := by
  have hresume := resume_of_lookahead h hpresent input
  have htop : Engine.top? { after with phase := .ready } length =
      some (after.stack.take length) := by
    have hnot : ¬ (after.stack.take length).length < length := by
      rw [List.length_take]
      omega
    simp only [top?, if_neg hnot]
  rw [announce, haction] at hresume
  simp only [htop] at hresume
  rw [drive, hresume]

/-- Where the table accepts, the run is over. -/
theorem drive_accept (h : Reaches table e after s states) (hpresent : after.lookahead ≠ .absent)
    {input : List τ} (haction : table.action s (after.remaining input).head? = .accept)
    (limit : Nat) :
    drive table (limit + 1) e input = ⟨.accepted, 1, [], { after with phase := .accepted }⟩ := by
  have hresume := resume_of_lookahead h hpresent input
  rw [announce, haction] at hresume
  rw [drive, hresume]

/-- An engine that rejects its lookahead says so before it is done. -/
theorem outcome_drive_fail (h : Reaches table e after s states)
    (hpresent : after.lookahead ≠ .absent) {input : List τ}
    (haction : table.action s (after.remaining input).head? = .fail) (limit : Nat) :
    (drive table (limit + 2) e input).outcome = .rejected := by
  have hresume := resume_of_lookahead h hpresent input
  rw [announce, haction] at hresume
  rw [drive, hresume]
  rfl

/-- An engine whose announced move fails does not accept. -/
theorem not_accepted_of_settle_error {cause : ParseError} (he : e.Active)
    (hsettle : e.settle table = (.error cause, after)) (limit : Nat) (input : List τ) :
    (drive table limit e input).outcome ≠ .accepted := by
  cases limit with
  | zero => exact nofun
  | succ limit =>
    have hresume : e.resume table = (.error cause, after) := by
      rw [resume_eq he, hsettle]
      rfl
    rw [drive, hresume]
    exact nofun

/-- An engine that accepts and has a lookahead accepts at once, shifts a token, or makes a
reduction that the stacks allow. -/
theorem cases_of_accepted (h : Reaches table e after s states)
    (hpresent : after.lookahead ≠ .absent) {limit : Nat} {input : List τ}
    (haccepted : (drive table (limit + 1) e input).outcome = .accepted) :
    table.action s (after.remaining input).head? = .accept ∨
      (∃ t next, after.lookahead = .token t ∧ table.action s (some t) = .shift next) ∨
      ∃ rule left length, table.action s (after.remaining input).head? = .reduce rule left length ∧
        length ≤ after.stack.length := by
  have hresume := resume_of_lookahead h hpresent input
  rw [announce] at hresume
  cases haction : table.action s (after.remaining input).head? with
  | accept => exact Or.inl rfl
  | shift next =>
    cases hlookahead : after.lookahead with
    | absent => exact absurd hlookahead hpresent
    | token t =>
      rw [remaining, hlookahead, List.head?_cons] at haction
      exact Or.inr (Or.inl ⟨t, next, rfl, haction⟩)
    | finish =>
      rw [haction, remaining, hlookahead] at hresume
      rw [drive, hresume] at haccepted
      cases haccepted
  | reduce rule left length =>
    refine Or.inr (Or.inr ⟨rule, left, length, rfl, ?_⟩)
    refine Nat.le_of_not_lt fun hlength => ?_
    have hlow : (after.stack.take length).length < length := by
      rw [List.length_take]
      omega
    simp only [haction, top?, if_pos hlow] at hresume
    rw [drive, hresume] at haccepted
    cases haccepted
  | fail =>
    rw [haction] at hresume
    rw [drive, hresume] at haccepted
    cases limit <;> cases haccepted

/-- The engine once an announced shift is made. -/
def shifted (e : Engine σ τ ν) (t : τ) (next : σ) : Engine σ τ ν :=
  ⟨.shift next, next :: e.states, .token t :: e.stack, .absent⟩

/-- The engine once an announced reduction is made. -/
def reduced (e : Engine σ τ ν) (left : ν) (length : Nat) (states : List σ) : Engine σ τ ν :=
  ⟨.reduce left length, states, .nonterminal left :: e.stack.drop length, e.lookahead⟩

/-- An announced shift is made. -/
theorem settle_shift {t : τ} (hlookahead : after.lookahead = .token t) (next : σ) :
    Engine.settle table { after with phase := .shift next } = (.ok (), shifted after t next) := by
  simp only [settle, Engine.shift, hlookahead, shifted]

/-- An announced reduction is made if there is a state to go to. -/
theorem settle_reduce {left : ν} {length : Nat} {below next : σ} {rest : List σ}
    (hdrop : after.states.drop length = below :: rest) (hlength : length ≤ after.stack.length)
    (hgoto : table.goto below left = some next) :
    Engine.settle table { after with phase := .reduce left length } =
      (.ok (), reduced after left length (next :: below :: rest)) := by
  have hnot : ¬ (after.stack.take length).length < length := by
    rw [List.length_take]
    omega
  simp only [settle, Engine.reduce, top?, if_neg hnot, hdrop, hgoto, reduced]

/-- The shift that an engine announces is a move of the machine. -/
theorem move_shift (h : Reaches table e after s states) {t : τ} {next : σ}
    (hlookahead : after.lookahead = .token t) (haction : table.action s (some t) = .shift next)
    (input : List τ) :
    Move table (after.configuration input) (.shifting t)
      ((shifted after t next).configuration input) := by
  have hconfiguration : after.configuration input = ⟨s :: states, after.stack, t :: input⟩ := by
    rw [configuration, remaining, hlookahead, h.states_eq]
  rw [hconfiguration, shifted, h.states_eq]
  exact .shift haction

/-- The reduction that an engine announces is a move of the machine. -/
theorem move_reduce (h : Reaches table e after s states) {input : List τ} {rule : ρ} {left : ν}
    {length : Nat} {below next : σ} {rest : List σ}
    (haction : table.action s (after.remaining input).head? = .reduce rule left length)
    (hdrop : after.states.drop length = below :: rest) (hlength : length ≤ after.stack.length)
    (hgoto : table.goto below left = some next) :
    Move table (after.configuration input) (.reducing rule (after.stack.take length).reverse)
      ((reduced after left length (next :: below :: rest)).configuration input) := by
  rw [h.states_eq] at hdrop
  rw [configuration, h.states_eq]
  exact .reduce haction hdrop hlength hgoto

/-- A reduction that was announced is made only if there is somewhere to go. -/
theorem exists_goto_of_accepted {left : ν} {length limit : Nat} {input : List τ}
    (haccepted : (drive table limit { after with phase := .reduce left length } input).outcome =
      .accepted) :
    ∃ below rest next, after.states.drop length = below :: rest ∧
      table.goto below left = some next := by
  have hactive : Engine.Active { after with phase := .reduce left length } := trivial
  cases hsettle : Engine.settle table { after with phase := .reduce left length } with
  | mk answer engine =>
    cases answer with
    | error cause =>
      exact absurd haccepted (not_accepted_of_settle_error hactive hsettle limit input)
    | ok u =>
      simp only [settle, Engine.reduce] at hsettle
      split at hsettle
      · rename_i below rest top hdrop htop
        split at hsettle
        · cases hsettle
        · rename_i next hgoto
          exact ⟨below, rest, next, hdrop, hgoto⟩
      · cases hsettle

/-! ## Runs and moves -/

/-- The moves that an accepting run announces lead to an accepting configuration. -/
theorem moves_of_accepted {limit : Nat} {input : List τ} (he : e.Active)
    (hsettle : e.settle table = (.ok (), after))
    (haccepted : (drive table limit e input).outcome = .accepted) :
    ∃ c, Moves table (after.configuration input) (drive table limit e input).moves c ∧
      Accepting table c ∧ (drive table limit e input).engine.stack = c.stack := by
  induction limit generalizing e after input with
  | zero => cases haccepted
  | succ limit ih =>
    cases hstates : after.states with
    | nil =>
      have hresume : e.resume table = (.error .stackUnderflow, { after with phase := .ready }) := by
        rw [resume_eq he, hsettle]
        simp only [proceed, step, hstates]
      rw [drive, hresume] at haccepted
      cases haccepted
    | cons s states =>
      have h : Reaches table e after s states := ⟨he, hsettle, hstates⟩
      by_cases hpresent : after.lookahead = .absent
      · rw [drive_absent h hpresent] at haccepted ⊢
        rw [← configuration_fed hpresent]
        exact ih (active_fed after input) (settle_fed table after input) haccepted
      rcases cases_of_accepted h hpresent haccepted with
        haccept | ⟨t, next, hlookahead, hshift⟩ | ⟨rule, left, length, hreduce, hlength⟩
      · rw [drive_accept h hpresent haccept]
        exact ⟨_, .nil _, ⟨s, states, hstates, haccept⟩, rfl⟩
      · rw [drive_shift h hlookahead hshift] at haccepted ⊢
        have hactive : Engine.Active { after with phase := .shift next } := trivial
        obtain ⟨c, hmoves, hc, hstack⟩ := ih hactive (settle_shift hlookahead next) haccepted
        exact ⟨c, .cons (move_shift h hlookahead hshift input) hmoves, hc, hstack⟩
      · rw [drive_reduce h hpresent hreduce hlength] at haccepted ⊢
        have hactive : Engine.Active { after with phase := .reduce left length } := trivial
        obtain ⟨below, rest, next, hdrop, hgoto⟩ := exists_goto_of_accepted haccepted
        obtain ⟨c, hmoves, hc, hstack⟩ :=
          ih hactive (settle_reduce hdrop hlength hgoto) haccepted
        exact ⟨c, .cons (move_reduce h hreduce hdrop hlength hgoto) hmoves, hc, hstack⟩

/-- An engine that has not been offered its lookahead may be thought to have it. -/
theorem outcome_of_present {outcome : Outcome} {c : Configuration σ τ ν} (he : e.Active)
    (hsettle : e.settle table = (.ok (), after)) {input : List τ}
    (hc : after.configuration input = c) (hne : c.states ≠ [])
    (hpresent : ∀ {e after : Engine σ τ ν} {s : σ} {states : List σ} {input : List τ},
      Reaches table e after s states → after.lookahead ≠ .absent →
        after.configuration input = c → ∃ limit, (drive table limit e input).outcome = outcome) :
    ∃ limit, (drive table limit e input).outcome = outcome := by
  cases hstates : after.states with
  | nil => exact absurd (hc ▸ hstates) hne
  | cons s states =>
    have h : Reaches table e after s states := ⟨he, hsettle, hstates⟩
    by_cases habsent : after.lookahead = .absent
    · have hfed : Reaches table (after.fed input) (after.fed input) s states := by
        refine ⟨active_fed after input, settle_fed table after input, ?_⟩
        cases input <;> exact hstates
      have hlookahead : (after.fed input).lookahead ≠ .absent := by
        cases input <;> exact nofun
      obtain ⟨limit, hended⟩ :=
        hpresent hfed hlookahead ((configuration_fed habsent).trans hc)
      refine ⟨limit + 1, ?_⟩
      rw [drive_absent h habsent]
      exact hended
    · exact hpresent h habsent hc

/-- A run that follows the machine ends as an engine in the last configuration does. -/
theorem outcome_of_moves {outcome : Outcome} {c final : Configuration σ τ ν}
    {events : List (ParseEvent σ τ ν ρ)} {input : List τ} (hmoves : Moves table c events final)
    (hne : final.states ≠ [])
    (hfinal : ∀ {e after : Engine σ τ ν} {s : σ} {states : List σ} {input : List τ},
      Reaches table e after s states → after.lookahead ≠ .absent →
        after.configuration input = final → ∃ limit, (drive table limit e input).outcome = outcome)
    (he : e.Active) (hsettle : e.settle table = (.ok (), after))
    (hc : after.configuration input = c) :
    ∃ limit, (drive table limit e input).outcome = outcome := by
  induction hmoves generalizing e after input with
  | nil c => exact outcome_of_present he hsettle hc hne hfinal
  | cons hmove _ ih =>
    cases hmove with
    | @shift s next states stack t rest haction =>
      refine outcome_of_present he hsettle hc nofun ?_
      intro e after s' states' input h hpresent hc
      have hstates : after.states = s :: states := congrArg Configuration.states hc
      have hstack : after.stack = stack := congrArg Configuration.stack hc
      have hremaining : after.remaining input = t :: rest := congrArg Configuration.input hc
      obtain ⟨rfl, rfl⟩ := List.cons.inj (h.states_eq.symm.trans hstates)
      cases hlookahead : after.lookahead with
      | absent => exact absurd hlookahead hpresent
      | finish =>
        rw [remaining, hlookahead] at hremaining
        cases hremaining
      | token u =>
        rw [remaining, hlookahead] at hremaining
        obtain ⟨rfl, rfl⟩ := List.cons.inj hremaining
        have hactive : Engine.Active { after with phase := .shift next } := trivial
        obtain ⟨limit, hended⟩ := ih hne hfinal hactive (settle_shift hlookahead next)
          (by rw [configuration, shifted, hstates, hstack]; rfl)
        refine ⟨limit + 1, ?_⟩
        rw [drive_shift h hlookahead haction]
        exact hended
    | @reduce s below next states rest stack input' rule left length haction hdrop hlength hgoto =>
      refine outcome_of_present he hsettle hc nofun ?_
      intro e after s' states' input h hpresent hc
      have hstates : after.states = s :: states := congrArg Configuration.states hc
      have hstack : after.stack = stack := congrArg Configuration.stack hc
      have hremaining : after.remaining input = input' := congrArg Configuration.input hc
      obtain ⟨rfl, rfl⟩ := List.cons.inj (h.states_eq.symm.trans hstates)
      subst hstack hremaining
      rw [← hstates] at hdrop
      have hactive : Engine.Active { after with phase := .reduce left length } := trivial
      obtain ⟨limit, hended⟩ := ih hne hfinal hactive (settle_reduce hdrop hlength hgoto) rfl
      refine ⟨limit + 1, ?_⟩
      rw [drive_reduce h hpresent haction hlength]
      exact hended

/-- A run accepts if the machine can move to an accepting configuration. -/
theorem accepted_of_moves {c final : Configuration σ τ ν} {events : List (ParseEvent σ τ ν ρ)}
    {input : List τ} (hmoves : Moves table c events final) (hfinal : Accepting table final)
    (he : e.Active) (hsettle : e.settle table = (.ok (), after))
    (hc : after.configuration input = c) :
    ∃ limit, (drive table limit e input).outcome = .accepted := by
  obtain ⟨s, states, hstates, haction⟩ := hfinal
  refine outcome_of_moves hmoves (by rw [hstates]; exact nofun) ?_ he hsettle hc
  intro e after s' states' input h hpresent hc
  subst hc
  obtain ⟨rfl, _⟩ := List.cons.inj (h.states_eq.symm.trans hstates)
  refine ⟨1, ?_⟩
  rw [drive_accept h hpresent haction]

/-- A run rejects if the machine can move to a failing configuration. -/
theorem rejected_of_moves {c final : Configuration σ τ ν} {events : List (ParseEvent σ τ ν ρ)}
    {input : List τ} (hmoves : Moves table c events final) (hfinal : Failing table final)
    (he : e.Active) (hsettle : e.settle table = (.ok (), after))
    (hc : after.configuration input = c) :
    ∃ limit, (drive table limit e input).outcome = .rejected := by
  obtain ⟨s, states, hstates, haction⟩ := hfinal
  refine outcome_of_moves hmoves (by rw [hstates]; exact nofun) ?_ he hsettle hc
  intro e after s' states' input h hpresent hc
  subst hc
  obtain ⟨rfl, _⟩ := List.cons.inj (h.states_eq.symm.trans hstates)
  exact ⟨2, outcome_drive_fail h hpresent haction 0⟩

/-! ## More calls -/

/-- A run that has ended is not changed by more calls. -/
theorem drive_mono {limit more : Nat} {input : List τ} (hle : limit ≤ more)
    (hended : (drive table limit e input).outcome ≠ .exhausted) :
    drive table more e input = drive table limit e input := by
  induction limit generalizing more e input with
  | zero => exact absurd rfl hended
  | succ limit ih =>
    obtain ⟨more, rfl⟩ : ∃ k, more = k + 1 := ⟨more - 1, by omega⟩
    have hle' : limit ≤ more := Nat.le_of_succ_le_succ hle
    simp only [drive] at hended ⊢
    cases hresume : e.resume table with
    | mk answer engine =>
      rw [hresume] at hended
      cases answer with
      | error cause => rfl
      | ok event =>
        cases event with
        | inputNeeded =>
          cases input with
          | nil =>
            cases hoffer : engine.offerEnd with
            | mk reply offered =>
              cases reply with
              | error cause => simp only [hoffer]
              | ok u =>
                simp only [hoffer] at hended ⊢
                rw [ih hle' hended]
          | cons t rest =>
            cases hoffer : engine.offerToken t with
            | mk reply offered =>
              cases reply with
              | error cause => simp only [hoffer]
              | ok u =>
                simp only [hoffer] at hended ⊢
                rw [ih hle' hended]
        | shifting t => exact congrArg (announced _) (ih hle' hended)
        | reducing rule replaced => exact congrArg (announced _) (ih hle' hended)
        | failing s lookahead => exact congrArg (announced _) (ih hle' hended)
        | accepted => rfl
        | rejected => rfl

end Run
end ParserGen
