import ParserGen.Proofs.Engine.Errors
import ParserGen.Proofs.Engine.StackMachine

/-!
# The protocol between a client and an engine

A client may make requests of an engine in any order, also in vain, and go on after a refusal.
Whatever the table, the stacks stay in step, input is taken exactly when it has been asked for,
verdicts are final, and no token that was taken is lost: the tokens that have come onto the stack so
far are those that were taken, in order, but for one that may still be waiting.

Main results:

- Theorem `Engine.resume_cases`: what resuming an engine does to its stacks.
- Theorem `Engine.Orderly.serve`: what every request keeps.
- Theorem `Engine.Orderly.account`: what a request does with tokens.
- Theorem `Engine.phase_of_resume`: a verdict is told when it has been reached.
- Theorem `Engine.keeps_protocol`: what holds after any requests.
-/

namespace ParserGen

variable {σ τ ν ρ : Type}

/-- What a client asks of an engine: to go on, or to take a token or the end of input. -/
inductive Request (τ : Type) where
  | resume
  | token (t : τ)
  | finish
deriving DecidableEq, Repr

namespace Engine

/-- Serve a request.  If it is an offer, there is no event to tell. -/
def serve (table : ParseTable σ τ ν ρ) (e : Engine σ τ ν) :
    Request τ → Except ParseError (Option (ParseEvent σ τ ν ρ)) × Engine σ τ ν
  | .resume => ((e.resume table).1.map some, (e.resume table).2)
  | .token t => ((e.offerToken t).1.map fun _ => none, (e.offerToken t).2)
  | .finish => (e.offerEnd.1.map fun _ => none, e.offerEnd.2)

/-- The engine after some requests, whatever the answers were. -/
def serveAll (table : ParseTable σ τ ν ρ) (e : Engine σ τ ν) : List (Request τ) → Engine σ τ ν
  | [] => e
  | request :: requests => (e.serve table request).2.serveAll table requests

/-- The token that is taken at a request: it is offered, and the offer succeeds. -/
def taken? (e : Engine σ τ ν) : Request τ → Option τ
  | .token t => (e.offerToken t).1.toOption.map fun _ => t
  | .resume | .finish => none

/-- The token that has come onto the stack between two states of an engine: the stack has grown, and
the token is on top. -/
def pushed? (e after : Engine σ τ ν) : Option τ :=
  match after.stack with
  | .token t :: _ => if e.stack.length < after.stack.length then some t else none
  | _ => none

/-- The tokens that are taken at some requests, in order. -/
def taken (table : ParseTable σ τ ν ρ) (e : Engine σ τ ν) : List (Request τ) → List τ
  | [] => []
  | request :: requests =>
      (e.taken? request).toList ++ (e.serve table request).2.taken table requests

/-- The tokens that come onto the stack at some requests, in order. -/
def pushed (table : ParseTable σ τ ν ρ) (e : Engine σ τ ν) : List (Request τ) → List τ
  | [] => []
  | request :: requests =>
      (e.pushed? (e.serve table request).2).toList ++
        (e.serve table request).2.pushed table requests

/-- The token that waits to be shifted, if there is one. -/
def waiting (e : Engine σ τ ν) : List τ := e.lookahead.token?.toList

variable {table : ParseTable σ τ ν ρ} {e after : Engine σ τ ν}

/-! ## What resuming does -/

/-- What resuming an engine does to the stacks and the lookahead. -/
inductive Resumed (e after : Engine σ τ ν) : Prop
  | still : after.states = e.states → after.stack = e.stack → after.lookahead = e.lookahead →
      Resumed e after
  | shifted {next : σ} {t : τ} : e.lookahead = .token t → after.states = next :: e.states →
      after.stack = .token t :: e.stack → after.lookahead = .absent → Resumed e after
  | reduced {left : ν} {length : Nat} {next : σ} : length ≤ e.stack.length →
      after.states = next :: e.states.drop length →
      after.stack = .nonterminal left :: e.stack.drop length → after.lookahead = e.lookahead →
      Resumed e after
  | popped {length : Nat} : length ≤ e.stack.length → after.states = e.states.drop length →
      after.stack = e.stack.drop length → after.lookahead = e.lookahead → Resumed e after

/-- Finding out what comes next changes the phase only. -/
theorem announce_frame (table : ParseTable σ τ ν ρ) (e : Engine σ τ ν) (s : σ)
    (lookahead : Option τ) :
    ∃ phase, (e.announce table s lookahead).2 = { e with phase := phase } ∧
      (phase = .awaitingInput → e.phase = .awaitingInput) := by
  unfold announce
  repeat' split
  all_goals first
    | exact ⟨e.phase, rfl, id⟩
    | exact ⟨_, rfl, by simp⟩

/-- Finding out what comes next changes the phase only, and asks for input if there is none. -/
theorem step_frame (table : ParseTable σ τ ν ρ) (e : Engine σ τ ν) :
    ∃ phase, (e.step table).2 = { e with phase := phase } ∧
      (phase = .awaitingInput → e.phase = .awaitingInput ∨ e.lookahead = .absent) := by
  unfold step
  split
  · exact ⟨e.phase, rfl, Or.inl⟩
  · split
    · rename_i habsent
      exact ⟨_, rfl, fun _ => Or.inr habsent⟩
    · obtain ⟨phase, hafter, hphase⟩ := announce_frame table e _ _
      exact ⟨phase, hafter, fun h => Or.inl (hphase h)⟩
    · obtain ⟨phase, hafter, hphase⟩ := announce_frame table e _ _
      exact ⟨phase, hafter, fun h => Or.inl (hphase h)⟩

/-- A reduction that is made puts the left-hand side in the place of the symbols. -/
theorem reduce_ok {left : ν} {length : Nat} (h : reduce table e left length = (.ok (), after)) :
    length ≤ e.stack.length ∧ ∃ next, after = { e with
      states := next :: e.states.drop length
      stack := .nonterminal left :: e.stack.drop length } := by
  unfold reduce at h
  split at h
  · rename_i s states top hstates htop
    split at h
    · cases h
    · rename_i next _
      cases h
      refine ⟨?_, next, by rw [hstates]⟩
      by_contra hlong
      simp [top?, Nat.lt_of_not_le hlong] at htop
  · cases h

/-- Resuming an engine makes at most one shift or reduction, and asks for input only if there is
none. -/
theorem resume_cases (table : ParseTable σ τ ν ρ) (he : e.Prepared) :
    Resumed e (e.resume table).2 ∧ ((e.resume table).2.phase = .awaitingInput →
      e.phase = .awaitingInput ∨ (e.resume table).2.lookahead = .absent) := by
  cases hphase : e.phase with
  | ready =>
    obtain ⟨phase, hafter, hasks⟩ := step_frame table { e with phase := .ready }
    simp only [Engine.resume, hphase, proceed, hafter]
    refine ⟨.still rfl rfl rfl, fun h => ?_⟩
    exact (hasks h).elim (by simp) Or.inr
  | shift next =>
    obtain ⟨t, ht⟩ := he next hphase
    obtain ⟨phase, hafter, hasks⟩ := step_frame table
      { e with phase := .ready, lookahead := .absent, states := next :: e.states,
               stack := .token t :: e.stack }
    simp only [Engine.resume, hphase, Engine.shift, ht, proceed, hafter]
    exact ⟨.shifted ht rfl rfl rfl, fun _ => .inr trivial⟩
  | reduce left length =>
    simp only [Engine.resume, hphase]
    rcases hreduce : Engine.reduce table e left length with ⟨cause | _, below⟩
    · simp only [proceed]
      obtain ⟨_, rfl⟩ | ⟨_, rfl, hlength⟩ := reduce_error hreduce
      · exact ⟨.still rfl rfl rfl, by simp [hphase]⟩
      · exact ⟨.popped hlength rfl rfl rfl, by simp [Engine.popped, hphase]⟩
    · obtain ⟨hlength, next, rfl⟩ := reduce_ok hreduce
      obtain ⟨phase, hafter, hasks⟩ := step_frame table
        { e with phase := .ready, states := next :: e.states.drop length,
                 stack := .nonterminal left :: e.stack.drop length }
      simp only [proceed, hafter]
      refine ⟨.reduced hlength rfl rfl rfl, fun h => ?_⟩
      exact (hasks h).elim (by simp) Or.inr
  | awaitingInput =>
    simp only [Engine.resume, hphase]
    exact ⟨.still rfl rfl rfl, fun _ => .inl trivial⟩
  | rejecting =>
    simp only [Engine.resume, hphase]
    exact ⟨.still rfl rfl rfl, by simp⟩
  | accepted =>
    simp only [Engine.resume, hphase]
    exact ⟨.still rfl rfl rfl, by simp⟩

/-! ## What offering does -/

/-- An engine that waits for input takes what it is offered. -/
theorem offer_of_awaiting (h : e.phase = .awaitingInput) (input : Lookahead τ) :
    e.offer input = (.ok (), { e with phase := .ready, lookahead := input }) := by
  rw [offer, h]

/-- An engine that does not wait for input refuses it, and stays as it is. -/
theorem offer_of_not_awaiting (h : e.phase ≠ .awaitingInput) (input : Lookahead τ) :
    e.offer input = (.error .unexpectedInput, e) := by
  unfold offer
  split
  · rename_i hphase
    exact absurd hphase h
  · rfl

/-- An offer leaves the stack alone. -/
theorem stack_offer (e : Engine σ τ ν) (input : Lookahead τ) :
    (e.offer input).2.stack = e.stack := by
  unfold Engine.offer
  split <;> rfl

/-! ## What every request keeps -/

/-- The stacks are in step above the initial state, an announced shift has its token, and input is
awaited only if there is none. -/
structure Orderly (table : ParseTable σ τ ν ρ) (e : Engine σ τ ν) : Prop where
  length_states : e.states.length = e.stack.length + 1
  bottom : e.states.getLast? = some table.initial
  prepared : e.Prepared
  awaiting : e.phase = .awaitingInput → e.lookahead = .absent

/-- An engine begins orderly. -/
theorem orderly_initial (table : ParseTable σ τ ν ρ) : (initial table).Orderly table where
  length_states := rfl
  bottom := rfl
  prepared := .of_phase (by simp [initial])
  awaiting _ := rfl

/-- Symbols come off the stacks together, and never the initial state. -/
theorem Orderly.drop (he : e.Orderly table) {length : Nat} (hlength : length ≤ e.stack.length) :
    (e.states.drop length).length = (e.stack.drop length).length + 1 ∧
      (e.states.drop length).getLast? = some table.initial := by
  have hshorter : length < e.states.length := by
    rw [he.length_states]
    exact Nat.lt_succ_of_le hlength
  constructor
  · rw [List.length_drop, List.length_drop, he.length_states]
    omega
  · rw [List.getLast?_drop, if_neg (Nat.not_le.mpr hshorter), he.bottom]

/-- Resuming keeps an engine orderly, also when it fails. -/
theorem Orderly.resume (he : e.Orderly table) : (e.resume table).2.Orderly table := by
  obtain ⟨hresumed, hasks⟩ := resume_cases table he.prepared
  have hstacks : (e.resume table).2.states.length = (e.resume table).2.stack.length + 1 ∧
      (e.resume table).2.states.getLast? = some table.initial := by
    cases hresumed with
    | still hstates hstack _ =>
      rw [hstates, hstack]
      exact ⟨he.length_states, he.bottom⟩
    | shifted _ hstates hstack _ =>
      rw [hstates, hstack, List.getLast?_cons, he.bottom]
      exact ⟨congrArg Nat.succ he.length_states, rfl⟩
    | reduced hlength hstates hstack _ =>
      obtain ⟨hsame, hbottom⟩ := he.drop hlength
      rw [hstates, hstack, List.getLast?_cons, hbottom]
      exact ⟨congrArg Nat.succ hsame, rfl⟩
    | popped hlength hstates hstack _ =>
      rw [hstates, hstack]
      exact he.drop hlength
  refine ⟨hstacks.1, hstacks.2, he.prepared.resume, fun hawaits => ?_⟩
  rcases hasks hawaits with hphase | habsent
  · simp only [Engine.resume, hphase]
    exact he.awaiting hphase
  · exact habsent

/-- An offer keeps an engine orderly, also when it is refused. -/
theorem Orderly.offer (he : e.Orderly table) (input : Lookahead τ) :
    (e.offer input).2.Orderly table := by
  by_cases h : e.phase = .awaitingInput
  · rw [offer_of_awaiting h]
    exact ⟨he.length_states, he.bottom, .of_phase (by simp), by simp⟩
  · rw [offer_of_not_awaiting h]
    exact he

/-- Every request, served or refused, keeps an engine orderly. -/
theorem Orderly.serve (he : e.Orderly table) (request : Request τ) :
    (e.serve table request).2.Orderly table := by
  cases request with
  | resume => exact he.resume
  | token t => exact he.offer (.token t)
  | finish => exact he.offer .finish

/-- Any number of requests keep an engine orderly. -/
theorem Orderly.serveAll (he : e.Orderly table) (requests : List (Request τ)) :
    (e.serveAll table requests).Orderly table := by
  induction requests generalizing e with
  | nil => exact he
  | cons request requests ih => exact ih (he.serve request)

/-! ## What becomes of tokens -/

/-- If the stack has not grown, no token has come onto it. -/
theorem pushed?_of_length_le (h : after.stack.length ≤ e.stack.length) :
    e.pushed? after = none := by
  unfold pushed?
  split
  · exact if_neg (Nat.not_lt.mpr h)
  · rfl

/-- At a resumption the waiting token comes onto the stack or goes on waiting. -/
theorem Resumed.account (h : Resumed e after) :
    e.waiting = (e.pushed? after).toList ++ after.waiting := by
  cases h with
  | still _ hstack hlookahead =>
    rw [pushed?_of_length_le (by rw [hstack]), waiting, waiting, hlookahead]
    rfl
  | @shifted next t ht _ hstack habsent =>
    have hpushed : e.pushed? after = some t := by simp [pushed?, hstack]
    rw [hpushed, waiting, waiting, ht, habsent]
    rfl
  | reduced _ _ hstack hlookahead =>
    have hpushed : e.pushed? after = none := by simp [pushed?, hstack]
    rw [hpushed, waiting, waiting, hlookahead]
    rfl
  | popped _ _ hstack hlookahead =>
    rw [pushed?_of_length_le (by rw [hstack, List.length_drop]; exact Nat.sub_le _ _), waiting,
      waiting, hlookahead]
    rfl

/-- An input that is taken waits, in the place of none. -/
theorem account_offer (he : e.phase = .awaitingInput → e.lookahead = .absent)
    (input : Lookahead τ) :
    e.waiting ++ ((e.offer input).1.toOption.bind fun _ => input.token?).toList =
      (e.pushed? (e.offer input).2).toList ++ (e.offer input).2.waiting := by
  have hpushed : e.pushed? (e.offer input).2 = none :=
    pushed?_of_length_le (by rw [stack_offer])
  rw [hpushed]
  by_cases h : e.phase = .awaitingInput
  · rw [offer_of_awaiting h, waiting, he h]
    rfl
  · rw [offer_of_not_awaiting h]
    exact List.append_nil _

/-- The tokens that wait or are taken at a request are those that come onto the stack or wait
afterwards. -/
theorem Orderly.account (he : e.Orderly table) (request : Request τ) :
    e.waiting ++ (e.taken? request).toList =
      (e.pushed? (e.serve table request).2).toList ++ (e.serve table request).2.waiting := by
  cases request with
  | resume =>
    rw [taken?, Option.toList_none, List.append_nil]
    exact (resume_cases table he.prepared).1.account
  | token t =>
    rw [taken?, Option.map_eq_bind]
    exact account_offer he.awaiting (.token t)
  | finish =>
    have haccount := account_offer he.awaiting .finish
    have hnone : (Lookahead.finish : Lookahead τ).token? = none := rfl
    rwa [hnone, Option.bind_fun_none] at haccount

/-- No token is lost, doubled or moved past another one. -/
theorem Orderly.taken_eq (he : e.Orderly table) (requests : List (Request τ)) :
    e.waiting ++ e.taken table requests =
      e.pushed table requests ++ (e.serveAll table requests).waiting := by
  induction requests generalizing e with
  | nil => exact List.append_nil _
  | cons request requests ih =>
    rw [Engine.taken, Engine.pushed, Engine.serveAll, ← List.append_assoc, he.account,
      List.append_assoc, ih (he.serve request), List.append_assoc]

/-! ## Verdicts -/

/-- The phase in which an engine has given its verdict, if the event tells of one. -/
def closing? : ParseEvent σ τ ν ρ → Option (Phase σ ν)
  | .accepted => some .accepted
  | .failing _ _ => some .rejecting
  | _ => none

/-- The engine has given its verdict. -/
def Closed (e : Engine σ τ ν) : Prop := e.phase = .accepted ∨ e.phase = .rejecting

/-- To announce a verdict is to go into the phase in which it has been given. -/
theorem phase_of_announce {s : σ} {lookahead : Option τ} {event : ParseEvent σ τ ν ρ}
    {phase : Phase σ ν} (h : (e.announce table s lookahead).1 = .ok event)
    (hcloses : closing? event = some phase) :
    (e.announce table s lookahead).2.phase = phase := by
  unfold announce at h ⊢
  repeat' split at h
  all_goals cases h
  all_goals cases hcloses
  all_goals simp [*]

/-- A step that tells of a verdict leads to the phase in which it has been given. -/
theorem phase_of_step {event : ParseEvent σ τ ν ρ} {phase : Phase σ ν}
    (h : (e.step table).1 = .ok event) (hcloses : closing? event = some phase) :
    (e.step table).2.phase = phase := by
  cases hstates : e.states with
  | nil => simp [step, hstates] at h
  | cons s states =>
    cases hlookahead : e.lookahead with
    | absent =>
      simp only [step, hstates, hlookahead] at h
      cases h
      cases hcloses
    | token t =>
      simp only [step, hstates, hlookahead] at h ⊢
      exact phase_of_announce h hcloses
    | finish =>
      simp only [step, hstates, hlookahead] at h ⊢
      exact phase_of_announce h hcloses

/-- A move that is followed by a verdict leads to the phase in which it has been given. -/
theorem phase_of_proceed {moved : Except ParseError Unit × Engine σ τ ν}
    {event : ParseEvent σ τ ν ρ} {phase : Phase σ ν}
    (h : (proceed table moved).1 = .ok event) (hcloses : closing? event = some phase) :
    (proceed table moved).2.phase = phase := by
  match moved, h with
  | (.ok (), _), h => exact phase_of_step h hcloses

/-- A verdict is told when it has been reached. -/
theorem phase_of_resume {event : ParseEvent σ τ ν ρ} {phase : Phase σ ν}
    (h : (e.resume table).1 = .ok event) (hcloses : closing? event = some phase) :
    (e.resume table).2.phase = phase := by
  cases hphase : e.phase with
  | ready =>
    simp only [Engine.resume, hphase] at h ⊢
    exact phase_of_proceed h hcloses
  | shift next =>
    simp only [Engine.resume, hphase] at h ⊢
    exact phase_of_proceed h hcloses
  | reduce left length =>
    simp only [Engine.resume, hphase] at h ⊢
    exact phase_of_proceed h hcloses
  | awaitingInput => simp [Engine.resume, hphase] at h
  | rejecting =>
    simp only [Engine.resume, hphase] at h
    cases h
    cases hcloses
  | accepted => simp [Engine.resume, hphase] at h

/-- After its verdict nothing that is asked of an engine changes it. -/
theorem Closed.serve (he : e.Closed) (request : Request τ) : (e.serve table request).2 = e := by
  have hawaits : e.phase ≠ .awaitingInput := by
    rcases he with h | h <;> simp [h]
  cases request with
  | resume => rcases he with h | h <;> simp [Engine.serve, Engine.resume, h]
  | token t => exact congrArg Prod.snd (offer_of_not_awaiting hawaits (.token t))
  | finish => exact congrArg Prod.snd (offer_of_not_awaiting hawaits .finish)

/-- After its verdict no number of requests changes an engine. -/
theorem Closed.serveAll (he : e.Closed) (requests : List (Request τ)) :
    e.serveAll table requests = e := by
  induction requests with
  | nil => rfl
  | cons request requests ih => rw [Engine.serveAll, he.serve, ih]

/-- Resuming gives the same answer for ever, whatever is asked before, and the symbols stay. -/
def Final (table : ParseTable σ τ ν ρ) (e : Engine σ τ ν)
    (answer : Except ParseError (ParseEvent σ τ ν ρ)) : Prop :=
  ∀ requests, ((e.serveAll table requests).resume table).1 = answer ∧
    (e.serveAll table requests).symbols = e.symbols

/-- After its verdict an engine gives one answer for ever. -/
theorem Closed.final (he : e.Closed) : e.Final table (e.resume table).1 := by
  intro requests
  rw [he.serveAll]
  exact ⟨rfl, rfl⟩

/-! ## What a client may rely on -/

/-- An orderly engine takes input exactly when it has asked for it, and keeps to its verdict. -/
structure Dependable (table : ParseTable σ τ ν ρ) (e : Engine σ τ ν) : Prop
    extends e.Orderly table where
  offerToken_iff (t : τ) : (e.offerToken t).1 = .ok () ↔ e.phase = .awaitingInput
  offerToken_frame (t : τ) : e.phase ≠ .awaitingInput → (e.offerToken t).2 = e
  offerEnd_iff : e.offerEnd.1 = .ok () ↔ e.phase = .awaitingInput
  offerEnd_frame : e.phase ≠ .awaitingInput → e.offerEnd.2 = e
  accepted : (e.resume table).1 = .ok .accepted →
    (e.resume table).2.Final table (.error .finished)
  failing (s : σ) (lookahead : Option τ) : (e.resume table).1 = .ok (.failing s lookahead) →
    (e.resume table).2.Final table (.ok .rejected)

/-- An offer succeeds exactly if input was asked for. -/
theorem offer_iff (e : Engine σ τ ν) (input : Lookahead τ) :
    (e.offer input).1 = .ok () ↔ e.phase = .awaitingInput := by
  by_cases h : e.phase = .awaitingInput
  · simp [offer_of_awaiting h, h]
  · simp [offer_of_not_awaiting h, h]

/-- An offer that was not asked for changes nothing. -/
theorem offer_frame (h : e.phase ≠ .awaitingInput) (input : Lookahead τ) :
    (e.offer input).2 = e := by
  rw [offer_of_not_awaiting h]

/-- A client may rely on an orderly engine. -/
theorem Orderly.dependable (he : e.Orderly table) : e.Dependable table where
  toOrderly := he
  offerToken_iff t := offer_iff e (.token t)
  offerToken_frame t h := offer_frame h (.token t)
  offerEnd_iff := offer_iff e .finish
  offerEnd_frame h := offer_frame h .finish
  accepted h := by
    have hphase : (e.resume table).2.phase = .accepted := phase_of_resume h rfl
    have hanswer : ((e.resume table).2.resume table).1 = .error .finished := by
      rw [Engine.resume, hphase]
    exact hanswer ▸ Closed.final (.inl hphase)
  failing s lookahead h := by
    have hphase : (e.resume table).2.phase = .rejecting := phase_of_resume h rfl
    have hanswer : ((e.resume table).2.resume table).1 = .ok .rejected := by
      rw [Engine.resume, hphase]
    exact hanswer ▸ Closed.final (.inr hphase)

/-- Whatever the table and the requests so far, those in vain included, the stacks are in step above
the initial state, shifts have their token, offers are taken exactly when input is awaited, verdicts
are final, and the tokens that have come onto the stack are the ones that were taken, in order, but
for one that may be missing at the end. -/
theorem keeps_protocol (table : ParseTable σ τ ν ρ) (requests : List (Request τ)) :
    ((initial table).serveAll table requests).Dependable table ∧
      (initial table).pushed table requests <+: (initial table).taken table requests ∧
      ((initial table).taken table requests).length ≤
        ((initial table).pushed table requests).length + 1 := by
  have horderly := orderly_initial table
  have haccount := horderly.taken_eq requests
  rw [show (initial table).waiting = [] from rfl, List.nil_append] at haccount
  refine ⟨(horderly.serveAll requests).dependable, ⟨_, haccount.symm⟩, ?_⟩
  rw [haccount, List.length_append]
  exact Nat.add_le_add_left Option.length_toList_le _

end Engine
end ParserGen
