import ParserGen.Automaton.Conflict
import ParserGen.Engine.Run

/-!
# Operator-precedence parsing

An expression is an operand, or operands with operators between them.  The parser described here
knows no states and no grammar: between an expression on its stack and an operator ahead it compares
the precedence of the operator with that of the operator to the left of the expression.

Main results:

- Theorem `OperatorTable.ends_parse`: the parser accepts or rejects every string.
- Theorem `OperatorTable.rejected_of_not_alternates`: it rejects what is not a sequence of operands
  with operators between them.
-/

namespace ParserGen

/-- An event without the state that it may name. -/
def ParseEvent.stateless {σ τ ν ρ : Type} : ParseEvent σ τ ν ρ → ParseEvent Unit τ ν ρ
  | inputNeeded => .inputNeeded
  | shifting t => .shifting t
  | reducing rule replaced => .reducing rule replaced
  | failing _ lookahead => .failing () lookahead
  | accepted => .accepted
  | rejected => .rejected

/-- The tokens of expressions: a token for operands, and the operators with their precedences. -/
structure OperatorTable where
  operand : Nat
  operators : List Nat
  precedence : Nat → Precedence

namespace OperatorTable

/-- A string is an operand, or an operand, an operator and such a string. -/
inductive Alternates (x : OperatorTable) : List Nat → Prop
  | operand : x.Alternates [x.operand]
  | operator {o : Nat} {rest : List Nat} : o ∈ x.operators → x.Alternates rest →
      x.Alternates (x.operand :: o :: rest)

/-! ## The parser -/

/-- What is on top of the stack. -/
inductive Top where
  /-- An operator, or nothing at all. -/
  | operator
  | operand
  | expression
deriving DecidableEq, Repr

/-- A parser under way: the operators on the stack, the last first, each with a complete
expression to its left; what is on top of them; and the rest of the input. -/
structure Parser where
  operators : List Nat
  top : Top
  input : List Nat

/-- What a parser can do. -/
inductive Turn where
  | shift (t : Nat) (next : Parser)
  | reduce (replaced : List (StackSymbol Nat Nat)) (next : Parser)
  | accept
  | reject

/-- What to do when there is an expression on both sides of the operator `o` and the operator `p`
comes next: reduce if `o` binds tighter, shift if `p` does; if they bind alike, reduce, shift or
reject as `p` associates to the left, to the right or not at all. -/
def group (x : OperatorTable) (o p : Nat) : Preference :=
  if (x.precedence p).priority < (x.precedence o).priority then .reduce
  else if (x.precedence o).priority < (x.precedence p).priority then .shift
  else
    match (x.precedence p).assoc with
    | .left => .reduce
    | .right => .shift
    | .nonassoc => .neither

/-- The symbols of an expression with the operator `o`; `e` is the nonterminal of expressions. -/
def application (e o : Nat) : List (StackSymbol Nat Nat) :=
  [.nonterminal e, .token o, .nonterminal e]

/-- What the parser does next. -/
def turn (x : OperatorTable) (e : Nat) : Parser → Turn
  | ⟨_, .operator, []⟩ => .reject
  | ⟨os, .operator, t :: rest⟩ =>
      if t = x.operand then .shift t ⟨os, .operand, rest⟩ else .reject
  | ⟨os, .operand, input⟩ =>
      if input.head? = some x.operand then .reject
      else .reduce [.token x.operand] ⟨os, .expression, input⟩
  | ⟨[], .expression, []⟩ => .accept
  | ⟨o :: os, .expression, []⟩ => .reduce (application e o) ⟨os, .expression, []⟩
  | ⟨[], .expression, p :: rest⟩ =>
      if p = x.operand then .reject else .shift p ⟨[p], .operator, rest⟩
  | ⟨o :: os, .expression, p :: rest⟩ =>
      if p = x.operand then .reject
      else
        match x.group o p with
        | .reduce => .reduce (application e o) ⟨os, .expression, p :: rest⟩
        | .shift => .shift p ⟨p :: o :: os, .operator, rest⟩
        | .neither => .reject

/-- What the parser announces in at most `n` turns, and how it ends.  The rule by which symbols are
replaced is given by `number`. -/
def run (x : OperatorTable) (e : Nat) (number : List (StackSymbol Nat Nat) → Nat) :
    Nat → Parser → List (ParseEvent Unit Nat Nat Nat) × Outcome
  | 0, _ => ([], .exhausted)
  | n + 1, c =>
      match x.turn e c with
      | .accept => ([], .accepted)
      | .reject => ([.failing () c.input.head?], .rejected)
      | .shift t next =>
          let rest := run x e number n next
          (.shifting t :: rest.1, rest.2)
      | .reduce replaced next =>
          let rest := run x e number n next
          (.reducing (number replaced) replaced :: rest.1, rest.2)

/-- What the parser announces for a string, and how it ends. -/
def parse (x : OperatorTable) (e : Nat) (number : List (StackSymbol Nat Nat) → Nat)
    (w : List Nat) : List (ParseEvent Unit Nat Nat Nat) × Outcome :=
  x.run e number (2 * w.length + 1) ⟨[], .operator, w⟩

variable {x : OperatorTable} {e : Nat} {number : List (StackSymbol Nat Nat) → Nat}
  {c next : Parser}

/-! ## Turns -/

/-- What is shifted is an operand where one has to come, or an operator after an expression. -/
theorem shift_cases {t : Nat} (h : x.turn e c = .shift t next) :
    ∃ rest, c.input = t :: rest ∧
      (c.top = .operator ∧ t = x.operand ∧ next = ⟨c.operators, .operand, rest⟩ ∨
        c.top = .expression ∧ t ≠ x.operand ∧ next = ⟨t :: c.operators, .operator, rest⟩) := by
  unfold turn at h
  split at h
  · cases h
  · split at h
    · rename_i htoken
      cases h
      exact ⟨_, rfl, Or.inl ⟨rfl, htoken, rfl⟩⟩
    · cases h
  · split at h <;> cases h
  · cases h
  · cases h
  · split at h
    · cases h
    · rename_i htoken
      cases h
      exact ⟨_, rfl, Or.inr ⟨rfl, htoken, rfl⟩⟩
  · split at h
    · cases h
    · rename_i htoken
      split at h
      · cases h
      · cases h
        exact ⟨_, rfl, Or.inr ⟨rfl, htoken, rfl⟩⟩
      · cases h

/-- What is reduced is an operand, or an operator between expressions. -/
theorem reduce_cases {replaced : List (StackSymbol Nat Nat)}
    (h : x.turn e c = .reduce replaced next) :
    c.top = .operand ∧ replaced = [.token x.operand] ∧
        next = ⟨c.operators, .expression, c.input⟩ ∨
      ∃ o os, c.top = .expression ∧ c.operators = o :: os ∧ replaced = application e o ∧
        next = ⟨os, .expression, c.input⟩ := by
  unfold turn at h
  split at h
  · cases h
  · split at h <;> cases h
  · split at h <;> cases h
    exact Or.inl ⟨rfl, rfl, rfl⟩
  · cases h
  · cases h
    exact Or.inr ⟨_, _, rfl, rfl, rfl, rfl⟩
  · split at h <;> cases h
  · split at h
    · cases h
    · split at h <;> cases h
      exact Or.inr ⟨_, _, rfl, rfl, rfl, rfl⟩

/-- An expression is accepted when it is all there is. -/
theorem accept_cases (h : x.turn e c = .accept) : c = ⟨[], .expression, []⟩ := by
  unfold turn at h
  split at h
  · cases h
  · split at h <;> cases h
  · split at h <;> cases h
  · rfl
  · cases h
  · split at h <;> cases h
  · split at h
    · cases h
    · split at h <;> cases h

theorem run_shift {t : Nat} (h : x.turn e c = .shift t next) (n : Nat) :
    x.run e number (n + 1) c =
      (.shifting t :: (x.run e number n next).1, (x.run e number n next).2) := by
  rw [run, h]

theorem run_reduce {replaced : List (StackSymbol Nat Nat)} (h : x.turn e c = .reduce replaced next)
    (n : Nat) :
    x.run e number (n + 1) c = (.reducing (number replaced) replaced ::
      (x.run e number n next).1, (x.run e number n next).2) := by
  rw [run, h]

theorem run_accept (h : x.turn e c = .accept) (n : Nat) :
    x.run e number (n + 1) c = ([], .accepted) := by
  rw [run, h]

theorem run_reject (h : x.turn e c = .reject) (n : Nat) :
    x.run e number (n + 1) c = ([.failing () c.input.head?], .rejected) := by
  rw [run, h]

/-! ## The end of a run -/

/-- A bound on the number of moves: each token is shifted and then reduced. -/
def Parser.work (c : Parser) : Nat :=
  2 * c.input.length + c.operators.length + if c.top = .operand then 1 else 0

theorem work_of_shift {t : Nat} (h : x.turn e c = .shift t next) : next.work < c.work := by
  obtain ⟨rest, hinput, ⟨htop, _, rfl⟩ | ⟨htop, _, rfl⟩⟩ := shift_cases h
  · simp [Parser.work, hinput, htop]
    omega
  · simp [Parser.work, hinput, htop]
    omega

theorem work_of_reduce {replaced : List (StackSymbol Nat Nat)}
    (h : x.turn e c = .reduce replaced next) : next.work < c.work := by
  obtain ⟨htop, _, rfl⟩ | ⟨o, os, htop, hoperators, _, rfl⟩ := reduce_cases h
  · simp [Parser.work, htop]
  · simp [Parser.work, htop, hoperators]

/-- A run that may take more turns than there is work to do ends. -/
theorem ends_run {n : Nat} (h : c.work < n) :
    (x.run e number n c).2 = .accepted ∨ (x.run e number n c).2 = .rejected := by
  induction n generalizing c with
  | zero => exact absurd h (Nat.not_lt_zero _)
  | succ n ih =>
    cases hturn : x.turn e c with
    | accept => exact Or.inl (by rw [run_accept hturn])
    | reject => exact Or.inr (by rw [run_reject hturn])
    | shift t next =>
      have hless := work_of_shift hturn
      rw [run_shift hturn]
      exact ih (Nat.lt_of_lt_of_le hless (Nat.le_of_lt_succ h))
    | reduce replaced next =>
      have hless := work_of_reduce hturn
      rw [run_reduce hturn]
      exact ih (Nat.lt_of_lt_of_le hless (Nat.le_of_lt_succ h))

/-- The parser accepts or rejects every string. -/
theorem ends_parse (x : OperatorTable) (e : Nat) (number : List (StackSymbol Nat Nat) → Nat)
    (w : List Nat) :
    (x.parse e number w).2 = .accepted ∨ (x.parse e number w).2 = .rejected :=
  ends_run (by simp [Parser.work])

/-! ## What is accepted -/

/-- All tokens are operands or operators. -/
def Spells (x : OperatorTable) (w : List Nat) : Prop :=
  ∀ t ∈ w, t = x.operand ∨ t ∈ x.operators

instance (x : OperatorTable) (w : List Nat) : Decidable (x.Spells w) :=
  inferInstanceAs (Decidable (∀ t ∈ w, t = x.operand ∨ t ∈ x.operators))

/-- The input completes what has been read: it is an expression where an operand has to come, and
otherwise the rest of one after its first operand. -/
def Completes (x : OperatorTable) (c : Parser) : Prop :=
  match c.top with
  | .operator => x.Alternates c.input
  | _ => x.Alternates (x.operand :: c.input)

theorem completes_of_shift {t : Nat} (hspells : x.Spells c.input)
    (h : x.turn e c = .shift t next) (hnext : x.Completes next) : x.Completes c := by
  obtain ⟨rest, hinput, ⟨htop, rfl, rfl⟩ | ⟨htop, htoken, rfl⟩⟩ := shift_cases h
  · simpa only [Completes, htop, hinput] using hnext
  · have hoperator : t ∈ x.operators :=
      (hspells t (hinput ▸ List.mem_cons_self)).resolve_left htoken
    simpa only [Completes, htop, hinput] using Alternates.operator hoperator hnext

theorem completes_of_reduce {replaced : List (StackSymbol Nat Nat)}
    (h : x.turn e c = .reduce replaced next) (hnext : x.Completes next) : x.Completes c := by
  obtain ⟨htop, _, rfl⟩ | ⟨o, os, htop, _, _, rfl⟩ := reduce_cases h
  · simpa only [Completes, htop] using hnext
  · simpa only [Completes, htop] using hnext

/-- No tokens come in while a string is read. -/
theorem Spells.shift {t : Nat} (hspells : x.Spells c.input) (h : x.turn e c = .shift t next) :
    x.Spells next.input := by
  obtain ⟨rest, hinput, ⟨_, _, rfl⟩ | ⟨_, _, rfl⟩⟩ := shift_cases h
  · exact fun t ht => hspells t (hinput ▸ List.mem_cons_of_mem _ ht)
  · exact fun t ht => hspells t (hinput ▸ List.mem_cons_of_mem _ ht)

theorem Spells.reduce {replaced : List (StackSymbol Nat Nat)} (hspells : x.Spells c.input)
    (h : x.turn e c = .reduce replaced next) : x.Spells next.input := by
  obtain ⟨_, _, rfl⟩ | ⟨_, _, _, _, _, rfl⟩ := reduce_cases h
  · exact hspells
  · exact hspells

/-- The input of an accepting run completes what has been read. -/
theorem completes_of_accepted {n : Nat} (hspells : x.Spells c.input)
    (h : (x.run e number n c).2 = .accepted) : x.Completes c := by
  induction n generalizing c with
  | zero => cases h
  | succ n ih =>
    cases hturn : x.turn e c with
    | accept =>
      rw [accept_cases hturn]
      exact .operand
    | reject =>
      rw [run_reject hturn] at h
      cases h
    | shift t next =>
      rw [run_shift hturn] at h
      exact completes_of_shift hspells hturn (ih (hspells.shift hturn) h)
    | reduce replaced next =>
      rw [run_reduce hturn] at h
      exact completes_of_reduce hturn (ih (hspells.reduce hturn) h)

/-- The parser rejects what is not a sequence of operands with operators between them. -/
theorem rejected_of_not_alternates {w : List Nat} (hspells : x.Spells w) (h : ¬ x.Alternates w) :
    (x.parse e number w).2 = .rejected :=
  (x.ends_parse e number w).resolve_left fun haccepted =>
    h (completes_of_accepted (c := ⟨[], .operator, w⟩) hspells haccepted)

end OperatorTable
end ParserGen
