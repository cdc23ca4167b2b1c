import ParserGen.Proofs.Automaton.Generation
import ParserGen.Proofs.Engine.StackMachine
import ParserGen.Proofs.Operators.Actions

/-!
# Parsing by precedence

The automaton of an operator grammar is built in every mode, and the engine that runs it makes the
moves of the operator-precedence parser.  The stack machine stands between them: its stack has the
operators of the parser on it, each on top of an expression, and the state on top is at the stage
that tells the operator to the left.

Main results:

- Theorem `Automaton.Faithful.agree_of_matches`: where the machine stands as the parser does, the
  table tells it to do what the parser does.
- Theorem `Automaton.parses_by_precedence`: the automaton is built, its conflicts are resolved, and
  runs of the engine are those of the parser.
-/

namespace ParserGen

/-- What is announced, without the states, and how it ends. -/
def Run.stateless {σ τ ν ρ : Type} (r : Run σ τ ν ρ) : List (ParseEvent Unit τ ν ρ) × Outcome :=
  (r.moves.map ParseEvent.stateless, r.outcome)

/-- The number of the first rule with the symbols that are replaced on its right-hand side. -/
def Grammar.numberOfReplaced (g : Grammar) (replaced : List (StackSymbol Nat Nat)) : Nat :=
  g.numberOf (replaced.map StackSymbol.toSymbol)

namespace Automaton

variable {g : Grammar} {x : OperatorTable} {first : FirstTable} {mode : MergeMode} {a : Automaton}
  {kernel : Nat → ItemSet} {s : Nat} {stack : List (StackSymbol Nat Nat × Nat)} {os : List Nat}
  {m next : StackMachine Nat Nat Nat} {c : OperatorTable.Parser}

/-! ## Stacks -/

/-- A stack on which an operand has to come: it has the operators on it, the last on top, each over
the expression to its left. -/
inductive Pending (g : Grammar) (x : OperatorTable) (a : Automaton) (kernel : Nat → ItemSet) :
    List Nat → List (StackSymbol Nat Nat × Nat) → Prop
  | nil : Pending g x a kernel [] []
  | cons {os : List Nat} {stack : List (StackSymbol Nat Nat × Nat)} {o s t : Nat} :
      Pending g x a kernel os stack → a.AtStage g x kernel s (.after os.head?) →
        a.AtStage g x kernel t (.before (some o)) →
          Pending g x a kernel (o :: os) ((.token o, t) :: (.nonterminal g.start, s) :: stack)

/-- The machine has on its stack what the parser has, and the same input. -/
inductive Matches (g : Grammar) (x : OperatorTable) (a : Automaton) (kernel : Nat → ItemSet) :
    StackMachine Nat Nat Nat → OperatorTable.Parser → Prop
  | operator {os : List Nat} {stack : List (StackSymbol Nat Nat × Nat)} {input : List Nat} :
      Pending g x a kernel os stack →
        Matches g x a kernel ⟨initialState, stack, input⟩ ⟨os, .operator, input⟩
  | operand {os : List Nat} {stack : List (StackSymbol Nat Nat × Nat)} {input : List Nat}
      {s : Nat} :
      Pending g x a kernel os stack → a.AtStage g x kernel s .operand →
        Matches g x a kernel ⟨initialState, (.token x.operand, s) :: stack, input⟩
          ⟨os, .operand, input⟩
  | expression {os : List Nat} {stack : List (StackSymbol Nat Nat × Nat)} {input : List Nat}
      {s : Nat} :
      Pending g x a kernel os stack → a.AtStage g x kernel s (.after os.head?) →
        Matches g x a kernel ⟨initialState, (.nonterminal g.start, s) :: stack, input⟩
          ⟨os, .expression, input⟩

/-- The machine does what the parser does, and stands as the parser does thereafter. -/
inductive Agree (g : Grammar) (x : OperatorTable) (a : Automaton) (kernel : Nat → ItemSet)
    (lookahead : Option Nat) : StackMachine.Turn Nat Nat Nat Nat → OperatorTable.Turn → Prop
  | shift {t : Nat} {m : StackMachine Nat Nat Nat} {c : OperatorTable.Parser} :
      Matches g x a kernel m c →
        Agree g x a kernel lookahead (.announce (.shifting t) (.ok m)) (.shift t c)
  | reduce {replaced : List (StackSymbol Nat Nat)} {m : StackMachine Nat Nat Nat}
      {c : OperatorTable.Parser} : Matches g x a kernel m c →
        Agree g x a kernel lookahead
          (.announce (.reducing (g.numberOfReplaced replaced) replaced) (.ok m))
          (.reduce replaced c)
  | accept : Agree g x a kernel lookahead (.halt .accepted) .accept
  | reject {s : Nat} :
      Agree g x a kernel lookahead (.announce (.failing s lookahead) (.error .rejected)) .reject

/-! ## Turns of the machine -/

theorem agree_of_shift {t : Nat} {rest : List Nat} (hinput : m.input = t :: rest)
    (haction : a.table.action m.top (some t) = .shift s)
    (hnext : Matches g x a kernel ({ m with input := rest }.push (.token t) s) c) :
    Agree g x a kernel m.input.head? (m.turn a.table) (.shift t c) := by
  have hturn : m.turn a.table =
      .announce (.shifting t) (.ok ({ m with input := rest }.push (.token t) s)) := by
    unfold StackMachine.turn
    rw [hinput, List.head?_cons, haction]
  rw [hturn]
  exact .shift hnext

theorem agree_of_accept (haction : a.table.action m.top m.input.head? = .accept) :
    Agree g x a kernel m.input.head? (m.turn a.table) .accept := by
  simp only [StackMachine.turn, haction]
  exact .accept

theorem agree_of_fail (haction : a.table.action m.top m.input.head? = .fail) :
    Agree g x a kernel m.input.head? (m.turn a.table) .reject := by
  simp only [StackMachine.turn, haction]
  exact .reject

namespace Faithful

section Turns

variable (h : g.OperatorGrammar x) (haug : g.Augmented) (hfirst : first.Within g)
  (hf : a.Faithful g first mode kernel)
include h haug hfirst hf

omit hfirst in
theorem top_pending (hp : Pending g x a kernel os stack) (input : List Nat) :
    a.AtStage g x kernel (StackMachine.top ⟨initialState, stack, input⟩) (.before os.head?) := by
  cases hp with
  | nil => exact hf.atStage_initial h haug
  | cons _ _ hoperator => exact hoperator

/-- When symbols are replaced by an expression, the parser goes on with the operators below. -/
theorem agree_of_reduce (replaced : List (StackSymbol Nat Nat × Nat)) {input : List Nat}
    (hp : Pending g x a kernel os stack)
    (haction : a.table.action (StackMachine.top ⟨initialState, replaced ++ stack, input⟩)
      input.head? = .reduce (g.numberOfReplaced (replaced.map (·.1)).reverse) g.start
        replaced.length) :
    Agree g x a kernel input.head?
      (StackMachine.turn a.table ⟨initialState, replaced ++ stack, input⟩)
      (.reduce (replaced.map (·.1)).reverse ⟨os, .expression, input⟩) := by
  obtain ⟨next, hgoto, hnext⟩ := hf.goto_before h haug hfirst (hf.top_pending h haug hp input)
  have hpop : StackMachine.pop ⟨initialState, replaced ++ stack, input⟩ replaced.length =
      ⟨initialState, stack, input⟩ := by
    rw [StackMachine.pop, List.drop_left]
  have henter : StackMachine.enter a.table ⟨initialState, stack, input⟩ g.start =
      .ok (StackMachine.push ⟨initialState, stack, input⟩ (.nonterminal g.start) next) := by
    rw [StackMachine.enter, hgoto]
  rw [StackMachine.turn_reduce haction (by simp), hpop, henter, List.take_left]
  exact .reduce (.expression hp hnext)

/-- Where an operand has to come, it is shifted, and nothing else is. -/
theorem agree_before (hp : Pending g x a kernel os stack) (input : List Nat) :
    Agree g x a kernel input.head? (StackMachine.turn a.table ⟨initialState, stack, input⟩)
      (x.turn g.start ⟨os, .operator, input⟩) := by
  have htop := hf.top_pending h haug hp input
  cases input with
  | nil => exact agree_of_fail (hf.action_before_fails h haug hfirst htop h.operand_ne.symm)
  | cons t rest =>
    rw [OperatorTable.turn]
    by_cases ht : t = x.operand
    · subst ht
      obtain ⟨s, haction, hs⟩ := hf.action_before h haug hfirst htop
      rw [if_pos rfl]
      exact agree_of_shift rfl haction (.operand hp hs)
    · rw [if_neg ht]
      exact agree_of_fail (hf.action_before_fails h haug hfirst htop ht)

/-- An operand becomes an expression, unless another comes next. -/
theorem agree_operand (hp : Pending g x a kernel os stack) (hs : a.AtStage g x kernel s .operand)
    {input : List Nat} (hspells : x.Spells input) :
    Agree g x a kernel input.head?
      (StackMachine.turn a.table ⟨initialState, (.token x.operand, s) :: stack, input⟩)
      (x.turn g.start ⟨os, .operand, input⟩) := by
  rw [OperatorTable.turn]
  by_cases hinput : input.head? = some x.operand
  · have hfails := hf.action_operand_fails h haug hfirst hs (fun _ hσ => (by cases hσ))
    rw [if_pos hinput]
    have haction : a.table.action s input.head? = .fail := by rw [hinput, hfails]
    exact agree_of_fail (m := ⟨initialState, (.token x.operand, s) :: stack, input⟩) haction
  · rw [if_neg hinput]
    have ht : input.head?.getD endOfInput = endOfInput ∨
        input.head?.getD endOfInput ∈ x.operators := by
      cases input with
      | nil => exact Or.inl rfl
      | cons t rest =>
        have htoken : t ≠ x.operand := fun ht => hinput (congrArg some ht)
        exact Or.inr ((hspells t List.mem_cons_self).resolve_left htoken)
    exact hf.agree_of_reduce h haug hfirst [(.token x.operand, s)] hp
      (hf.action_operand h haug hfirst hs ht)

/-- An expression with an operator to the left is reduced together with it. -/
theorem agree_application {o : Nat} (hp : Pending g x a kernel (o :: os) stack) (input : List Nat)
    (haction : a.table.action s input.head? = .reduce (g.numberOf (g.binary o)) g.start 3) :
    Agree g x a kernel input.head?
      (StackMachine.turn a.table ⟨initialState, (.nonterminal g.start, s) :: stack, input⟩)
      (.reduce (OperatorTable.application g.start o) ⟨os, .expression, input⟩) := by
  cases hp with
  | @cons _ stack _ s' t hp _ _ =>
    exact hf.agree_of_reduce h haug hfirst
      [(.nonterminal g.start, s), (.token o, t), (.nonterminal g.start, s')] hp haction

/-- After an expression the operators to the left and ahead decide. -/
theorem agree_expression (hend : endOfInput ∉ x.operators) (hp : Pending g x a kernel os stack)
    (hs : a.AtStage g x kernel s (.after os.head?)) {input : List Nat} (hspells : x.Spells input) :
    Agree g x a kernel input.head?
      (StackMachine.turn a.table ⟨initialState, (.nonterminal g.start, s) :: stack, input⟩)
      (x.turn g.start ⟨os, .expression, input⟩) := by
  cases input with
  | nil =>
    obtain ⟨haccept, hreduce⟩ := hf.action_at_end h haug hfirst hend hs
    cases os with
    | nil => exact agree_of_accept (m := ⟨_, _, []⟩) (haccept rfl)
    | cons o os => exact hf.agree_application h haug hfirst hp [] (hreduce o rfl)
  | cons p rest =>
    by_cases htoken : p = x.operand
    · subst htoken
      have hfails := hf.action_operand_fails h haug hfirst hs (fun _ hσ => (by cases hσ))
      have hturn : x.turn g.start ⟨os, .expression, x.operand :: rest⟩ = .reject := by
        cases os <;> rw [OperatorTable.turn, if_pos rfl]
      rw [hturn]
      exact agree_of_fail (m := ⟨_, _, x.operand :: rest⟩) hfails
    · have hoperator := (hspells p List.mem_cons_self).resolve_left htoken
      obtain ⟨next, hnext, hbottom, hdecides⟩ := hf.action_after h haug hfirst hend hs hoperator
      -- The machine's shift puts the operator over the expression.
      have hpending := Pending.cons hp hs hnext
      cases os with
      | nil =>
        rw [OperatorTable.turn, if_neg htoken]
        exact agree_of_shift (m := ⟨_, _, p :: rest⟩) rfl (hbottom rfl) (.operator hpending)
      | cons o os =>
        have haction := hdecides o rfl
        rw [OperatorTable.turn, if_neg htoken]
        cases hgroup : x.group o p with
        | shift =>
          rw [hgroup] at haction
          exact agree_of_shift (m := ⟨_, _, p :: rest⟩) rfl haction (.operator hpending)
        | reduce =>
          rw [hgroup] at haction
          exact hf.agree_application h haug hfirst hp (p :: rest) haction
        | neither =>
          rw [hgroup] at haction
          exact agree_of_fail (m := ⟨_, _, p :: rest⟩) haction

/-- A machine that stands as the parser does what the parser does. -/
theorem agree_of_matches (hend : endOfInput ∉ x.operators) (hm : Matches g x a kernel m c)
    (hspells : x.Spells c.input) :
    Agree g x a kernel c.input.head? (m.turn a.table) (x.turn g.start c) := by
  cases hm with
  | operator hp => exact hf.agree_before h haug hfirst hp _
  | operand hp hs => exact hf.agree_operand h haug hfirst hp hs hspells
  | expression hp hs => exact hf.agree_expression h haug hfirst hend hp hs hspells

/-! ## Runs -/

/-- A run of the parser that ends is one of the machine. -/
theorem exists_run_of_matches (hend : endOfInput ∉ x.operators) {n : Nat}
    (hm : Matches g x a kernel m c) (hspells : x.Spells c.input)
    (hended : (x.run g.start g.numberOfReplaced n c).2 ≠ .exhausted) :
    ∃ k, (StackMachine.run a.table k (.ok m)).map (List.map ParseEvent.stateless) id =
      x.run g.start g.numberOfReplaced n c := by
  induction n generalizing m c with
  | zero => exact absurd rfl hended
  | succ n ih =>
    have hagree := hf.agree_of_matches h haug hfirst hend hm hspells
    cases hturn : x.turn g.start c with
    | accept =>
      rw [hturn] at hagree
      generalize hdoes : m.turn a.table = turn at hagree
      cases hagree
      refine ⟨1, ?_⟩
      rw [OperatorTable.run_accept hturn, StackMachine.run, hdoes]
      rfl
    | reject =>
      rw [hturn] at hagree
      generalize hdoes : m.turn a.table = turn at hagree
      cases hagree
      refine ⟨2, ?_⟩
      rw [OperatorTable.run_reject hturn, StackMachine.run_announce hdoes]
      rfl
    | shift t next =>
      rw [hturn] at hagree
      rw [OperatorTable.run_shift hturn] at hended ⊢
      generalize hdoes : m.turn a.table = turn at hagree
      cases hagree with
      | shift hnext =>
        obtain ⟨k, hrun⟩ := ih hnext (hspells.shift hturn) hended
        refine ⟨k + 1, ?_⟩
        rw [StackMachine.run_announce hdoes, ← hrun]
        rfl
    | reduce replaced next =>
      rw [hturn] at hagree
      rw [OperatorTable.run_reduce hturn] at hended ⊢
      generalize hdoes : m.turn a.table = turn at hagree
      cases hagree with
      | reduce hnext =>
        obtain ⟨k, hrun⟩ := ih hnext (hspells.reduce hturn) hended
        refine ⟨k + 1, ?_⟩
        rw [StackMachine.run_announce hdoes, ← hrun]
        rfl

/-- The engine makes the moves of the parser. -/
theorem ofInput_eq_parse (hend : endOfInput ∉ x.operators) {w : List Nat} (hspells : x.Spells w) :
    ∃ limit, ∀ more, limit ≤ more →
      (Run.ofInput a.table more w).stateless = x.parse g.start g.numberOfReplaced w := by
  have hparse := x.ends_parse g.start g.numberOfReplaced w
  have hended : (x.parse g.start g.numberOfReplaced w).2 ≠ .exhausted := by
    intro hexhausted
    rw [hexhausted] at hparse
    rcases hparse with hout | hout <;> cases hout
  have hstart : Matches g x a kernel (.start a.table w) ⟨[], .operator, w⟩ := .operator .nil
  obtain ⟨k, hmachine⟩ := hf.exists_run_of_matches h haug hfirst hend hstart hspells hended
  obtain ⟨limit, hengine⟩ := (Engine.tracks_initial a.table w).exists_drive_of_run (n := k)
  have hrun : (Run.ofInput a.table limit w).stateless =
      x.parse g.start g.numberOfReplaced w := by
    rw [OperatorTable.parse, ← hmachine]
    exact congrArg (Prod.map (List.map ParseEvent.stateless) id) hengine
  refine ⟨limit, fun more hle => ?_⟩
  have houtcome : (Run.ofInput a.table limit w).outcome ≠ .exhausted := by
    rw [← hrun] at hended
    exact hended
  rw [← hrun, Run.ofInput, Run.drive_mono hle houtcome]
  rfl

end Turns
end Faithful

/-- Operator grammars parse as their precedences say: whatever the operators, their precedences and
the order of the rules, the automaton is built in every mode, its conflicts are all resolved, and on
every string of operands and operators the engine makes the moves of the operator-precedence parser,
which ends, and rejects what is not a sequence of operands with operators between them. -/
theorem parses_by_precedence {declarations : List Declaration}
    (hg : Grammar.define declarations = .ok g) (h : g.OperatorGrammar x) (mode : MergeMode) :
    ∃ a, (generate mode g).result = .ok a ∧
      (∀ c ∈ a.conflicts, c.isResolved = true) ∧
      ∀ w, x.Spells w →
        (∃ limit, ∀ more, limit ≤ more →
          (Run.ofInput a.table more w).stateless = x.parse g.start g.numberOfReplaced w) ∧
        ((x.parse g.start g.numberOfReplaced w).2 = .accepted ∨
          (x.parse g.start g.numberOfReplaced w).2 = .rejected) ∧
        (¬ x.Alternates w → (x.parse g.start g.numberOfReplaced w).2 = .rejected) := by
  have haug := Grammar.augmented_of_define hg
  have hfirst := FirstTable.within_ofGrammar g
  have hend : endOfInput ∉ x.operators := fun ho => h.ne_endOfInput hg ho rfl
  have hfew := Grammar.OperatorGrammar.fewArise hg h mode
  obtain ⟨a, ha⟩ := exists_generate haug (h.checkBuildable hg) hfew
  obtain ⟨kernel, hf⟩ := faithful_of_generate haug ha
  refine ⟨a, ha, fun c hc => hf.resolved_of_operators h haug hfirst hend hc, fun w hspells => ?_⟩
  exact ⟨hf.ofInput_eq_parse h haug hfirst hend hspells, x.ends_parse g.start _ w,
    OperatorTable.rejected_of_not_alternates hspells⟩

/-- Expressions with operators of each kind. -/
def arithmetic : List Declaration :=
  [.terminal "equals" (some ⟨0, .nonassoc⟩), .terminal "plus" (some ⟨1, .left⟩),
    .terminal "times" (some ⟨2, .left⟩), .terminal "power" (some ⟨3, .right⟩),
    .terminal "number" none, .nonterminal "expression",
    .rule 1 [.nonterminal 1, .terminal 4, .nonterminal 1] none,
    .rule 1 [.nonterminal 1, .terminal 2, .nonterminal 1] none, .rule 1 [.terminal 5] none,
    .rule 1 [.nonterminal 1, .terminal 1, .nonterminal 1] none,
    .rule 1 [.nonterminal 1, .terminal 3, .nonterminal 1] none]

def arithmeticOperators : OperatorTable where
  operand := 5
  operators := [1, 2, 3, 4]
  precedence o := ⟨o - 1, if o = 1 then .nonassoc else if o = 4 then .right else .left⟩

set_option maxRecDepth 100000 in
theorem parses_by_precedence_sumOfProduct :
    ∃ g a, Grammar.define arithmetic = .ok g ∧ g.OperatorGrammar arithmeticOperators ∧
      (generate .pgm g).result = .ok a ∧ (∀ c ∈ a.conflicts, c.isResolved = true) ∧
      ∃ limit, ∀ more, limit ≤ more → (Run.ofInput a.table more [5, 2, 5, 3, 5]).stateless =
        ([.shifting 5, .reducing 3 [.token 5], .shifting 2, .shifting 5, .reducing 3 [.token 5],
          .shifting 3, .shifting 5, .reducing 3 [.token 5],
          .reducing 5 [.nonterminal 1, .token 3, .nonterminal 1],
          .reducing 2 [.nonterminal 1, .token 2, .nonterminal 1]], .accepted) := by
  have hsome : (Grammar.define arithmetic).toOption.any (fun g =>
      decide (g.OperatorGrammar arithmeticOperators ∧
        arithmeticOperators.parse g.start g.numberOfReplaced [5, 2, 5, 3, 5] =
          ([.shifting 5, .reducing 3 [.token 5], .shifting 2, .shifting 5, .reducing 3 [.token 5],
            .shifting 3, .shifting 5, .reducing 3 [.token 5],
            .reducing 5 [.nonterminal 1, .token 3, .nonterminal 1],
            .reducing 2 [.nonterminal 1, .token 2, .nonterminal 1]], .accepted))) = true := by
    decide +kernel
  obtain ⟨g, hg, hsome⟩ := (Option.any_eq_true _ _).mp hsome
  have hg := eq_ok_of_toOption_eq_some hg
  obtain ⟨h, hparse⟩ := of_decide_eq_true hsome
  obtain ⟨a, ha, hresolved, hruns⟩ := parses_by_precedence hg h .pgm
  obtain ⟨limit, hlimit⟩ := (hruns [5, 2, 5, 3, 5] (by decide)).1
  exact ⟨g, a, hg, h, ha, hresolved, limit, fun more hle => (hlimit more hle).trans hparse⟩

end Automaton
end ParserGen
