import ParserGen.Proofs.Automaton.Paths
import ParserGen.Proofs.Grammar.Derivation
import ParserGen.Proofs.Language.Acceptance

/-!
# Completeness without conflicts

If no actions compete, the items of the state on top tell what the parser does.  It moves over the
symbols after a marker one by one: over a terminal by a shift, over a nonterminal by following a
derivation of what it yields, from the start of a rule to its reduction.

Main results:

- Theorem `Automaton.Faithful.moves_by`: the parser moves over the symbols after a marker, and
  reduces by the rules of what they yield.
- Theorem `Automaton.derived_accepted`: an automaton without conflicts accepts every string that is
  derived from the start symbol, however merged its states are.
-/

namespace ParserGen

open ItemSet

/-- After moves that reduce by `rules`, `length` symbols have been put on the stacks, the input that
is left is `rest`, and the state on top has the item `i` with its marker moved over the symbols and
with `rest` ahead of it. -/
def MovesBy (a : Automaton) (c : Configuration Nat Nat Nat) (i : Item) (length : Nat)
    (rules rest : List Nat) : Prop :=
  ∃ events s below stack st, Moves a.table c events ⟨s :: below, stack, rest⟩ ∧
    reducedRules events = rules ∧
    (s :: below).drop length = c.states ∧ length ≤ stack.length ∧ stack.drop length = c.stack ∧
    a.states[s]? = some st ∧ upcoming rest ∈ st.items.lookaheads ⟨i.rule, i.marker + length⟩

namespace MovesBy

variable {a : Automaton} {c : Configuration Nat Nat Nat} {length : Nat} {rules rest : List Nat}
  {i : Item}

theorem refl {s : Nat} {states : List Nat} {stack : List (StackSymbol Nat Nat)} {st : State}
    (hst : a.states[s]? = some st) (hi : upcoming rest ∈ st.items.lookaheads i) :
    MovesBy a ⟨s :: states, stack, rest⟩ i 0 [] rest :=
  ⟨[], s, states, stack, st, .nil _, rfl, rfl, Nat.zero_le _, rfl, hst, hi⟩

/-- Moves that put one symbol on the stacks may come before. -/
theorem prepend {events : List (ParseEvent Nat Nat Nat Nat)} {next : Nat} {x : StackSymbol Nat Nat}
    {input : List Nat} (hmoves : Moves a.table c events ⟨next :: c.states, x :: c.stack, input⟩)
    (h : MovesBy a ⟨next :: c.states, x :: c.stack, input⟩ i.advance length rules rest) :
    MovesBy a c i (length + 1) (reducedRules events ++ rules) rest := by
  obtain ⟨events', s, below, stack, st, hmoves', hrules, hstates, hle, hstack, hst, hi⟩ := h
  simp only at hstates hstack
  rw [Item.advance, Nat.add_assoc, Nat.add_comm 1] at hi
  refine ⟨events ++ events', s, below, stack, st, hmoves.append hmoves', ?_, ?_, ?_, ?_, hst, hi⟩
  · rw [reducedRules_append, hrules]
  · rw [← List.drop_drop, hstates, List.drop_one, List.tail_cons]
  · have hlength := congrArg List.length hstack
    rw [List.length_drop, List.length_cons] at hlength
    omega
  · rw [← List.drop_drop, hstack, List.drop_one, List.tail_cons]

end MovesBy

namespace Automaton

variable {g : Grammar} {first : FirstTable} {mode : MergeMode} {a : Automaton}
  {kernel : Nat → ItemSet}

namespace Faithful

section Actions

variable {s : Nat} {st : State} {input : List Nat}

/-- Without conflicts nothing has to be settled. -/
theorem choice_of_no_conflicts (hf : a.Faithful g first mode kernel) (hnone : a.conflicts = [])
    (hst : a.states[s]? = some st) (t : Nat) : (st.choice g t).2 = none := by
  cases hchoice : (st.choice g t).2 with
  | none => rfl
  | some settled =>
    have hmem := hf.mem_conflicts.mpr ⟨s, st, hst, t, settled.1, settled.2, hchoice, rfl⟩
    rw [hnone] at hmem
    cases hmem

/-- Without conflicts a terminal after a marker is shifted. -/
theorem action_of_next (h : g.Augmented) (hf : a.Faithful g first mode kernel)
    (hnone : a.conflicts = []) (hst : a.states[s]? = some st) {t next : Nat}
    (htarget : st.target? (.terminal t) = some next) :
    a.table.action s (some t) = .shift next := by
  have hsettled := hf.choice_of_no_conflicts hnone hst t
  have hchoice : (st.choice g t).1 = .shift next := by
    rw [State.choice, htarget] at hsettled ⊢
    exact resolve_eq_shift_of_no_conflict hsettled
  rw [hf.action_eq h hst, Option.getD_some, hchoice]
  rfl

/-- Without conflicts the rule of a complete item is reduced by, or the input accepted, where a
lookahead is ahead. -/
theorem action_of_complete (h : g.Augmented) (hf : a.Faithful g first mode kernel)
    (hnone : a.conflicts = []) (hst : a.states[s]? = some st) {r : Rule} (hr : r ∈ g.ruleList)
    (hi : upcoming input ∈ st.items.lookaheads ⟨r.id, r.right.length⟩) :
    a.table.action s input.head? = (reduceOrAccept r.id).toParse g := by
  have hmem : r.id ∈ reductionsOn g st.items (upcoming input) :=
    mem_reductionsOn.mpr ⟨_, mem_of_mem_lookaheads hi,
      (Item.isComplete_of_rule_eq h hr rfl).mpr (Nat.le_refl _), hi, rfl⟩
  rw [hf.action_eq h hst]
  exact congrArg (Action.toParse g)
    (resolve_eq_reduce_of_no_conflict hmem (hf.choice_of_no_conflicts hnone hst _))

end Actions

section Moving

variable {s : Nat} {st : State} {states : List Nat} {stack : List (StackSymbol Nat Nat)} {i : Item}
  {x : Symbol} {symbols : List Symbol} {rest : List Nat}

/-- An item passes its lookaheads on to the state that the symbol after its marker leads to. -/
theorem exists_next (h : g.Augmented) (hf : a.Faithful g first mode kernel)
    (hst : a.states[s]? = some st) (hrest : i.rest g = x :: symbols)
    (hi : upcoming rest ∈ st.items.lookaheads i) :
    ∃ next st', st.target? x = some next ∧ a.states[next]? = some st' ∧
      i.advance.rest g = symbols ∧ upcoming rest ∈ st'.items.lookaheads i.advance := by
  obtain ⟨hnext, hrest⟩ := Item.rest_eq_cons_iff.mp hrest
  obtain ⟨next, htarget⟩ := (hf.exists_target_iff hst).mpr ⟨i, mem_of_mem_lookaheads hi, hnext⟩
  obtain ⟨st', hst'⟩ := (hf.target_state hst htarget).1
  exact ⟨next, st', htarget, hst', hrest, hf.advance_lookaheads h hst htarget hst' hnext hi⟩

/-- After the right-hand side of a rule that was begun on top of the stack, its left-hand side takes
the place of the right-hand side. -/
theorem moves_of_begun (h : g.Augmented) (hf : a.Faithful g first mode kernel)
    (hnone : a.conflicts = []) (hst : a.states[s]? = some st) {r : Rule} (hr : r ∈ g.ruleList)
    (hne : r.id ≠ augmentedRule) {next : Nat}
    (htarget : st.target? (.nonterminal r.left) = some next)
    {rules input : List Nat}
    (hby : MovesBy a ⟨s :: states, stack, input⟩ (Item.start r.id) r.right.length rules rest) :
    ∃ events, reducedRules events = rules ++ [r.id] ∧
      Moves a.table ⟨s :: states, stack, input⟩ events
        ⟨next :: s :: states, .nonterminal r.left :: stack, rest⟩ := by
  obtain ⟨events, top, below, stack', sttop, hmoves, hrules, hdrop, hle, hstack, hsttop,
    hcomplete⟩ := hby
  simp only at hdrop hstack
  rw [Item.start, Nat.zero_add] at hcomplete
  have hreduce := hf.action_of_complete h hnone hsttop hr hcomplete
  rw [reduceOrAccept, if_neg hne, Action.toParse, h.mem_ruleList.mp hr] at hreduce
  have hgoto : a.table.goto s r.left = some next := (hf.goto_eq hst r.left).trans htarget
  have hmove := Move.reduce hreduce hdrop hle hgoto
  rw [hstack] at hmove
  refine ⟨_, ?_, hmoves.append (.cons hmove (.nil _))⟩
  rw [reducedRules_append, hrules]
  rfl

/-- The parser moves over the symbols after a marker whenever the input begins with something that
they yield and goes on with a lookahead of the item.  It reduces by the rules of the yield. -/
theorem moves_by (havoid : g.AvoidsReserved) (h : g.Augmented) (hfirst : first.Within g)
    (hclosed : first.Closed g) (hf : a.Faithful g first mode kernel) (hnone : a.conflicts = [])
    {rules u : List Nat} (hu : g.YieldsBy symbols rules u) (hst : a.states[s]? = some st)
    (hrest : i.rest g = symbols) (hi : upcoming rest ∈ st.items.lookaheads i) :
    MovesBy a ⟨s :: states, stack, u ++ rest⟩ i symbols.length rules rest := by
  induction hu generalizing s states stack rest st i with
  | nil => exact .refl hst hi
  | @terminal t x rules u _ ih =>
    obtain ⟨next, st', htarget, hst', hrest', hi'⟩ := hf.exists_next h hst hrest hi
    have hshift := hf.action_of_next h hnone hst htarget
    exact .prepend (.cons (.shift hshift) (.nil _)) (ih hst' hrest' hi')
  | @nonterminal r x rules rules' u v hr _ hv ihright ihx =>
    obtain ⟨next, st', htarget, hst', hrest', hi'⟩ := hf.exists_next h hst hrest hi
    -- The rule is begun in this state, and what follows its right-hand side is a lookahead there.
    have hstart : upcoming (v ++ rest) ∈ st.items.lookaheads (Item.start r.id) :=
      hf.start_lookaheads h hfirst hst (mem_of_mem_lookaheads hi) hrest hr
        (hclosed.mem_firstWith_of_yields hv.yields hi)
    have hby : MovesBy a ⟨s :: states, stack, u ++ (v ++ rest)⟩ (Item.start r.id)
        r.right.length rules (v ++ rest) := ihright hst (Item.rest_start h hr) hstart
    obtain ⟨events, hrules, hmoves⟩ :=
      hf.moves_of_begun h hnone hst hr (havoid.id_ne h hrest hr) htarget hby
    have hall := MovesBy.prepend hmoves (ihx hst' hrest' hi')
    rw [hrules, List.append_assoc] at hall
    rw [List.append_assoc]
    exact hall

end Moving

/-- The parser accepts what the start symbol yields, and reduces by the rules of the yield. -/
theorem accepts_by (havoid : g.AvoidsReserved) (h : g.Augmented) (hfirst : first.Within g)
    (hclosed : first.Closed g) (hf : a.Faithful g first mode kernel) (hnone : a.conflicts = [])
    {rules w : List Nat} (hw : g.YieldsBy [.nonterminal g.start] rules w) :
    ∃ events c, Moves a.table (startConfiguration w) events c ∧ Accepting a.table c ∧
      reducedRules events = rules := by
  obtain ⟨st, hst⟩ := state_of_lt hf.pos
  have hstart : upcoming [] ∈ st.items.lookaheads (Item.start augmentedRule) :=
    hf.endOfInput_mem_initial h hst
  have hby : MovesBy a ⟨[initialState], [], w ++ []⟩ (Item.start augmentedRule) 1 rules [] :=
    hf.moves_by havoid h hfirst hclosed hnone hw hst (Item.rest_start h h.rule_zero_mem) hstart
  obtain ⟨events, s, below, stack, st', hmoves, hrules, _, _, _, hst', hcomplete⟩ := hby
  have haccept : a.table.action s none = .accept :=
    hf.action_of_complete h hnone hst' h.rule_zero_mem hcomplete
  rw [List.append_nil] at hmoves
  exact ⟨events, _, hmoves, ⟨s, below, rfl, haccept⟩, hrules⟩

end Faithful

/-- If an automaton has no conflicts, an engine accepts every string that is derived from the start
symbol. -/
theorem derived_accepted {declarations : List Declaration}
    (hg : Grammar.define declarations = .ok g) (havoid : g.AvoidsReserved)
    (ha : (generate mode g).result = .ok a) (hnone : a.conflicts = []) {w : List Nat}
    (hw : g.Derives [.nonterminal g.start] (Grammar.sentence w)) :
    ∃ limit, ∀ more, limit ≤ more → a.accepts? more w = some (.ok true) := by
  have h := Grammar.augmented_of_define hg
  have hfirst := FirstTable.within_ofGrammar g
  have hclosed := closed_of_generate ha
  obtain ⟨_, hf⟩ := faithful_of_generate h ha
  obtain ⟨rules, hby⟩ := (Grammar.yields_of_derives hw).exists_rules
  obtain ⟨events, c, hmoves, haccepting, _⟩ := hf.accepts_by havoid h hfirst hclosed hnone hby
  exact (accepts_iff_acceptsFrom.mpr ⟨events, c, hmoves, haccepting⟩).eventually

/-- Balanced brackets. -/
def brackets : List Declaration :=
  [.terminal "open" none, .terminal "close" none, .nonterminal "balanced",
    .rule 1 [.terminal 1, .nonterminal 1, .terminal 2, .nonterminal 1] none, .rule 1 [] none]

set_option maxRecDepth 100000 in
theorem derived_accepted_brackets :
    ∃ g a, Grammar.define brackets = .ok g ∧ g.AvoidsReserved ∧
      (generate .lalr g).result = .ok a ∧ a.conflicts = [] ∧
      g.Derives [.nonterminal g.start] (Grammar.sentence [1, 2]) ∧
      ∃ limit, ∀ more, limit ≤ more → a.accepts? more [1, 2] = some (.ok true) := by
  have hsome : (ofDeclarations .lalr brackets).any
      (fun built => decide (built.1.AvoidsReserved ∧ built.2.conflicts = [] ∧ built.1.start = 1 ∧
        ⟨1, 1, [.terminal 1, .nonterminal 1, .terminal 2, .nonterminal 1], none, 1⟩ ∈
          built.1.ruleList ∧
        ⟨2, 1, [], none, 2⟩ ∈ built.1.ruleList)) = true := by
    decide +kernel
  obtain ⟨g, a, hg, ha, hp⟩ := exists_of_ofDeclarations hsome
  rw [decide_eq_true_eq] at hp
  obtain ⟨havoid, hnone, hstart, hpair, hempty⟩ := hp
  have hderives : g.Derives [.nonterminal g.start] (Grammar.sentence [1, 2]) := by
    rw [hstart]
    refine .head ⟨_, hpair, [], [], rfl, rfl⟩ ?_
    refine .head ⟨_, hempty, [.terminal 1], [.terminal 2, .nonterminal 1], rfl, rfl⟩ ?_
    exact .single ⟨_, hempty, [.terminal 1, .terminal 2], [], rfl, rfl⟩
  exact ⟨g, a, hg, havoid, ha, hnone, hderives, derived_accepted hg havoid ha hnone hderives⟩

end Automaton
end ParserGen
