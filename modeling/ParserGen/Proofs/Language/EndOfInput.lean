import ParserGen.Proofs.Automaton.Reading
import ParserGen.Proofs.Engine.Moves
import ParserGen.Proofs.Grammar.Listing
import ParserGen.Proofs.Language.Acceptance

/-!
# Shifting the end of input

The end of input is a terminal like others to those who write rules, and a rule may have it on its
right-hand side.  An automaton is built from the rules that the augmented rule leads to, and if the
end of input stands in one of them, some state shifts it.  A parser that comes to the end of its
input in such a state fails, as there is no token to be shifted.

Main results:

- Theorem `Automaton.Faithful.inUse_of_items`: items belong to rules in use.
- Theorem `Automaton.Faithful.exists_start_of_inUse`: each rule in use is begun in some state.
- Theorem `Automaton.shifts_endOfInput_iff`: when the end of input is shifted, and when parsers fail
  for it.
-/

namespace ParserGen

open ItemSet

namespace Grammar

/-- The augmented rule is in use, and so are the rules of the nonterminals in rules that are. -/
inductive InUse (g : Grammar) : Rule → Prop
  | augmented {r : Rule} : r ∈ g.ruleList → r.id = augmentedRule → InUse g r
  | asked {r r' : Rule} : InUse g r → .nonterminal r'.left ∈ r.right → r' ∈ g.ruleList → InUse g r'

variable {g : Grammar}

theorem InUse.mem {r : Rule} (h : g.InUse r) : r ∈ g.ruleList := by
  cases h with
  | augmented hr _ => exact hr
  | asked _ _ hr => exact hr

end Grammar

variable {g : Grammar} {first : FirstTable} {mode : MergeMode}

/-- The item belongs to a rule in use. -/
def Item.OfRuleInUse (g : Grammar) (i : Item) : Prop := ∃ r, g.InUse r ∧ i.rule = r.id

theorem ItemSet.ClosureItem.ofRuleInUse (h : g.Augmented) {s : ItemSet} {i : Item}
    (hs : ∀ k ∈ s, k.OfRuleInUse g) (hi : ClosureItem g s i) : i.OfRuleInUse g := by
  induction hi with
  | kernel hk => exact hs _ hk
  | @start i r rest _ hrest hr ih =>
    obtain ⟨r', hr', hid⟩ := ih
    rw [Item.rest_of_rule_eq h hr'.mem hid] at hrest
    have hmem : .nonterminal r.left ∈ r'.right :=
      List.mem_of_mem_drop (hrest ▸ List.mem_cons_self)
    exact ⟨r, .asked hr' hmem hr, rfl⟩

/-- The items of kernels belong to rules in use. -/
theorem Arises.ofRuleInUse (h : g.Augmented) (hfirst : first.Within g) {kernel : ItemSet}
    (hk : Arises g first mode kernel) {i : Item} (hi : i ∈ kernel) : i.OfRuleInUse g := by
  induction hk generalizing i with
  | initial =>
    rw [mem_initialKernel.mp hi]
    exact ⟨_, .augmented h.rule_zero_mem rfl, rfl⟩
  | successor _ _ ih =>
    obtain ⟨j, hj, _, rfl⟩ := mem_advanceOver.mp hi
    obtain ⟨r, hr, hid⟩ := ((mem_closure h.keyed hfirst).mp hj).ofRuleInUse h fun _ hk => ih hk
    exact ⟨r, hr, hid⟩
  | merged _ _ _ _ ih ih' =>
    rcases mem_join.mp hi with hi | hi
    · exact ih hi
    · exact ih' hi

/-- As the end of input has no precedence, its shift is not overruled. -/
theorem not_overruled_endOfInput (hnone : g.precedenceOf endOfInput = none) {next : Nat}
    {reduces : List Nat} : ¬ Overruled g endOfInput (some next) reduces := by
  rw [overruled_some_iff]
  rintro ⟨hne, p, _, hp⟩
  obtain ⟨r, hr⟩ := List.exists_mem_of_ne_nil _ hne
  have hpreference := hp r hr
  rw [rulePreference, hnone] at hpreference
  cases hpreference

namespace Automaton

variable {a : Automaton} {kernel : Nat → ItemSet}

namespace Faithful

theorem inUse_of_items (h : g.Augmented) (hfirst : first.Within g)
    (hf : a.Faithful g first mode kernel) {s : Nat} {st : State} (hst : a.states[s]? = some st)
    {i : Item} (hi : i ∈ st.items) : i.OfRuleInUse g := by
  rw [hf.items hst] at hi
  exact ((mem_closure h.keyed hfirst).mp hi).ofRuleInUse h
    fun _ hk => (hf.arises hst).ofRuleInUse h hfirst hk

/-- Where a rule is begun, the symbols of its right-hand side lead to states with its items. -/
theorem exists_item_of_start (h : g.Augmented) (hf : a.Faithful g first mode kernel) {r : Rule}
    (hr : r ∈ g.ruleList) {s : Nat} {st : State} (hst : a.states[s]? = some st)
    (hstart : Item.start r.id ∈ st.items) {x : Symbol} (hx : x ∈ r.right) :
    ∃ (t : Nat) (st' : State) (i : Item) (rest : List Symbol),
      a.states[t]? = some st' ∧ i ∈ st'.items ∧ i.rest g = x :: rest := by
  obtain ⟨α, β, hright⟩ := List.append_of_mem hx
  obtain ⟨t, st', _, hst', hi, _⟩ := hf.lookaheads_of_read h hr (m := 0) hright hst hstart
  rw [Nat.zero_add] at hi
  refine ⟨t, st', _, β, hst', hi, ?_⟩
  rw [Item.rest_of_rule_eq h hr rfl, hright, List.drop_left]

/-- Each rule in use is begun in some state. -/
theorem exists_start_of_inUse (h : g.Augmented) (hfirst : first.Within g)
    (hf : a.Faithful g first mode kernel) {r : Rule} (hr : g.InUse r) :
    ∃ (s : Nat) (st : State), a.states[s]? = some st ∧ Item.start r.id ∈ st.items := by
  induction hr with
  | augmented _ hid =>
    obtain ⟨st, hst⟩ := state_of_lt hf.pos
    exact ⟨_, st, hst, hid ▸ mem_of_mem_lookaheads (hf.endOfInput_mem_initial h hst)⟩
  | asked hasks hmem hr ih =>
    obtain ⟨s, st, hst, hstart⟩ := ih
    obtain ⟨t, st', i, rest, hst', hi, hrest⟩ :=
      hf.exists_item_of_start h hasks.mem hst hstart hmem
    exact ⟨t, st', hst', hf.start_mem h hfirst hst' hi hrest hr⟩

/-- The end of input is shifted where it stands after a marker. -/
theorem shift_endOfInput (h : g.Augmented) (hf : a.Faithful g first mode kernel)
    (hnone : g.precedenceOf endOfInput = none) {s : Nat} {st : State}
    (hst : a.states[s]? = some st) {i : Item} (hi : i ∈ st.items)
    (hnext : i.next? g = some (.terminal endOfInput)) :
    ∃ next, a.table.action s none = .shift next := by
  obtain ⟨next, htarget⟩ := (hf.exists_target_iff hst).mpr ⟨i, hi, hnext⟩
  refine ⟨next, ?_⟩
  rw [hf.action_eq h hst, Option.getD_none, State.choice, htarget,
    resolve_eq_shift_of_not_overruled (not_overruled_endOfInput hnone)]
  rfl

end Faithful

/-- Only states of the automaton shift. -/
theorem exists_state_of_shift {s next : Nat} {lookahead : Option Nat}
    (haction : a.table.action s lookahead = .shift next) : ∃ st, a.states[s]? = some st := by
  cases hst : a.states[s]? with
  | some st => exact ⟨st, rfl⟩
  | none =>
    have hfail : a.table.action s lookahead = .fail := by
      show a.parseAction s lookahead = .fail
      rw [parseAction, state?, hst]
      rfl
    rw [hfail] at haction
    cases haction

/-- A state of the automaton of a defined grammar shifts the end of input if and only if the end of
input stands in a rule that the augmented rule leads to.  Only then parsers can fail for want of a
token to shift, whatever the mode and the input. -/
theorem shifts_endOfInput_iff {declarations : List Declaration}
    (hg : Grammar.define declarations = .ok g) (hrun : (generate mode g).result = .ok a) :
    ((∃ s next, a.table.action s none = .shift next) ↔
        ∃ r, g.InUse r ∧ .terminal endOfInput ∈ r.right) ∧
      ∀ limit w, (a.run limit w).outcome = .error .unexpectedEndOfInput →
        ∃ r, g.InUse r ∧ .terminal endOfInput ∈ r.right := by
  have h := Grammar.augmented_of_define hg
  have hfirst := FirstTable.within_ofGrammar g
  have hnone := Grammar.precedenceOf_endOfInput hg
  obtain ⟨_, hf⟩ := faithful_of_generate h hrun
  have hused : ∀ {s next}, a.table.action s none = .shift next →
      ∃ r, g.InUse r ∧ .terminal endOfInput ∈ r.right := by
    intro s next haction
    obtain ⟨st, hst⟩ := exists_state_of_shift haction
    have htarget := hf.shift_spec h hfirst hst haction
    obtain ⟨i, hi, hnext⟩ := (hf.exists_target_iff hst).mp ⟨next, htarget⟩
    obtain ⟨rest, hrest⟩ := Item.next?_eq_some_iff.mp hnext
    obtain ⟨r, hr, hid⟩ := hf.inUse_of_items h hfirst hst hi
    rw [Item.rest_of_rule_eq h hr.mem hid] at hrest
    exact ⟨r, hr, List.mem_of_mem_drop (hrest ▸ List.mem_cons_self)⟩
  refine ⟨⟨?_, ?_⟩, ?_⟩
  · rintro ⟨s, next, haction⟩
    exact hused haction
  · rintro ⟨r, hr, hmem⟩
    obtain ⟨s, st, hst, hstart⟩ := hf.exists_start_of_inUse h hfirst hr
    obtain ⟨t, st', i, rest, hst', hi, hrest⟩ :=
      hf.exists_item_of_start h hr.mem hst hstart hmem
    exact ⟨t, hf.shift_endOfInput h hnone hst' hi (Item.next?_eq_some_iff.mpr ⟨rest, hrest⟩)⟩
  · intro limit w houtcome
    obtain ⟨_, m, next, _, haction⟩ := Run.exists_moves_of_unexpectedEndOfInput houtcome
    exact hused haction

/-- A token and the end of input, written out in the rule.  There is another rule with the end of
input, which no other rule leads to. -/
def writtenEnd : List Declaration :=
  [.terminal "a" none, .nonterminal "line", .nonterminal "lost",
    .rule 1 [.terminal 1, .terminal 0] none, .rule 2 [.terminal 0] none]

set_option maxRecDepth 100000 in
theorem shifts_endOfInput_iff_writtenEnd :
    ∃ g a, Grammar.define writtenEnd = .ok g ∧ (generate .lalr g).result = .ok a ∧
      (a.run 10 [1]).outcome = .error .unexpectedEndOfInput ∧
      ((∃ s next, a.table.action s none = .shift next) ↔
        ∃ r, g.InUse r ∧ .terminal endOfInput ∈ r.right) ∧
      ∀ limit w, (a.run limit w).outcome = .error .unexpectedEndOfInput →
        ∃ r, g.InUse r ∧ .terminal endOfInput ∈ r.right := by
  have hsome : (ofDeclarations .lalr writtenEnd).any
      (fun built => decide ((built.2.run 10 [1]).outcome = .error .unexpectedEndOfInput)) =
        true := by
    decide +kernel
  obtain ⟨g, a, hg, hrun, hp⟩ := exists_of_ofDeclarations hsome
  exact ⟨g, a, hg, hrun, of_decide_eq_true hp, shifts_endOfInput_iff hg hrun⟩

set_option maxRecDepth 100000 in
/-- The check lets this grammar pass, and a parser of its one token fails, though its states have
not even been merged. -/
theorem run_unexpectedEndOfInput_writtenEnd :
    ∃ g a, Grammar.define writtenEnd = .ok g ∧ g.checkBuildable = .ok () ∧
      (generate .canonical g).result = .ok a ∧ endOfInput ∉ [1] ∧
      (a.run 10 [1]).outcome = .error .unexpectedEndOfInput := by
  have hsome : (ofDeclarations .canonical writtenEnd).any
      (fun built => decide ((built.2.run 10 [1]).outcome = .error .unexpectedEndOfInput)) =
        true := by
    decide +kernel
  obtain ⟨g, a, hg, hrun, hp⟩ := exists_of_ofDeclarations hsome
  exact ⟨g, a, hg, checkBuildable_of_generate hrun, hrun, by decide, of_decide_eq_true hp⟩

end Automaton
end ParserGen
