import ParserGen.Proofs.Automaton.Candidates
import ParserGen.Proofs.Automaton.Size

/-!
# The accepting entry

The initial state begins the augmented rule, so that its edge on the start symbol leads to a state
in which the rule is complete, at the end of input.  As long as no production uses the reserved
symbols, the end of input is not shifted, and of all reductions that compete on it the augmented
rule is the earliest.  So the state accepts, whatever else can be reduced there, and no other state
does on any terminal.

Main results:

- Theorem `Automaton.Faithful.ne_initialState_of_edge`: no edge leads back to the initial state.
- Theorem `Automaton.Faithful.exists_accepting`: the state that accepts.
- Theorem `Automaton.accepts_in_one_entry`: it is the only one, and accepts the end of input only.
-/

namespace ParserGen

open ItemSet

namespace Automaton

variable {g : Grammar} {first : FirstTable} {mode : MergeMode} {a : Automaton}
  {kernel : Nat → ItemSet} {s t : Nat} {st : State}

/-- The entry of a state for a terminal says that the input is accepted. -/
def AcceptsOn (a : Automaton) (s t : Nat) : Prop :=
  ∃ st, a.state? s = some st ∧ st.action? t = some .accept

namespace Faithful

/-- In all states that edges lead to the markers have moved, so none of them is the initial one. -/
theorem ne_initialState_of_edge (hf : a.Faithful g first mode kernel)
    (hst : a.state? s = some st) {x : Symbol} (hedge : (x, t) ∈ st.transitions) :
    t ≠ initialState := by
  rintro rfl
  have hstart := hf.initial.extends_.mem_iff.mpr (mem_initialKernel.mpr rfl)
  rw [(hf.targets hst hedge).2.extends_.mem_iff] at hstart
  obtain ⟨i, _, _, hadvance⟩ := mem_advanceOver.mp hstart
  exact i.advance_ne_start _ hadvance.symm

/-- The end of input is not shifted if no production uses it. -/
theorem not_candidate_shift_endOfInput (havoid : g.AvoidsReserved) (h : g.Augmented)
    (hf : a.Faithful g first mode kernel) (hst : a.state? s = some st) (next : Nat) :
    ¬ Candidate g st endOfInput (.shift next) := by
  intro hshift
  obtain ⟨i, _, hnext⟩ := (hf.exists_target_iff hst).mp ⟨next, candidate_shift_iff.mp hshift⟩
  obtain ⟨rest, hrest⟩ := Item.next?_eq_some_iff.mp hnext
  exact havoid.ne_endOfInput h (hrest ▸ List.mem_cons_self) rfl

/-- Where the augmented rule can be reduced by at the end of input, the input is accepted, whatever
else can be done there: no rule is declared earlier. -/
theorem accepts_of_mem_reductionsOn (havoid : g.AvoidsReserved) (h : g.Augmented)
    (hf : a.Faithful g first mode kernel) (hst : a.state? s = some st)
    (hmem : augmentedRule ∈ reductionsOn g st.items endOfInput) : a.AcceptsOn s endOfInput := by
  have hchosen : Chosen g st endOfInput (reduceOrAccept augmentedRule) :=
    .earliest (hf.not_candidate_shift_endOfInput havoid h hst) (candidate_reduce_iff.mpr hmem)
      fun r _ => Nat.zero_le r
  exact ⟨st, hst, (hf.action?_eq_some_iff h.inOrder hst).mpr hchosen⟩

/-- A state accepts only if the augmented rule can be reduced by. -/
theorem mem_reductionsOn_of_accepts (h : g.Augmented) (hf : a.Faithful g first mode kernel)
    (hst : a.state? s = some st) (haccept : st.action? t = some .accept) :
    augmentedRule ∈ reductionsOn g st.items t := by
  have hchoice := ((hf.action?_eq_some_iff h.inOrder hst).mp haccept).eq_choice h.inOrder
  rcases resolve_cases g t (st.target? (.terminal t)) (reductionsOn g st.items t) with
    ⟨next, _, hshift⟩ | ⟨r, hr, hreduce⟩ | hfail
  · rw [State.choice, hshift] at hchoice
    cases hchoice
  · rw [State.choice, hreduce] at hchoice
    have hrule : r = augmentedRule := reduceOrAccept_inj.mp hchoice
    rwa [hrule] at hr
  · rw [State.choice, hfail] at hchoice
    cases hchoice

/-- The edge of the initial state on the start symbol leads to a state that accepts the end of
input. -/
theorem exists_accepting (havoid : g.AvoidsReserved) (h : g.Augmented)
    (hf : a.Faithful g first mode kernel) :
    ∃ st s, a.state? initialState = some st ∧ st.target? (.nonterminal g.start) = some s ∧
      a.AcceptsOn s endOfInput := by
  obtain ⟨st, hst⟩ := state_of_lt hf.pos
  have hlookahead := hf.endOfInput_mem_initial h hst
  have hnext : (Item.start augmentedRule).next? g = some (.nonterminal g.start) :=
    Item.next?_eq_some_iff.mpr ⟨[], Item.rest_start h h.rule_zero_mem⟩
  obtain ⟨s, hs⟩ := (hf.exists_target_iff hst).mpr ⟨_, mem_of_mem_lookaheads hlookahead, hnext⟩
  obtain ⟨st', hst'⟩ := (hf.target_state hst hs).1
  have hmoved := hf.advance_lookaheads h hst hs hst' hnext hlookahead
  have hcomplete : (Item.start augmentedRule).advance.isComplete g = true :=
    (Item.isComplete_of_rule_eq h h.rule_zero_mem rfl).mpr (Nat.le_refl 1)
  have hmem : augmentedRule ∈ reductionsOn g st'.items endOfInput :=
    mem_reductionsOn.mpr ⟨_, mem_of_mem_lookaheads hmoved, hcomplete, hmoved, rfl⟩
  exact ⟨st, s, hst, hs, hf.accepts_of_mem_reductionsOn havoid h hst' hmem⟩

/-- A state that can be reached accepts nothing but the end of input, and only if the start symbol
alone has been read. -/
theorem eq_of_acceptsOn (havoid : g.AvoidsReserved) (h : g.Augmented) (hfirst : first.Within g)
    (hf : a.Faithful g first mode kernel) {γ : List Symbol} (hread : a.read? γ = some s)
    (haccepts : a.AcceptsOn s t) : γ = [.nonterminal g.start] ∧ t = endOfInput := by
  obtain ⟨st, hst, haccept⟩ := haccepts
  obtain ⟨states, hpath⟩ := read?_eq_some_iff.mp hread
  obtain ⟨hstack, ht⟩ := hf.path_of_accept havoid h hfirst hpath hst
    (hf.mem_reductionsOn_of_accepts h hst haccept)
  obtain ⟨x, hx, hsymbol⟩ := List.map_eq_singleton_iff.mp hstack
  have hstart : x = .nonterminal g.start := by
    rw [← x.toSymbol_toStack, hsymbol]
    rfl
  exact ⟨hstart ▸ List.reverse_eq_iff.mp hx, ht⟩

end Faithful

/-- If no production uses the reserved symbols, there is one accepting entry in the whole action
table, whatever the mode and the conflicts: that of the end of input in the state that the initial
one leads to on the start symbol.  No edge leads back to the initial state. -/
theorem accepts_in_one_entry {declarations : List Declaration}
    (hg : Grammar.define declarations = .ok g) (havoid : g.AvoidsReserved)
    (hrun : (generate mode g).result = .ok a) :
    (∃! entry : Nat × Nat, a.AcceptsOn entry.1 entry.2) ∧
      (∀ s t, a.AcceptsOn s t → t = endOfInput ∧
        ∃ st, a.state? initialState = some st ∧ st.goto? g.start = some s) ∧
      ∀ s st x t, a.state? s = some st → (x, t) ∈ st.transitions → t ≠ initialState := by
  have h := Grammar.augmented_of_define hg
  have hfirst := FirstTable.within_ofGrammar g
  obtain ⟨kernel, hf⟩ := faithful_of_generate h hrun
  obtain ⟨st, final, hst, htarget, haccepts⟩ := hf.exists_accepting havoid h
  have hread : a.read? [.nonterminal g.start] = some final :=
    read?_concat_eq_some_iff.mpr ⟨initialState, st, read?_nil, hst, htarget⟩
  have honly : ∀ s t, a.AcceptsOn s t → s = final ∧ t = endOfInput := by
    intro s t hother
    obtain ⟨st', hst', _⟩ := id hother
    obtain ⟨γ, hγ⟩ := exists_read_of_lt h hrun (Array.getElem?_eq_some_iff.mp hst').1
    obtain ⟨rfl, rfl⟩ := hf.eq_of_acceptsOn havoid h hfirst hγ hother
    exact ⟨Option.some.inj (hγ.symm.trans hread), rfl⟩
  refine ⟨⟨(final, endOfInput), haccepts, fun entry hentry => ?_⟩, fun s t hother => ?_, ?_⟩
  · obtain ⟨hs, ht⟩ := honly _ _ hentry
    exact Prod.ext hs ht
  · obtain ⟨rfl, rfl⟩ := honly s t hother
    exact ⟨rfl, st, hst, (State.goto?_eq_target? (hf.gotos hst) g.start).trans htarget⟩
  · exact fun s st x t hst hedge => hf.ne_initialState_of_edge hst hedge

/-- A start symbol that derives itself, so that at the end of input another reduction competes with
that by the augmented rule. -/
def cyclicStart : List Declaration :=
  [.terminal "number" none, .nonterminal "sum", .rule 1 [.nonterminal 1] none,
    .rule 1 [.terminal 1] none]

set_option maxRecDepth 100000 in
/-- The one accepting entry is there even if the start symbol derives itself. -/
theorem accepts_in_one_entry_cyclicStart :
    ∃ g a, Grammar.define cyclicStart = .ok g ∧ g.AvoidsReserved ∧
      (generate .lalr g).result = .ok a ∧ a.conflicts ≠ [] ∧
      (∃! entry : Nat × Nat, a.AcceptsOn entry.1 entry.2) ∧
      (∀ s t, a.AcceptsOn s t → t = endOfInput ∧
        ∃ st, a.state? initialState = some st ∧ st.goto? g.start = some s) ∧
      ∀ s st x t, a.state? s = some st → (x, t) ∈ st.transitions → t ≠ initialState := by
  have hsome : (ofDeclarations .lalr cyclicStart).any
      (fun built => decide (built.1.AvoidsReserved ∧ built.2.conflicts ≠ [])) = true := by
    decide +kernel
  obtain ⟨g, a, hg, hrun, hp⟩ := exists_of_ofDeclarations hsome
  obtain ⟨havoid, hconflicts⟩ := of_decide_eq_true hp
  exact ⟨g, a, hg, havoid, hrun, hconflicts, accepts_in_one_entry hg havoid hrun⟩

end Automaton
end ParserGen
