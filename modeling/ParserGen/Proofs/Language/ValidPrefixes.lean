import ParserGen.Proofs.Automaton.Simulation
import ParserGen.Proofs.Automaton.ValidItems
import ParserGen.Proofs.Engine.Moves
import ParserGen.Proofs.Grammar.Productivity
import ParserGen.Proofs.Language.Soundness

/-!
# Only valid prefixes are shifted

Merged states have lookaheads that are not valid after what has been read, and conflicts are settled
in favour of one action, so a parser may make reductions that lead nowhere.  It does not shift a
token that leads nowhere: the symbols on the stack yield the tokens that have been shifted, the
items of the state on top are valid for these symbols apart from their lookaheads, and a token is
only shifted past a marker.

Main results:

- Theorem `Grammar.Valid.exists_yields`: what is yielded by symbols that an item is valid for is
  the beginning of a sentence.
- Theorem `Automaton.Faithful.yields_of_moves`: the symbols on the stack yield what has been
  shifted.
- Theorem `Automaton.exists_sentence_of_shifting`: the valid prefix property.
-/

namespace ParserGen

open ItemSet

namespace Grammar

variable {g : Grammar} {γ : List Symbol} {i : Item} {t : Nat}

/-- If the augmented start symbol is in no declared production, it yields what the start symbol
yields. -/
theorem AvoidsReserved.yields_start (havoid : g.AvoidsReserved) (h : g.Augmented) {w : List Nat}
    (hw : g.Yields [.nonterminal augmentedStart] w) : g.Yields [.nonterminal g.start] w := by
  generalize hx : [Symbol.nonterminal augmentedStart] = x at hw
  cases hw with
  | nil => cases hx
  | terminal _ => cases hx
  | @nonterminal r x u v hr hright hrest =>
    obtain ⟨hleft, rfl⟩ := List.cons.inj hx
    have hid : r.id = augmentedRule := by
      by_contra hne
      exact (havoid r hr hne).1 (Symbol.nonterminal.inj hleft).symm
    rw [h.eq_of_id_eq hr h.rule_zero_mem hid] at hright
    cases hrest
    rwa [List.append_nil]

/-- If some item is valid for a string of symbols, what the string yields can be completed to a
sentence. -/
theorem Valid.exists_yields (hproductive : g.Productive)
    (hknown : ∀ r ∈ g.ruleList, r.right.all g.knows = true) (hvalid : g.Valid γ i t)
    {u : List Nat} (hu : g.Yields γ u) :
    ∃ rest, g.Yields [.nonterminal augmentedStart] (u ++ rest) := by
  obtain ⟨r, hr, α, β, δ, z, rules, hright, _, rfl, _, hderives⟩ := hvalid
  have hβ : β.all g.knows = true := by
    have hall := hknown r hr
    rw [hright, List.all_append, Bool.and_eq_true] at hall
    exact hall.2
  obtain ⟨v, hv⟩ := hproductive.exists_yields hβ
  have hproduces : g.Produces (δ ++ .nonterminal r.left :: sentence z)
      (δ ++ α ++ (β ++ sentence z)) :=
    ⟨r, hr, δ, sentence z, rfl, by rw [hright]; simp only [List.append_assoc]⟩
  have hyields := hu.append (hv.append (yields_sentence g z))
  exact ⟨v ++ z, .of_derives hderives.derives (.of_produces hproduces hyields)⟩

end Grammar

namespace Automaton

variable {g : Grammar} {first : FirstTable} {mode : MergeMode} {a : Automaton}
  {kernel : Nat → ItemSet} {c : Configuration Nat Nat Nat}

namespace Faithful

/-- The symbols on the stack, from the bottom, yield the tokens that have been shifted. -/
theorem yields_of_moves (h : g.Augmented) (hfirst : first.Within g)
    (hf : a.Faithful g first mode kernel) {w : List Nat}
    {events : List (ParseEvent Nat Nat Nat Nat)}
    (hmoves : Moves a.table (startConfiguration w) events c) :
    g.Yields (c.stack.map StackSymbol.toSymbol).reverse (shiftedTokens events) := by
  have hform := hf.form_of_moves h hfirst (c := startConfiguration w) .start hmoves (.refl _)
  have hyields := Grammar.Yields.of_derives hform.derives (Grammar.yields_sentence g w)
  obtain ⟨u, v, hw, hstack, hinput⟩ := hyields.exists_of_append
  obtain ⟨_, hinput⟩ := hinput.exists_rules
  obtain ⟨_, rfl⟩ := hinput.eq_of_sentence
  have hshifted : shiftedTokens events ++ c.input = w := shiftedTokens_of_moves hmoves
  rwa [List.append_cancel_right (hshifted.trans hw)]

/-- If a machine that follows the automaton can shift a token, some item is valid for the symbols on
its stack with the token after them. -/
theorem exists_valid_of_shift (h : g.Augmented) (hfirst : first.Within g)
    (hproductive : g.Productive) (hknown : ∀ r ∈ g.ruleList, r.right.all g.knows = true)
    (hf : a.Faithful g first mode kernel) {s : Nat} {states : List Nat}
    {stack : List (StackSymbol Nat Nat)} (hpath : a.Path (s :: states) stack) {t next : Nat}
    (haction : a.table.action s (some t) = .shift next) :
    ∃ i b, g.Valid ((stack.map StackSymbol.toSymbol).reverse ++ [.terminal t]) i b := by
  obtain ⟨st, hst⟩ := hf.state_of_path hpath
  obtain ⟨i, hi, hnext⟩ :=
    (hf.exists_target_iff hst).mp ⟨next, hf.shift_spec h hfirst hst haction⟩
  have hread : a.read? (stack.map StackSymbol.toSymbol).reverse = some s := by
    rw [read?_eq_some_iff]
    refine ⟨states, ?_⟩
    simpa [Function.comp_def] using hpath
  obtain ⟨b, hvalid⟩ := hf.exists_valid_of_items h hfirst hproductive hknown hread hst hi
  exact ⟨i.advance, b, hvalid.advance h hnext⟩

end Faithful

/-- Let every nonterminal of a defined grammar derive a terminal string, and let its productions
avoid the reserved symbols.  In every mode, whatever the conflicts and how they are settled, and
whatever the input, the tokens that a run has shifted and the one that it announces to be shifted
begin the input, and they begin a sentence. -/
theorem exists_sentence_of_shifting {declarations : List Declaration}
    (hg : Grammar.define declarations = .ok g) (havoid : g.AvoidsReserved)
    (hproductive : g.Productive) (hrun : (generate mode g).result = .ok a) {limit : Nat}
    {w : List Nat} {before after : List (ParseEvent Nat Nat Nat Nat)} {t : Nat}
    (hmoves : (a.run limit w).moves = before ++ .shifting t :: after) :
    shiftedTokens before ++ [t] <+: w ∧
      ∃ rest, g.Derives [.nonterminal g.start]
        (Grammar.sentence (shiftedTokens before ++ [t] ++ rest)) := by
  have h := Grammar.augmented_of_define hg
  have hfirst := FirstTable.within_ofGrammar g
  have hknown : ∀ r ∈ g.ruleList, r.right.all g.knows = true := fun r hr =>
    (Bool.and_eq_true_iff.mp (knowsRule_of_generate hrun hr)).2
  obtain ⟨_, hf⟩ := faithful_of_generate h hrun
  obtain ⟨m, next, hbefore, hturn⟩ := Run.exists_moves_of_announced hmoves
  obtain ⟨rest, target, hinput, haction⟩ := StackMachine.shift_of_announce hturn
  obtain ⟨states, hstates⟩ := m.exists_states_eq
  have hpath : a.Path m.states (m.stack.map (·.1)) :=
    hf.path_of_moves h hfirst (c := startConfiguration w) .start hbefore
  rw [hstates] at hpath
  obtain ⟨i, b, hvalid⟩ :=
    hf.exists_valid_of_shift h hfirst hproductive hknown hpath haction
  have hyields := (hf.yields_of_moves h hfirst hbefore).append (Grammar.yields_sentence g [t])
  constructor
  · have hshifted : shiftedTokens before ++ m.input = w := shiftedTokens_of_moves hbefore
    rw [← hshifted, hinput]
    exact ⟨rest, by simp⟩
  · obtain ⟨v, hsentence⟩ := hvalid.exists_yields hproductive hknown hyields
    exact ⟨v, (havoid.yields_start h hsentence).derives⟩

set_option maxRecDepth 100000 in
/-- On three stops the merged automaton makes a reduction after the second one that cannot be
continued, and then finds the error without a shift. -/
theorem exists_sentence_of_shifting_twoRuns :
    ∃ g a, Grammar.define twoRuns = .ok g ∧ g.AvoidsReserved ∧ g.Productive ∧
      (generate .pgm g).result = .ok a ∧
      (a.run 100 [2, 2, 2]).moves = [.shifting 2, .reducing 3 [.token 2]] ++
        .shifting 2 :: [.reducing 3 [.token 2], .failing 5 (some 2)] ∧
      shiftedTokens [.shifting 2, .reducing 3 [.token 2]] ++ [2] <+: [2, 2, 2] ∧
      ∃ rest, g.Derives [.nonterminal g.start]
        (Grammar.sentence
          (shiftedTokens [.shifting 2, .reducing 3 [.token 2]] ++ [2] ++ rest)) := by
  have hsome : (ofDeclarations .pgm twoRuns).any
      (fun built => decide (built.1.AvoidsReserved ∧ built.1.unproductive = [] ∧
        (built.2.run 100 [2, 2, 2]).moves = [.shifting 2, .reducing 3 [.token 2]] ++
          .shifting 2 :: [.reducing 3 [.token 2], .failing 5 (some 2)])) = true := by
    decide +kernel
  obtain ⟨g, a, hg, hrun, hp⟩ := exists_of_ofDeclarations hsome
  obtain ⟨havoid, hunproductive, hmoves⟩ := of_decide_eq_true hp
  have hproductive := Grammar.productive_of_unproductive_eq_nil hunproductive
  exact ⟨g, a, hg, havoid, hproductive, hrun, hmoves,
    exists_sentence_of_shifting hg havoid hproductive hrun hmoves⟩

end Automaton
end ParserGen
