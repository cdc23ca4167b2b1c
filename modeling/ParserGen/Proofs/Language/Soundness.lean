import ParserGen.Proofs.Automaton.Paths
import ParserGen.Proofs.Grammar.Derivation
import ParserGen.Proofs.Language.Acceptance

/-!
# Soundness

What is on the stack and the input that is left form a string from which the parser's reductions,
read backwards, derive the input.  An automaton accepts only when the start symbol is all there is.

Main results:

- Theorem `Automaton.Faithful.form_of_move`: a reduction undoes a step of a rightmost derivation.
- Theorem `Automaton.run_sound`: an accepting run has shifted the whole input, and its reductions
  read backwards are a rightmost derivation of it.
-/

namespace ParserGen

open ItemSet

/-- The symbols on the stack, from the bottom, and the input that is left. -/
def Configuration.form (c : Configuration Nat Nat Nat) : List Symbol :=
  (c.stack.map StackSymbol.toSymbol).reverse ++ Grammar.sentence c.input

namespace Automaton

variable {g : Grammar} {first : FirstTable} {mode : MergeMode} {a : Automaton}
  {kernel : Nat → ItemSet} {c c' : Configuration Nat Nat Nat}

/-- Moves take from the input what they shift. -/
theorem shiftedTokens_of_moves {table : ParseTable Nat Nat Nat Nat}
    {events : List (ParseEvent Nat Nat Nat Nat)} (h : Moves table c events c') :
    shiftedTokens events ++ c'.input = c.input := by
  induction h with
  | nil _ => rfl
  | cons hmove _ ih =>
    cases hmove with
    | shift _ => exact congrArg (List.cons _) ih
    | reduce _ _ _ _ => exact ih

namespace Faithful

/-- A shift leaves the form as it is, and a reduction undoes one step of a rightmost derivation. -/
theorem form_of_move (h : g.Augmented) (hfirst : first.Within g)
    (hf : a.Faithful g first mode kernel) {e : ParseEvent Nat Nat Nat Nat}
    (hpath : a.Path c.states c.stack) (hmove : Move a.table c e c') {rules : List Nat}
    {y : List Symbol} (hform : g.RightmostDerives c.form rules y) :
    g.RightmostDerives c'.form ((reducedRules [e]).reverse ++ rules) y := by
  cases hmove with
  | @shift s next states stack t input _ =>
    have hsame : Configuration.form ⟨next :: s :: states, .token t :: stack, input⟩ =
        Configuration.form ⟨s :: states, stack, t :: input⟩ := by
      simp [Configuration.form, StackSymbol.toSymbol]
    rw [hsame]
    exact hform
  | @reduce s below next states rest stack input rule left length haction _ _ _ =>
    obtain ⟨st, hst⟩ := hf.state_of_path hpath
    obtain ⟨r, hr, rfl, rfl, rfl, _, hmem⟩ := hf.reduce_spec h hfirst hst haction
    obtain ⟨r', hr', hid, hitem, _⟩ := complete_item h (hf.fits h hfirst hst) hmem
    have hsame := h.eq_of_id_eq hr' hr hid
    subst hsame
    have hsymbols := (hf.item_on_path h hfirst hr' _ hpath hst hitem).symbols
    simp only [List.take_length] at hsymbols
    have hold : Configuration.form ⟨s :: states, stack, input⟩ =
        ((stack.drop r'.right.length).map StackSymbol.toSymbol).reverse ++ r'.right ++
          Grammar.sentence input := by
      have htop : (stack.map StackSymbol.toSymbol).reverse =
          ((stack.drop r'.right.length).map StackSymbol.toSymbol).reverse ++ r'.right := by
        conv_lhs => rw [← List.take_append_drop r'.right.length stack]
        rw [List.map_append, List.reverse_append, hsymbols, List.reverse_reverse]
      rw [Configuration.form, htop]
    have hnew : Configuration.form
        ⟨next :: below :: rest, .nonterminal r'.left :: stack.drop r'.right.length, input⟩ =
        ((stack.drop r'.right.length).map StackSymbol.toSymbol).reverse ++
          .nonterminal r'.left :: Grammar.sentence input := by
      simp [Configuration.form, StackSymbol.toSymbol]
    rw [hold] at hform
    rw [hnew]
    exact .step hr' hform

/-- The reductions of a sequence of moves, read backwards, are a rightmost derivation. -/
theorem form_of_moves (h : g.Augmented) (hfirst : first.Within g)
    (hf : a.Faithful g first mode kernel) {events : List (ParseEvent Nat Nat Nat Nat)}
    (hpath : a.Path c.states c.stack) (hmoves : Moves a.table c events c') {rules : List Nat}
    {y : List Symbol} (hform : g.RightmostDerives c.form rules y) :
    g.RightmostDerives c'.form ((reducedRules events).reverse ++ rules) y := by
  induction hmoves generalizing rules with
  | nil _ => exact hform
  | @cons c _ _ e events hmove _ ih =>
    have hstep := hf.form_of_move h hfirst hpath hmove hform
    have hrest := ih (hf.path_of_move h hfirst hpath hmove) hstep
    have hreverse : (reducedRules (e :: events)).reverse ++ rules =
        (reducedRules events).reverse ++ ((reducedRules [e]).reverse ++ rules) := by
      rw [← List.append_assoc, ← List.reverse_append, reducedRules, reducedRules, reducedRules,
        ← List.filterMap_append, List.singleton_append]
    rw [hreverse]
    exact hrest

end Faithful

/-- An accepting run has shifted the whole input and has the start symbol on the stack, and the
rules it announced to reduce by are, read backwards, a rightmost derivation of the input. -/
theorem run_sound {declarations : List Declaration} (hg : Grammar.define declarations = .ok g)
    (havoid : g.AvoidsReserved) (ha : (generate mode g).result = .ok a) {w : List Nat}
    (hw : endOfInput ∉ w) {limit : Nat} (haccepted : (a.run limit w).outcome = .accepted) :
    shiftedTokens (a.run limit w).moves = w ∧
      (a.run limit w).engine.symbols = [.nonterminal g.start] ∧
      g.RightmostDerives [.nonterminal g.start] (reducedRules (a.run limit w).moves).reverse
        (Grammar.sentence w) := by
  have h := Grammar.augmented_of_define hg
  have hfirst := FirstTable.within_ofGrammar g
  obtain ⟨_, hf⟩ := faithful_of_generate h ha
  obtain ⟨c, hmoves, ⟨s, states, hstates, haction⟩, hstack⟩ := moves_of_accepted haccepted
  have hpath : a.Path (s :: states) c.stack :=
    hstates ▸ hf.path_of_moves h hfirst (c := startConfiguration w) .start hmoves
  obtain ⟨st, hst⟩ := hf.state_of_path hpath
  obtain ⟨hsymbols, hend⟩ :=
    hf.path_of_accept havoid h hfirst hpath hst (hf.accept_spec h hfirst hst haction)
  have hshifted : shiftedTokens (a.run limit w).moves ++ c.input = w :=
    shiftedTokens_of_moves hmoves
  have hinput : c.input = [] := by
    cases hinput : c.input with
    | nil => rfl
    | cons t rest =>
      rw [hinput] at hend hshifted
      have hmem : t ∈ w := by
        rw [← hshifted]
        exact List.mem_append_right _ List.mem_cons_self
      exact absurd (hend ▸ hmem) hw
  have hderives := hf.form_of_moves h hfirst (c := startConfiguration w) .start hmoves (.refl _)
  refine ⟨?_, ?_, ?_⟩
  · rw [hinput, List.append_nil] at hshifted
    exact hshifted
  · rw [Engine.symbols, hstack, hsymbols]
    rfl
  · rw [List.append_nil, Configuration.form, hsymbols, hinput] at hderives
    exact hderives

set_option maxRecDepth 100000 in
theorem run_sound_ambiguousSum :
    ∃ g a, Grammar.define ambiguousSum = .ok g ∧ g.AvoidsReserved ∧
      (generate .pgm g).result = .ok a ∧ endOfInput ∉ [2, 1, 2, 1, 2] ∧
      (a.run 100 [2, 1, 2, 1, 2]).outcome = .accepted ∧
      shiftedTokens (a.run 100 [2, 1, 2, 1, 2]).moves = [2, 1, 2, 1, 2] ∧
      (a.run 100 [2, 1, 2, 1, 2]).engine.symbols = [.nonterminal g.start] ∧
      g.RightmostDerives [.nonterminal g.start]
        (reducedRules (a.run 100 [2, 1, 2, 1, 2]).moves).reverse
        (Grammar.sentence [2, 1, 2, 1, 2]) := by
  have hsome : (ofDeclarations .pgm ambiguousSum).any
      (fun built => decide built.1.AvoidsReserved &&
        decide ((built.2.run 100 [2, 1, 2, 1, 2]).outcome = .accepted)) = true := by
    decide +kernel
  obtain ⟨g, a, hg, ha, hp⟩ := exists_of_ofDeclarations hsome
  rw [Bool.and_eq_true, decide_eq_true_eq, decide_eq_true_eq] at hp
  obtain ⟨havoid, haccepted⟩ := hp
  have hw : endOfInput ∉ [2, 1, 2, 1, 2] := by decide
  exact ⟨g, a, hg, havoid, ha, hw, haccepted, run_sound hg havoid ha hw haccepted⟩

end Automaton
end ParserGen
