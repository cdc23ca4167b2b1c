import ParserGen.Proofs.Language.Completeness

/-!
# Ambiguity

Without conflicts a parser has no choice.  It reduces by the rules of a rightmost derivation of its
input, last rule first, whichever derivation that is, so that there is only one.

Main results:

- Theorem `Automaton.conflicts_of_ambiguous`: the automaton of a grammar in which some string has
  two rightmost derivations has conflicts, however its states are merged.
-/

namespace ParserGen
namespace Automaton

variable {g : Grammar} {first : FirstTable} {mode : MergeMode} {a : Automaton}
  {kernel : Nat → ItemSet}

/-- Without conflicts a string has one rightmost derivation at most. -/
theorem Faithful.eq_of_rightmostDerives (havoid : g.AvoidsReserved) (h : g.Augmented)
    (hfirst : first.Within g) (hclosed : first.Closed g) (hf : a.Faithful g first mode kernel)
    (hnone : a.conflicts = []) {rules rules' w : List Nat}
    (hw : g.RightmostDerives [.nonterminal g.start] rules (Grammar.sentence w))
    (hw' : g.RightmostDerives [.nonterminal g.start] rules' (Grammar.sentence w)) :
    rules = rules' := by
  obtain ⟨events, c, hmoves, haccepting, hrules⟩ :=
    hf.accepts_by havoid h hfirst hclosed hnone hw.yieldsBy
  obtain ⟨events', c', hmoves', haccepting', hrules'⟩ :=
    hf.accepts_by havoid h hfirst hclosed hnone hw'.yieldsBy
  have hevents : events = events' := hmoves.unique_of_accepting hmoves' haccepting haccepting'
  rw [hevents, hrules'] at hrules
  exact (List.reverse_inj.mp hrules).symm

/-- If some string has two rightmost derivations, which are told apart by their rules, the automaton
has conflicts. -/
theorem conflicts_of_ambiguous {declarations : List Declaration}
    (hg : Grammar.define declarations = .ok g) (havoid : g.AvoidsReserved)
    (ha : (generate mode g).result = .ok a) {rules rules' w : List Nat}
    (hw : g.RightmostDerives [.nonterminal g.start] rules (Grammar.sentence w))
    (hw' : g.RightmostDerives [.nonterminal g.start] rules' (Grammar.sentence w))
    (hne : rules ≠ rules') : a.conflicts ≠ [] := by
  intro hnone
  have h := Grammar.augmented_of_define hg
  obtain ⟨_, hf⟩ := faithful_of_generate h ha
  exact hne (hf.eq_of_rightmostDerives havoid h (FirstTable.within_ofGrammar g)
    (closed_of_generate ha) hnone hw hw')

set_option maxRecDepth 100000 in
theorem conflicts_of_ambiguous_sum :
    ∃ g a, Grammar.define ambiguousSum = .ok g ∧ g.AvoidsReserved ∧
      (generate .lalr g).result = .ok a ∧
      g.RightmostDerives [.nonterminal g.start] [1, 1, 2, 2, 2]
        (Grammar.sentence [2, 1, 2, 1, 2]) ∧
      g.RightmostDerives [.nonterminal g.start] [1, 2, 1, 2, 2]
        (Grammar.sentence [2, 1, 2, 1, 2]) ∧
      [1, 1, 2, 2, 2] ≠ [1, 2, 1, 2, 2] ∧ a.conflicts ≠ [] := by
  have hsome : (ofDeclarations .lalr ambiguousSum).any
      (fun built => decide (built.1.AvoidsReserved ∧ built.1.start = 1 ∧
        ⟨1, 1, [.nonterminal 1, .terminal 1, .nonterminal 1], none, 1⟩ ∈ built.1.ruleList ∧
        ⟨2, 1, [.terminal 2], none, 2⟩ ∈ built.1.ruleList)) = true := by
    decide +kernel
  obtain ⟨g, a, hg, ha, hp⟩ := exists_of_ofDeclarations hsome
  rw [decide_eq_true_eq] at hp
  obtain ⟨havoid, hstart, hsum, hnumber⟩ := hp
  have hright : g.RightmostDerives [.nonterminal g.start] [1, 1, 2, 2, 2]
      (Grammar.sentence [2, 1, 2, 1, 2]) := by
    rw [hstart]
    refine @Grammar.RightmostDerives.step g _ [] _ [] _ hsum ?_
    refine @Grammar.RightmostDerives.step g _ [.nonterminal 1, .terminal 1] _ [] _ hsum ?_
    refine @Grammar.RightmostDerives.step g _
      [.nonterminal 1, .terminal 1, .nonterminal 1, .terminal 1] _ [] _ hnumber ?_
    refine @Grammar.RightmostDerives.step g _ [.nonterminal 1, .terminal 1] _ [1, 2] _ hnumber ?_
    exact @Grammar.RightmostDerives.step g _ [] _ [1, 2, 1, 2] _ hnumber (.refl _)
  have hleft : g.RightmostDerives [.nonterminal g.start] [1, 2, 1, 2, 2]
      (Grammar.sentence [2, 1, 2, 1, 2]) := by
    rw [hstart]
    refine @Grammar.RightmostDerives.step g _ [] _ [] _ hsum ?_
    refine @Grammar.RightmostDerives.step g _ [.nonterminal 1, .terminal 1] _ [] _ hnumber ?_
    refine @Grammar.RightmostDerives.step g _ [] _ [1, 2] _ hsum ?_
    refine @Grammar.RightmostDerives.step g _ [.nonterminal 1, .terminal 1] _ [1, 2] _ hnumber ?_
    exact @Grammar.RightmostDerives.step g _ [] _ [1, 2, 1, 2] _ hnumber (.refl _)
  have hne : [1, 1, 2, 2, 2] ≠ [1, 2, 1, 2, 2] := by decide
  exact ⟨g, a, hg, havoid, ha, hright, hleft, hne,
    conflicts_of_ambiguous hg havoid ha hright hleft hne⟩

end Automaton
end ParserGen
