import Mathlib.Data.List.Nodup
import Mathlib.Data.List.Perm.Subperm
import ParserGen.Automaton.Buildable
import ParserGen.Automaton.Item
import ParserGen.Proofs.Grammar.Listing
import ParserGen.Proofs.Operators.PrecedenceParser

/-!
# Operator grammars

The grammar of the expressions over a table of operators has one nonterminal, one rule for operands
and one rule for each operator.  No two of its rules have the same right-hand side, so that an item
can be named by a right-hand side and a place in it.

Main results:

- Theorem `Grammar.OperatorGrammar.rule_cases`: the rules are those.
- Theorem `Grammar.OperatorGrammar.length_operators_le`: there are no more operators than numbers
  for terminals.
- Theorem `Grammar.OperatorGrammar.checkBuildable`: the grammar passes the check.
-/

namespace ParserGen
namespace Grammar

/-- The right-hand side of the rule of an operator. -/
def binary (g : Grammar) (o : Nat) : List Symbol :=
  [.nonterminal g.start, .terminal o, .nonterminal g.start]

/-- A grammar of expressions: the rules, in any order, are the augmented rule, the rule for operands
and the rules of the operators, none of which has a precedence of its own; the operators are all
different and have the precedences of the table. -/
structure OperatorGrammar (g : Grammar) (x : OperatorTable) : Prop where
  operand : x.operand ∈ g.alphabet
  nodup : (x.operand :: x.operators).Nodup
  precedence : ∀ o ∈ x.operators, g.precedenceOf o = some (x.precedence o)
  rules : (g.ruleList.map Rule.declared).Perm
    ((augmentedStart, [.nonterminal g.start], none) ::
      (g.start, [.terminal x.operand], none) ::
      x.operators.map fun o => (g.start, g.binary o, none))

instance (g : Grammar) (x : OperatorTable) : Decidable (g.OperatorGrammar x) :=
  decidable_of_iff (x.operand ∈ g.alphabet ∧ (x.operand :: x.operators).Nodup ∧
      (∀ o ∈ x.operators, g.precedenceOf o = some (x.precedence o)) ∧
      (g.ruleList.map Rule.declared).Perm
        ((augmentedStart, [.nonterminal g.start], none) ::
          (g.start, [.terminal x.operand], none) ::
          x.operators.map fun o => (g.start, g.binary o, none)))
    ⟨fun h => ⟨h.1, h.2.1, h.2.2.1, h.2.2.2⟩,
      fun h => ⟨h.operand, h.nodup, h.precedence, h.rules⟩⟩

/-- The number of the first rule that has a right-hand side. -/
def numberOf (g : Grammar) (right : List Symbol) : Nat :=
  ((g.ruleList.find? fun r => r.right == right).map (·.id)).getD augmentedRule

/-- The rule that has the given sides and no precedence. -/
def ruleFor (g : Grammar) (left : Nat) (right : List Symbol) : Rule :=
  .numbered (g.numberOf right) (left, right, none)

@[simp]
theorem ruleFor_id (g : Grammar) (left : Nat) (right : List Symbol) :
    (g.ruleFor left right).id = g.numberOf right := rfl

@[simp]
theorem ruleFor_left (g : Grammar) (left : Nat) (right : List Symbol) :
    (g.ruleFor left right).left = left := rfl

@[simp]
theorem ruleFor_right (g : Grammar) (left : Nat) (right : List Symbol) :
    (g.ruleFor left right).right = right := rfl

/-- The item of the first rule with a right-hand side. -/
def item (g : Grammar) (right : List Symbol) (marker : Nat) : Item := ⟨g.numberOf right, marker⟩

namespace OperatorGrammar

variable {g : Grammar} {x : OperatorTable} {r r' : Rule} {o : Nat}

/-! ## Rules -/

/-- The operand is not the end of input. -/
theorem operand_ne (h : g.OperatorGrammar x) : x.operand ≠ endOfInput := by
  simpa using (List.mem_filter.mp h.operand).2

/-- The operand is no operator. -/
theorem operand_not_mem (h : g.OperatorGrammar x) : x.operand ∉ x.operators :=
  (List.nodup_cons.mp h.nodup).1

/-- No two rules have the same right-hand side. -/
theorem nodup_right (h : g.OperatorGrammar x) : (g.ruleList.map (·.right)).Nodup := by
  have hright : g.ruleList.map (·.right) = (g.ruleList.map Rule.declared).map (·.2.1) := by
    rw [List.map_map]
    rfl
  rw [hright, (h.rules.map (·.2.1)).nodup_iff]
  have hoperators := (List.nodup_cons.mp h.nodup).2
  have hbinary : (x.operators.map fun o =>
      [Symbol.nonterminal g.start, .terminal o, .nonterminal g.start]).Nodup := by
    refine hoperators.map fun o p hop => ?_
    simpa using hop
  simpa [binary, List.map_map, Function.comp_def] using hbinary

/-- No two rules have the same right-hand side. -/
theorem eq_of_right_eq (h : g.OperatorGrammar x) (hr : r ∈ g.ruleList) (hr' : r' ∈ g.ruleList)
    (hright : r.right = r'.right) : r = r' :=
  List.inj_on_of_nodup_map h.nodup_right hr hr' hright

/-- A rule is found by its right-hand side. -/
theorem numberOf_right (h : g.OperatorGrammar x) (hr : r ∈ g.ruleList) :
    g.numberOf r.right = r.id := by
  rw [numberOf]
  cases hfind : g.ruleList.find? fun r' => r'.right == r.right with
  | none =>
    have hne := List.find?_eq_none.mp hfind r hr
    simp at hne
  | some r' =>
    have hfound := List.find?_some hfind
    have hright : r'.right = r.right := by simpa using hfound
    rw [h.eq_of_right_eq (List.mem_of_find?_eq_some hfind) hr hright]
    rfl

/-- A rule is given by its sides and its precedence, as no other has its right-hand side. -/
theorem eq_numbered_numberOf (h : g.OperatorGrammar x) (haug : g.Augmented) (hr : r ∈ g.ruleList)
    (sides : Nat × List Symbol × Option Precedence) (hsides : r.declared = sides) :
    r = .numbered (g.numberOf sides.2.1) sides := by
  subst hsides
  rw [show r.declared.2.1 = r.right from rfl, h.numberOf_right hr]
  exact haug.eq_numbered (haug.mem_ruleList.mp hr)

/-- The rules are the augmented rule, that for operands and those of the operators. -/
theorem rule_cases (h : g.OperatorGrammar x) (haug : g.Augmented) (hr : r ∈ g.ruleList) :
    r = g.ruleFor augmentedStart [.nonterminal g.start] ∨
      r = g.ruleFor g.start [.terminal x.operand] ∨
        ∃ o ∈ x.operators, r = g.ruleFor g.start (g.binary o) := by
  have hmem := h.rules.mem_iff.mp (List.mem_map.mpr ⟨r, hr, rfl⟩)
  have hrule := h.eq_numbered_numberOf haug hr
  rw [List.mem_cons, List.mem_cons, List.mem_map] at hmem
  rcases hmem with hdeclared | hdeclared | ⟨o, ho, hdeclared⟩
  · exact Or.inl (hrule _ hdeclared)
  · exact Or.inr (Or.inl (hrule _ hdeclared))
  · exact Or.inr (Or.inr ⟨o, ho, hrule _ hdeclared.symm⟩)

/-- What has been declared is a rule, under the number of its right-hand side. -/
theorem rule_of_declared (h : g.OperatorGrammar x) (haug : g.Augmented) {left : Nat}
    {right : List Symbol} (hmem : (left, right, none) ∈ g.ruleList.map Rule.declared) :
    g.ruleFor left right ∈ g.ruleList := by
  obtain ⟨r, hr, hdeclared⟩ := List.mem_map.mp hmem
  rw [ruleFor, ← h.eq_numbered_numberOf haug hr _ hdeclared]
  exact hr

/-- There is a rule for the operand. -/
theorem operand_rule (h : g.OperatorGrammar x) (haug : g.Augmented) :
    g.ruleFor g.start [.terminal x.operand] ∈ g.ruleList :=
  h.rule_of_declared haug (h.rules.mem_iff.mpr (by simp))

/-- There is a rule for each operator. -/
theorem operator_rule (h : g.OperatorGrammar x) (haug : g.Augmented) (ho : o ∈ x.operators) :
    g.ruleFor g.start (g.binary o) ∈ g.ruleList :=
  h.rule_of_declared haug (h.rules.mem_iff.mpr
    (List.mem_cons_of_mem _ (List.mem_cons_of_mem _ (List.mem_map.mpr ⟨o, ho, rfl⟩))))

/-- The augmented rule is the one that leads to an expression. -/
theorem numberOf_start (h : g.OperatorGrammar x) (haug : g.Augmented) :
    g.numberOf [.nonterminal g.start] = augmentedRule :=
  h.numberOf_right haug.rule_zero_mem

/-- The rules of expressions are those for operands and operators. -/
theorem left_eq_start_iff (h : g.OperatorGrammar x) (haug : g.Augmented) (hr : r ∈ g.ruleList) :
    r.left = g.start ↔
      r.right = [.terminal x.operand] ∨ ∃ o ∈ x.operators, r.right = g.binary o := by
  rcases h.rule_cases haug hr with rfl | rfl | ⟨o, ho, rfl⟩
  · simp [binary, haug.start_ne.symm]
  · simp
  · exact iff_of_true rfl (Or.inr ⟨o, ho, rfl⟩)

/-! ## Precedences -/

/-- The precedence of the rule of an operator is that of the operator. -/
theorem precedence_rule (h : g.OperatorGrammar x) (haug : g.Augmented) (ho : o ∈ x.operators) :
    (g.rules[g.numberOf (g.binary o)]?.bind fun r => r.precedence g) = some (x.precedence o) := by
  have hrow : g.rules[g.numberOf (g.binary o)]? = some (g.ruleFor g.start (g.binary o)) :=
    haug.mem_ruleList.mp (h.operator_rule haug ho)
  rw [hrow, Option.bind_some]
  exact h.precedence o ho

/-- Every operator is a terminal. -/
theorem terminal_mem (h : g.OperatorGrammar x) (ho : o ∈ x.operators) : o ∈ g.terminals := by
  have hprecedence := h.precedence o ho
  rw [precedenceOf] at hprecedence
  obtain ⟨t, ht, _⟩ := Option.bind_eq_some_iff.mp hprecedence
  exact IndexMap.isSome_getElem?_iff_mem.mp (ht ▸ rfl)

/-! ## Defined grammars -/

section Defined

variable {cs : List Declaration} (hg : define cs = .ok g)
include hg

/-- There are no more operators than numbers for terminals. -/
theorem length_operators_le (h : g.OperatorGrammar x) : x.operators.length ≤ idLimit := by
  have hkeys : x.operators ⊆ g.terminals.keys :=
    fun o ho => IndexMap.mem_keys.mpr (h.terminal_mem ho)
  have hle := (List.subperm_of_subset (List.nodup_cons.mp h.nodup).2 hkeys).length_le
  rw [g.terminals.length_keys] at hle
  exact Nat.le_trans hle (admissible_of_define hg).1

/-- The end of input is no operator: it has no precedence. -/
theorem ne_endOfInput (h : g.OperatorGrammar x) (ho : o ∈ x.operators) : o ≠ endOfInput := by
  rintro rfl
  have hprecedence := h.precedence endOfInput ho
  rw [precedenceOf_endOfInput hg] at hprecedence
  cases hprecedence

/-- An operator grammar passes the check. -/
theorem checkBuildable (h : g.OperatorGrammar x) : g.checkBuildable = .ok () := by
  have haug := augmented_of_define hg
  have hstart : g.nonterminals.contains g.start = true :=
    IndexMap.contains_iff_mem.mpr (admissible_of_define hg).2
  have haugmented : g.nonterminals.contains augmentedStart = true := by
    have hzero := (declares_of_define hg).nonterminals.getElem?_add 0
    rw [Nat.zero_add] at hzero
    rw [IndexMap.contains_eq_isSome_getElem?, augmentedStart, hzero]
    rfl
  have hoperand : g.terminals.contains x.operand = true :=
    IndexMap.contains_iff_mem.mpr (IndexMap.mem_keys.mp (List.mem_filter.mp h.operand).1)
  have hknows : g.ruleList.find? (fun r => !g.knowsRule r) = none := by
    refine List.find?_eq_none.mpr fun r hr => ?_
    rcases h.rule_cases haug hr with rfl | rfl | ⟨o, ho, rfl⟩
    · simp [knowsRule, knows, hstart, haugmented]
    · simp [knowsRule, knows, hstart, hoperand]
    · have hoperator := IndexMap.contains_iff_mem.mpr (h.terminal_mem ho)
      simp [knowsRule, knows, binary, hstart, hoperator]
  have hrule : g.rules.contains augmentedRule = true := by
    rw [IndexMap.contains_eq_isSome_getElem?, haug.rule_zero]
    rfl
  have hrules : g.rulesOf g.start ≠ [] :=
    List.ne_nil_of_mem (List.mem_filter.mpr ⟨h.operand_rule haug, beq_self_eq_true g.start⟩)
  unfold Grammar.checkBuildable
  simp [hknows, hrule, hstart, hrules]

end Defined
end OperatorGrammar
end Grammar
end ParserGen
