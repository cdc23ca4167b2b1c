import Mathlib.Combinatorics.Enumerative.DoubleCounting
import ParserGen.Proofs.Automaton.Generation
import ParserGen.Proofs.Operators.Grammar

/-!
# The kernels of an operator grammar

Between the tokens of an expression a parser stands before an expression, after one, or after an
operand; in the first two cases the operator to the left matters, or that there is none.  Each of
these stages has one kernel, in which every item has all the lookaheads that can come after it, so
that in no merge mode there is anything to merge.

Main results:

- Theorem `Grammar.OperatorGrammar.full_of_arises`: the items of a kernel have all lookaheads.
- Theorem `Grammar.OperatorGrammar.exists_stage`: every kernel belongs to a stage.
- Theorem `Grammar.OperatorGrammar.fewArise`: there are fewer kernels than numbers for states.
-/

namespace ParserGen

open ItemSet

/-- Where a parser of expressions stands: before or after an expression, with the operator to the
left of it if there is one; or after an operand. -/
inductive Stage where
  | before (operator : Option Nat)
  | operand
  | after (operator : Option Nat)
deriving DecidableEq, Repr

variable {g : Grammar} {x : OperatorTable} {first : FirstTable} {mode : MergeMode}

namespace OperatorTable

/-! ## Lookaheads -/

/-- What can come after an item: the end of input, and after all rules but the augmented one the
operators. -/
def Follows (x : OperatorTable) (i : Item) (t : Nat) : Prop :=
  t = endOfInput ∨ i.rule ≠ augmentedRule ∧ t ∈ x.operators

/-- Each item has all the lookaheads that can come after it. -/
def Full (x : OperatorTable) (s : ItemSet) : Prop :=
  ∀ i t, t ∈ s.lookaheads i ↔ i ∈ s ∧ x.Follows i t

/-- Item sets that have all lookaheads are equal if they have the same items. -/
theorem Full.eq_of_core_eq {s t : ItemSet} (hs : x.Full s) (ht : x.Full t)
    (hcore : s.core = t.core) : s = t := by
  have hitems := core_eq_iff.mp hcore
  refine ext_lookaheads hitems fun i => ?_
  ext a
  rw [hs, ht, hitems]

theorem full_initialKernel : x.Full StateGraph.initialKernel := by
  intro i t
  rw [mem_lookaheads_initialKernel, mem_initialKernel]
  refine and_congr_right fun hi => ?_
  rw [Follows, hi]
  simp [Item.start]

theorem Full.join {s t : ItemSet} (hs : x.Full s) (ht : x.Full t) : x.Full (s.join t) := by
  intro i a
  rw [lookaheads_join, IdSet.mem_union, mem_join, hs, ht, or_and_right]

theorem Full.advanceOver {s : ItemSet} (hs : x.Full s) (y : Symbol) :
    x.Full (s.advanceOver g y) := by
  intro j t
  rw [mem_lookaheads_advanceOver, mem_advanceOver]
  constructor
  · rintro ⟨i, hy, rfl, ht⟩
    obtain ⟨hi, hfollows⟩ := (hs i t).mp ht
    exact ⟨⟨i, hi, hy, rfl⟩, hfollows⟩
  · rintro ⟨⟨i, hi, hy, rfl⟩, hfollows⟩
    exact ⟨i, hy, rfl, (hs i t).mpr ⟨hi, hfollows⟩⟩

end OperatorTable

namespace Grammar.OperatorGrammar

section Items

variable (h : g.OperatorGrammar x) (haug : g.Augmented)
include h haug

/-! ## Items -/

theorem rest_item {r : Rule} (hr : r ∈ g.ruleList) (m : Nat) :
    (g.item r.right m).rest g = r.right.drop m :=
  Item.rest_of_rule_eq haug hr (h.numberOf_right hr)

theorem rest_operand (m : Nat) :
    (g.item [.terminal x.operand] m).rest g = [Symbol.terminal x.operand].drop m :=
  h.rest_item haug (h.operand_rule haug) m

theorem rest_binary {o : Nat} (ho : o ∈ x.operators) (m : Nat) :
    (g.item (g.binary o) m).rest g = (g.binary o).drop m :=
  h.rest_item haug (h.operator_rule haug ho) m

/-- What follows an expression in a right-hand side is nothing, or an operator if the marker is at
the start of a rule of expressions. -/
theorem rest_after_expression {i : Item} {n : Nat} {rest : List Symbol}
    (hrest : i.rest g = .nonterminal n :: rest) :
    n = g.start ∧ (rest = [] ∨ i.marker = 0 ∧ i.rule ≠ augmentedRule ∧
      ∃ o ∈ x.operators, rest = [.terminal o, .nonterminal g.start]) := by
  obtain ⟨r, hr, hid, hlt, _⟩ :=
    i.exists_rule_of_next? haug (Item.next?_eq_some_iff.mpr ⟨rest, hrest⟩)
  rw [Item.rest_of_rule_eq haug hr hid] at hrest
  obtain ⟨rule, marker⟩ := i
  rcases h.rule_cases haug hr with rfl | rfl | ⟨o, ho, rfl⟩
  · obtain rfl : marker = 0 := by simpa using hlt
    simp only [ruleFor_right, List.drop_zero, List.cons.injEq, Symbol.nonterminal.injEq] at hrest
    exact ⟨hrest.1.symm, Or.inl hrest.2.symm⟩
  · obtain rfl : marker = 0 := by simpa using hlt
    cases hrest
  · have hplace : marker = 0 ∨ marker = 1 ∨ marker = 2 := by
      simp only [ruleFor_right, binary, List.length_cons, List.length_nil] at hlt
      omega
    rcases hplace with rfl | rfl | rfl
    · cases hrest
      refine ⟨rfl, Or.inr ⟨rfl, ?_, o, ho, rfl⟩⟩
      exact hid ▸ haug.id_ne_of_left_ne hr haug.start_ne
    · cases hrest
    · cases hrest
      exact ⟨rfl, Or.inl rfl⟩

/-! ## Closures -/

/-- In the closure of a kernel, the starts of all rules of expressions have all lookaheads as soon
as one of them is asked for: each operator begins what follows the first expression in its own rule,
and the end of input comes from the kernel. -/
theorem closureLookahead_start {s : ItemSet} (hs : x.Full s)
    (hkernel : ∀ i ∈ s, i.marker = 0 → i.rule = augmentedRule) {i : Item} {rest : List Symbol}
    (hi : ClosureItem g s i) (hrest : i.rest g = .nonterminal g.start :: rest) {r : Rule}
    (hr : r ∈ g.ruleList) (hleft : r.left = g.start) {t : Nat}
    (ht : t = endOfInput ∨ t ∈ x.operators) : ClosureLookahead g first s (Item.start r.id) t := by
  rcases ht with rfl | ht
  · induction hi generalizing rest with
    | @kernel i hi =>
      obtain ⟨_, rfl | ⟨hzero, hne, _⟩⟩ := h.rest_after_expression haug hrest
      · have hpassed : endOfInput ∈ s.lookaheads i := (hs i _).mpr ⟨hi, Or.inl rfl⟩
        exact .passed (.kernel hpassed) (hleft ▸ hrest) hr rfl
      · exact absurd (hkernel i hi hzero) hne
    | @start j r' rest' _ hrest' _ ih =>
      have hleft' := (h.rest_after_expression haug hrest').1
      exact ih (hleft' ▸ hrest')
  · have hrule := h.operator_rule haug ht
    have hstart : ClosureItem g s (Item.start (g.numberOf (g.binary t))) := .start hi hrest hrule
    have hbinary : (Item.start (g.numberOf (g.binary t))).rest g =
        .nonterminal r.left :: [.terminal t, .nonterminal g.start] := by
      rw [hleft]
      exact h.rest_binary haug ht 0
    exact .begins hstart hbinary hr (IdSet.mem_singleton.mpr rfl)

/-- Closures keep all lookaheads. -/
theorem full_closure (hfirst : first.Within g) {s : ItemSet} (hs : x.Full s)
    (hkernel : ∀ i ∈ s, i.marker = 0 → i.rule = augmentedRule) :
    x.Full (s.closure g first) := by
  intro i t
  rw [mem_lookaheads_closure haug.keyed hfirst, mem_closure haug.keyed hfirst]
  have hrule : ∀ {j : Item} {r : Rule} {rest : List Symbol}, r ∈ g.ruleList →
      j.rest g = .nonterminal r.left :: rest → r.id ≠ augmentedRule ∧ r.left = g.start := by
    intro j r rest hr hrest
    have hleft := (h.rest_after_expression haug hrest).1
    exact ⟨haug.id_ne_of_left_ne hr (hleft ▸ haug.start_ne), hleft⟩
  constructor
  · intro ht
    induction ht with
    | kernel ht =>
      obtain ⟨hi, hfollows⟩ := (hs _ _).mp ht
      exact ⟨.kernel hi, hfollows⟩
    | begins hi hrest hr hbegins =>
      refine ⟨.start hi hrest hr, Or.inr ⟨(hrule hr hrest).1, ?_⟩⟩
      obtain ⟨_, rfl | ⟨_, _, o, ho, rfl⟩⟩ := h.rest_after_expression haug hrest
      · simp at hbegins
      · rw [FirstTable.firstOfString_terminal, IdSet.mem_singleton] at hbegins
        exact hbegins ▸ ho
    | passed _ hrest hr _ ih =>
      refine ⟨.start ih.1 hrest hr, ih.2.imp_right fun hoperator => ?_⟩
      exact ⟨(hrule hr hrest).1, hoperator.2⟩
  · rintro ⟨hi, hfollows⟩
    cases hi with
    | kernel hi => exact .kernel ((hs _ _).mpr ⟨hi, hfollows⟩)
    | start hi hrest hr =>
      have hleft := (hrule hr hrest).2
      exact h.closureLookahead_start haug hs hkernel hi (hleft ▸ hrest) hr hleft
        (hfollows.imp_right And.right)

/-- The items of a kernel, and of its closure, have all lookaheads. -/
theorem full_of_arises (hfirst : first.Within g) {kernel : ItemSet}
    (hk : Arises g first mode kernel) : x.Full kernel ∧ x.Full (kernel.closure g first) := by
  have hclosure : ∀ {kernel : ItemSet}, Arises g first mode kernel → x.Full kernel →
      x.Full (kernel.closure g first) := by
    intro kernel hk hfull
    exact h.full_closure haug hfirst hfull fun i hi hzero => hk.eq_augmentedRule haug hi hzero
  have hkernel : x.Full kernel := by
    induction hk with
    | initial => exact OperatorTable.full_initialKernel
    | successor hk _ ih => exact (hclosure hk ih).advanceOver _
    | merged _ _ _ _ ih ih' => exact ih.join ih'
  exact ⟨hkernel, hclosure hk hkernel⟩

end Items

end Grammar.OperatorGrammar

/-! ## Stages -/

/-- The operator to the left is one of the table, if there is one. -/
def OperatorTable.Knows (x : OperatorTable) (operator : Option Nat) : Prop :=
  ∀ o ∈ operator, o ∈ x.operators

namespace Stage

/-- The right-hand side that an expression stands in: that of the operator to the left, or of the
augmented rule. -/
def context (g : Grammar) : Option Nat → List Symbol
  | none => [.nonterminal g.start]
  | some o => g.binary o

/-- The place of the expression in that right-hand side. -/
def place : Option Nat → Nat
  | none => 0
  | some _ => 2

/-- The items of the kernel of a stage. -/
def Has (g : Grammar) (x : OperatorTable) : Stage → Item → Prop
  | before operator, i => i = g.item (context g operator) (place operator)
  | operand, i => i = g.item [.terminal x.operand] 1
  | after operator, i => i = g.item (context g operator) (place operator + 1) ∨
      ∃ o ∈ x.operators, i = g.item (g.binary o) 1

/-- The starts of the rules of expressions, which are in the closure before an expression. -/
def Begins (g : Grammar) (x : OperatorTable) : Stage → Item → Prop
  | before _, i => i = g.item [.terminal x.operand] 0 ∨ ∃ o ∈ x.operators, i = g.item (g.binary o) 0
  | _, _ => False

/-- A stage between the tokens of expressions. -/
def Valid (x : OperatorTable) : Stage → Prop
  | before operator | after operator => x.Knows operator
  | operand => True

/-- Reading a symbol leads from one stage to another. -/
inductive Leads (g : Grammar) (x : OperatorTable) : Stage → Symbol → Stage → Prop
  | expression {operator : Option Nat} :
      Leads g x (before operator) (.nonterminal g.start) (after operator)
  | operand {operator : Option Nat} : Leads g x (before operator) (.terminal x.operand) .operand
  | operator {operator : Option Nat} {o : Nat} : o ∈ x.operators →
      Leads g x (after operator) (.terminal o) (before (some o))

variable {σ σ' σ'' : Stage} {y : Symbol}

theorem Leads.unique (h : σ.Leads g x y σ') (h' : σ.Leads g x y σ'') : σ' = σ'' := by
  cases h <;> cases h' <;> rfl

theorem Leads.valid (h : σ.Leads g x y σ') (hσ : σ.Valid x) : σ'.Valid x := by
  cases h with
  | expression => exact hσ
  | operand => trivial
  | operator ho =>
    intro p hp
    cases hp
    exact ho

/-- The kernel of a stage, as far as its items go. -/
structure Describes (g : Grammar) (x : OperatorTable) (σ : Stage) (kernel : ItemSet) : Prop where
  valid : σ.Valid x
  mem_iff : ∀ i, i ∈ kernel ↔ σ.Has g x i

end Stage

/-- All stages. -/
def OperatorTable.stages (x : OperatorTable) : List Stage :=
  [.before none, .operand, .after none] ++ (x.operators.map fun o => .before (some o)) ++
    x.operators.map fun o => .after (some o)

theorem OperatorTable.mem_stages (x : OperatorTable) {σ : Stage} (hσ : σ.Valid x) :
    σ ∈ x.stages := by
  cases σ with
  | before operator =>
    cases operator with
    | none => simp [stages]
    | some o => simp [stages, hσ o rfl]
  | operand => simp [stages]
  | after operator =>
    cases operator with
    | none => simp [stages]
    | some o => simp [stages, hσ o rfl]

namespace Grammar.OperatorGrammar

section Stages

variable {σ σ' : Stage} {y : Symbol} {i j : Item} {kernel : ItemSet}
  (h : g.OperatorGrammar x) (haug : g.Augmented)
include h haug

theorem rest_context {operator : Option Nat} (hknown : x.Knows operator) (m : Nat) :
    (g.item (Stage.context g operator) m).rest g = (Stage.context g operator).drop m := by
  cases operator with
  | none => exact h.rest_item haug haug.rule_zero_mem m
  | some o => exact h.rest_binary haug (hknown o rfl) m

/-- In the right-hand side that an expression stands in, it comes last. -/
theorem rest_before {operator : Option Nat} (hknown : x.Knows operator) :
    (g.item (Stage.context g operator) (Stage.place operator)).rest g = [.nonterminal g.start] := by
  rw [h.rest_context haug hknown]
  cases operator <;> rfl

theorem rest_after {operator : Option Nat} (hknown : x.Knows operator) :
    (g.item (Stage.context g operator) (Stage.place operator + 1)).rest g = [] := by
  rw [h.rest_context haug hknown]
  cases operator <;> rfl

/-- A symbol after a marker leads to the stage that the item moves to. -/
theorem leads_of_next (hσ : σ.Valid x) (hi : σ.Has g x i ∨ σ.Begins g x i)
    (hy : i.next? g = some y) : ∃ σ', σ.Leads g x y σ' ∧ σ'.Has g x i.advance := by
  cases σ with
  | before operator =>
    rcases hi with rfl | rfl | ⟨o, ho, rfl⟩
    · rw [Item.next?, h.rest_before haug hσ] at hy
      cases hy
      exact ⟨_, .expression, Or.inl rfl⟩
    · rw [Item.next?, h.rest_operand haug] at hy
      cases hy
      exact ⟨_, .operand, rfl⟩
    · rw [Item.next?, h.rest_binary haug ho] at hy
      cases hy
      exact ⟨_, .expression, Or.inr ⟨o, ho, rfl⟩⟩
  | operand =>
    rcases hi with rfl | hnone
    · rw [Item.next?, h.rest_operand haug] at hy
      cases hy
    · exact hnone.elim
  | after operator =>
    rcases hi with (rfl | ⟨o, ho, rfl⟩) | hnone
    · rw [Item.next?, h.rest_after haug hσ] at hy
      cases hy
    · rw [Item.next?, h.rest_binary haug ho] at hy
      cases hy
      exact ⟨_, .operator ho, rfl⟩
    · exact hnone.elim

/-- The items of a stage have moved over the symbol that leads to it. -/
theorem next_of_leads (hσ : σ.Valid x) (hleads : σ.Leads g x y σ') (hj : σ'.Has g x j) :
    ∃ i, (σ.Has g x i ∨ σ.Begins g x i) ∧ i.next? g = some y ∧ j = i.advance := by
  cases hleads with
  | expression =>
    rcases hj with rfl | ⟨o, ho, rfl⟩
    · exact ⟨_, Or.inl rfl, by rw [Item.next?, h.rest_before haug hσ]; rfl, rfl⟩
    · exact ⟨_, Or.inr (Or.inr ⟨o, ho, rfl⟩), by rw [Item.next?, h.rest_binary haug ho]; rfl, rfl⟩
  | operand =>
    cases hj
    exact ⟨_, Or.inr (Or.inl rfl), by rw [Item.next?, h.rest_operand haug]; rfl, rfl⟩
  | operator ho =>
    cases hj
    exact ⟨_, Or.inl (Or.inr ⟨_, ho, rfl⟩), by rw [Item.next?, h.rest_binary haug ho]; rfl, rfl⟩

/-- The closure adds the starts of all rules of expressions, before an expression. -/
theorem mem_closure_iff (hfirst : first.Within g) (hσ : σ.Describes g x kernel) :
    i ∈ kernel.closure g first ↔ σ.Has g x i ∨ σ.Begins g x i := by
  rw [mem_closure haug.keyed hfirst]
  constructor
  · intro hi
    induction hi with
    | kernel hi => exact Or.inl ((hσ.mem_iff _).mp hi)
    | @start j r rest _ hrest hr ih =>
      have hnext := Item.next?_eq_some_iff.mpr ⟨rest, hrest⟩
      obtain ⟨σ', hleads, _⟩ := h.leads_of_next haug hσ.valid ih hnext
      generalize hy : Symbol.nonterminal r.left = y at hleads
      cases hleads with
      | expression =>
        rw [← h.numberOf_right hr]
        have hleft := Symbol.nonterminal.inj hy
        rcases (h.left_eq_start_iff haug hr).mp hleft with hright | ⟨o, ho, hright⟩
        · exact Or.inr (Or.inl (hright ▸ rfl))
        · exact Or.inr (Or.inr ⟨o, ho, hright ▸ rfl⟩)
      | operand => cases hy
      | operator => cases hy
  · rintro (hi | hi)
    · exact .kernel ((hσ.mem_iff i).mpr hi)
    · cases σ with
      | before operator =>
        have hmain : g.item (Stage.context g operator) (Stage.place operator) ∈ kernel :=
          (hσ.mem_iff _).mpr rfl
        have hrest := h.rest_before haug hσ.valid
        rcases hi with rfl | ⟨o, ho, rfl⟩
        · exact .start (.kernel hmain) hrest (h.operand_rule haug)
        · exact .start (.kernel hmain) hrest (h.operator_rule haug ho)
      | operand => exact hi.elim
      | after operator => exact hi.elim

/-- The symbols that can be read are those that lead to another stage. -/
theorem exists_next_iff (hfirst : first.Within g) (hσ : σ.Describes g x kernel) :
    (∃ i ∈ kernel.closure g first, i.next? g = some y) ↔ ∃ σ', σ.Leads g x y σ' := by
  constructor
  · rintro ⟨i, hi, hy⟩
    obtain ⟨σ', hleads, _⟩ :=
      h.leads_of_next haug hσ.valid ((h.mem_closure_iff haug hfirst hσ).mp hi) hy
    exact ⟨σ', hleads⟩
  · rintro ⟨σ', hleads⟩
    obtain ⟨j, hj⟩ : ∃ j, σ'.Has g x j := by
      cases σ' with
      | before operator => exact ⟨_, rfl⟩
      | operand => exact ⟨_, rfl⟩
      | after operator => exact ⟨_, Or.inl rfl⟩
    obtain ⟨i, hi, hy, _⟩ := h.next_of_leads haug hσ.valid hleads hj
    exact ⟨i, (h.mem_closure_iff haug hfirst hσ).mpr hi, hy⟩

/-- Reading a symbol leads to the kernel of the next stage. -/
theorem describes_successor (hfirst : first.Within g) (hσ : σ.Describes g x kernel)
    (hleads : σ.Leads g x y σ') : σ'.Describes g x (kernel.successor g first y) := by
  refine ⟨hleads.valid hσ.valid, fun j => ?_⟩
  rw [successor, mem_advanceOver]
  constructor
  · rintro ⟨i, hi, hy, rfl⟩
    obtain ⟨σ'', hleads', hhas⟩ :=
      h.leads_of_next haug hσ.valid ((h.mem_closure_iff haug hfirst hσ).mp hi) hy
    rwa [hleads.unique hleads']
  · intro hj
    obtain ⟨i, hi, hy, rfl⟩ := h.next_of_leads haug hσ.valid hleads hj
    exact ⟨i, (h.mem_closure_iff haug hfirst hσ).mpr hi, hy, rfl⟩

/-- A parser starts before an expression, with no operator to the left. -/
theorem describes_initial (hitems : ∀ i, i ∈ kernel ↔ i ∈ StateGraph.initialKernel) :
    (Stage.before none).Describes g x kernel := by
  refine ⟨fun o ho => (by cases ho), fun i => ?_⟩
  rw [hitems, mem_initialKernel, ← h.numberOf_start haug]
  rfl

/-- Every kernel belongs to a stage. -/
theorem exists_stage (hfirst : first.Within g) (hk : Arises g first mode kernel) :
    ∃ σ : Stage, σ.Describes g x kernel := by
  induction hk with
  | initial => exact ⟨.before none, h.describes_initial haug fun _ => Iff.rfl⟩
  | successor _ hy ih =>
    obtain ⟨σ, hσ⟩ := ih
    obtain ⟨σ', hleads⟩ := (h.exists_next_iff haug hfirst hσ).mp (mem_nextSymbols.mp hy)
    exact ⟨σ', h.describes_successor haug hfirst hσ hleads⟩
  | merged _ _ hcore _ ih _ =>
    obtain ⟨σ, hσ⟩ := ih
    refine ⟨σ, hσ.valid, fun i => ?_⟩
    rw [mem_join, ← core_eq_iff.mp hcore, or_self]
    exact hσ.mem_iff i

end Stages

/-! ## The number of kernels -/

/-- There are fewer kernels than numbers for states: two for each operator and three more. -/
theorem fewArise {cs : List Declaration} (hg : define cs = .ok g) (h : g.OperatorGrammar x)
    (mode : MergeMode) : FewArise g (FirstTable.ofGrammar g) mode := by
  intro kernels hnodup harises
  have haug := augmented_of_define hg
  have hfirst := FirstTable.within_ofGrammar g
  have hsame : ∀ kernel kernel' : ItemSet, kernel ∈ kernels → kernel' ∈ kernels →
      kernel.core = kernel'.core → kernel = kernel' := by
    intro kernel kernel' hk hk' hcore
    exact (h.full_of_arises haug hfirst (harises _ hk)).1.eq_of_core_eq
      (h.full_of_arises haug hfirst (harises _ hk')).1 hcore
  have hcard : kernels.toFinset.card ≤ x.stages.toFinset.card := by
    refine Finset.card_le_card_of_forall_subsingleton (fun kernel σ => σ.Describes g x kernel) ?_ ?_
    · intro kernel hk
      obtain ⟨σ, hσ⟩ := h.exists_stage haug hfirst (harises _ (List.mem_toFinset.mp hk))
      exact ⟨σ, List.mem_toFinset.mpr (x.mem_stages hσ.valid), hσ⟩
    · rintro σ _ kernel ⟨hk, hσ⟩ kernel' ⟨hk', hσ'⟩
      refine hsame _ _ (List.mem_toFinset.mp hk) (List.mem_toFinset.mp hk') ?_
      exact core_eq_iff.mpr fun i => (hσ.mem_iff i).trans (hσ'.mem_iff i).symm
  rw [List.toFinset_card_of_nodup hnodup] at hcard
  have hstages : x.stages.toFinset.card ≤ 3 + 2 * idLimit := by
    refine (List.toFinset_card_le _).trans ?_
    have hlength := h.length_operators_le hg
    simp only [OperatorTable.stages, List.length_append, List.length_cons, List.length_map,
      List.length_nil]
    omega
  have hlimit : 3 + 2 * idLimit ≤ stateLimit := by decide
  exact hcard.trans (hstages.trans hlimit)

end Grammar.OperatorGrammar
end ParserGen
