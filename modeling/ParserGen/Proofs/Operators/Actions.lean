import ParserGen.Proofs.Automaton.Paths
import ParserGen.Proofs.Operators.Kernels

/-!
# The actions of an operator grammar

What an automaton does in a state of an operator grammar depends on the stage only.  After an
expression with an operator to the left a shift and a reduction compete, on each operator; the
precedences always settle it.

Main results:

- Theorem `Automaton.Faithful.resolved_of_operators`: all conflicts are settled by precedence.
- Theorems `Automaton.Faithful.action_before`, `action_operand`, `action_at_end` and `action_after`:
  what is done in the states of each stage.
-/

namespace ParserGen

open ItemSet

variable {g : Grammar} {x : OperatorTable} {first : FirstTable} {mode : MergeMode} {a : Automaton}
  {kernel : Nat → ItemSet} {s t : Nat} {st : State} {σ σ' : Stage} {y : Symbol}

namespace Grammar

/-- The rule of an operator against another operator fares as the table says. -/
theorem OperatorGrammar.rulePreference_eq (h : g.OperatorGrammar x) (haug : g.Augmented) {o p : Nat}
    (ho : o ∈ x.operators) (hp : p ∈ x.operators) :
    rulePreference g p (g.numberOf (g.binary o)) = some (x.group o p) := by
  rw [rulePreference, h.precedence p hp, h.precedence_rule haug ho]
  rw [Preference.between, OperatorTable.group]
  rcases Nat.lt_trichotomy (x.precedence p).priority (x.precedence o).priority with hlt | heq | hgt
  · simp only [if_pos hlt, if_neg (Nat.lt_asymm hlt)]
  · simp only [heq, lt_self_iff_false, if_false]
    cases (x.precedence p).assoc <;> rfl
  · simp only [if_pos hgt, if_neg (Nat.lt_asymm hgt)]

/-- A reduction by a rule of expressions, for a parser. -/
theorem OperatorGrammar.toParse_reduceOrAccept (h : g.OperatorGrammar x) (haug : g.Augmented)
    {r : Rule} (hr : r ∈ g.ruleList) (hleft : r.left = g.start) :
    (reduceOrAccept (g.numberOf r.right)).toParse g =
      .reduce (g.numberOf r.right) g.start r.right.length := by
  have hne : g.numberOf r.right ≠ augmentedRule := by
    rw [h.numberOf_right hr]
    exact haug.id_ne_of_left_ne hr (hleft ▸ haug.start_ne)
  have hrule : g.rules[g.numberOf r.right]? = some r := by
    rw [h.numberOf_right hr]
    exact haug.mem_ruleList.mp hr
  rw [reduceOrAccept, if_neg hne]
  simp only [Action.toParse, hrule, hleft]

end Grammar

/-- The action that a preference is for. -/
def Preference.action (p : Preference) (next r : Nat) : Action :=
  match p with
  | shift => .shift next
  | reduce => reduceOrAccept r
  | neither => .fail

/-- A precedence settles a shift against one reduction. -/
theorem resolve_of_preference {r : Nat} {p : Preference} (hp : rulePreference g t r = some p)
    (next : Nat) :
    resolve g t (some next) [r] = (p.action next r, some (.shiftReduce, .precedence)) := by
  have hagreed : Agreed g t [r] p := by
    intro r' hr'
    rwa [List.mem_singleton.mp hr']
  rw [resolve_some g t next (List.cons_ne_nil r []),
    resolveShiftReduce_of_agreed next (List.cons_ne_nil r []) hagreed]
  cases p <;> rfl

/-! ## What competes -/

namespace Stage

/-- The item whose rule is complete in a stage. -/
def handle? (g : Grammar) (x : OperatorTable) : Stage → Option Item
  | before _ => none
  | operand => some (g.item [.terminal x.operand] 1)
  | after operator => some (g.item (context g operator) (place operator + 1))

/-- The reductions that a stage allows on a terminal. -/
def reductions (g : Grammar) (x : OperatorTable) (t : Nat) (σ : Stage) : List Nat :=
  match σ.handle? g x with
  | some i => if t = endOfInput ∨ i.rule ≠ augmentedRule ∧ t ∈ x.operators then [i.rule] else []
  | none => []

end Stage

namespace Grammar.OperatorGrammar

section Reductions

variable {i : Item} (h : g.OperatorGrammar x) (haug : g.Augmented)
include h haug

/-- The only item of a stage that is complete is its handle. -/
theorem rest_eq_nil_iff (hσ : σ.Valid x) (hi : σ.Has g x i ∨ σ.Begins g x i) :
    i.rest g = [] ↔ σ.handle? g x = some i := by
  constructor
  · intro hrest
    cases σ with
    | before operator =>
      rcases hi with rfl | rfl | ⟨o, ho, rfl⟩
      · cases (h.rest_before haug hσ).symm.trans hrest
      · cases (h.rest_operand haug 0).symm.trans hrest
      · cases (h.rest_binary haug ho 0).symm.trans hrest
    | operand =>
      rcases hi with rfl | hnone
      · rfl
      · exact hnone.elim
    | after operator =>
      rcases hi with (rfl | ⟨o, ho, rfl⟩) | hnone
      · rfl
      · cases (h.rest_binary haug ho 1).symm.trans hrest
      · exact hnone.elim
  · intro hhandle
    cases σ with
    | before operator => cases hhandle
    | operand =>
      cases hhandle
      exact h.rest_operand haug 1
    | after operator =>
      cases hhandle
      exact h.rest_after haug hσ

omit h haug in
theorem has_of_handle (hhandle : σ.handle? g x = some i) : σ.Has g x i := by
  cases σ with
  | before operator => cases hhandle
  | operand =>
    cases hhandle
    rfl
  | after operator =>
    cases hhandle
    exact Or.inl rfl

/-- The reductions on a terminal are those of the stage. -/
theorem reductionsOn_eq (hfirst : first.Within g) {kernel : ItemSet}
    (hk : Arises g first mode kernel) (hσ : σ.Describes g x kernel) (t : Nat) :
    reductionsOn g (kernel.closure g first) t = σ.reductions g x t := by
  have hfull := (h.full_of_arises haug hfirst hk).2
  have hmem : ∀ r, r ∈ reductionsOn g (kernel.closure g first) t ↔
      ∃ i, σ.handle? g x = some i ∧ x.Follows i t ∧ i.rule = r := by
    intro r
    rw [mem_reductionsOn]
    refine exists_congr fun i => ?_
    constructor
    · rintro ⟨hi, hcomplete, ht, hr⟩
      rw [(hk.fits haug hfirst hi).isComplete_iff haug] at hcomplete
      have hitem := (h.mem_closure_iff haug hfirst hσ).mp hi
      exact ⟨(h.rest_eq_nil_iff haug hσ.valid hitem).mp hcomplete, ((hfull i t).mp ht).2, hr⟩
    · rintro ⟨hhandle, hfollows, hr⟩
      have hitem := Or.inl (b := σ.Begins g x i) (has_of_handle hhandle)
      have hi := (h.mem_closure_iff haug hfirst hσ).mpr hitem
      refine ⟨hi, ?_, (hfull i t).mpr ⟨hi, hfollows⟩, hr⟩
      rw [(hk.fits haug hfirst hi).isComplete_iff haug]
      exact (h.rest_eq_nil_iff haug hσ.valid hitem).mpr hhandle
  have hnodup := nodup_reductionsOn haug (fun i hi => hk.fits haug hfirst hi) t
  rw [Stage.reductions]
  cases hhandle : σ.handle? g x with
  | none =>
    refine List.eq_nil_iff_forall_not_mem.mpr fun r hr => ?_
    obtain ⟨i, hi, _⟩ := (hmem r).mp hr
    cases hhandle.symm.trans hi
  | some i =>
    by_cases hfollows : x.Follows i t
    · refine Eq.trans ?_ (if_pos hfollows).symm
      refine List.perm_singleton.mp
        ((List.perm_ext_iff_of_nodup hnodup (List.nodup_singleton _)).mpr fun r => ?_)
      rw [hmem, List.mem_singleton, hhandle]
      constructor
      · rintro ⟨j, hj, _, rfl⟩
        rw [Option.some.inj hj]
      · rintro rfl
        exact ⟨i, rfl, hfollows, rfl⟩
    · refine Eq.trans ?_ (if_neg hfollows).symm
      refine List.eq_nil_iff_forall_not_mem.mpr fun r hr => ?_
      obtain ⟨j, hj, hj', _⟩ := (hmem r).mp hr
      exact hfollows (Option.some.inj (hhandle.symm.trans hj) ▸ hj')

end Reductions
end Grammar.OperatorGrammar

/-! ### Reductions of the stages -/

namespace Stage

/-- A stage allows one reduction at most. -/
theorem reductions_cases (g : Grammar) (x : OperatorTable) (t : Nat) (σ : Stage) :
    σ.reductions g x t = [] ∨ ∃ r, σ.reductions g x t = [r] := by
  rw [reductions]
  cases σ.handle? g x with
  | none => exact Or.inl rfl
  | some i =>
    by_cases hfollows : t = endOfInput ∨ i.rule ≠ augmentedRule ∧ t ∈ x.operators
    · exact Or.inr ⟨i.rule, if_pos hfollows⟩
    · exact Or.inl (if_neg hfollows)

/-- Nothing is reduced on an operand. -/
theorem reductions_on_operand (h : g.OperatorGrammar x) (σ : Stage) :
    σ.reductions g x x.operand = [] := by
  rw [reductions]
  cases σ.handle? g x with
  | none => rfl
  | some i =>
    have hnot : ¬ (x.operand = endOfInput ∨ i.rule ≠ augmentedRule ∧ x.operand ∈ x.operators) := by
      rintro (heq | ⟨_, hmem⟩)
      · exact h.operand_ne heq
      · exact h.operand_not_mem hmem
    exact if_neg hnot

/-- An operand is reduced on all that can come after it. -/
theorem reductions_of_operand (h : g.OperatorGrammar x) (haug : g.Augmented)
    (ht : t = endOfInput ∨ t ∈ x.operators) :
    operand.reductions g x t = [g.numberOf [.terminal x.operand]] := by
  have hne := haug.id_ne_of_left_ne (h.operand_rule haug) haug.start_ne
  exact if_pos (ht.imp_right fun hmem => ⟨hne, hmem⟩)

/-- At the end of input what an expression stands in is reduced. -/
theorem reductions_at_end (g : Grammar) (x : OperatorTable) (operator : Option Nat) :
    (after operator).reductions g x endOfInput = [g.numberOf (context g operator)] := by
  rw [reductions]
  exact if_pos (Or.inl rfl)

/-- Before an operator, an expression with an operator to the left is reduced, one without is
not. -/
theorem reductions_before_operator (h : g.OperatorGrammar x) (haug : g.Augmented)
    (hend : endOfInput ∉ x.operators) {operator : Option Nat} (hknows : x.Knows operator)
    (ht : t ∈ x.operators) :
    (after operator).reductions g x t =
      (operator.map fun o => g.numberOf (g.binary o)).toList := by
  cases operator with
  | none =>
    refine if_neg ?_
    rintro (rfl | ⟨hne, _⟩)
    · exact hend ht
    · exact hne (h.numberOf_start haug)
  | some o =>
    have hne := haug.id_ne_of_left_ne (h.operator_rule haug (hknows o rfl)) haug.start_ne
    exact if_pos (Or.inr ⟨hne, ht⟩)

/-- An operand can be read before an expression only. -/
theorem Leads.exists_eq_before (h : g.OperatorGrammar x)
    (hleads : σ.Leads g x (.terminal x.operand) σ') : ∃ operator, σ = before operator := by
  cases hleads with
  | operand => exact ⟨_, rfl⟩
  | operator ho => exact absurd ho h.operand_not_mem

end Stage

/-! ## States -/

namespace Automaton

/-- A state that has the kernel of a stage. -/
structure AtStage (g : Grammar) (x : OperatorTable) (a : Automaton) (kernel : Nat → ItemSet)
    (s : Nat) (σ : Stage) : Prop where
  lt : s < a.states.size
  describes : σ.Describes g x (kernel s)

namespace Faithful

section States

variable (h : g.OperatorGrammar x) (haug : g.Augmented) (hfirst : first.Within g)
  (hf : a.Faithful g first mode kernel)
include h haug hfirst hf

theorem exists_atStage (hst : a.states[s]? = some st) : ∃ σ, a.AtStage g x kernel s σ := by
  obtain ⟨σ, hσ⟩ := h.exists_stage haug hfirst (hf.arises hst)
  exact ⟨σ, (Array.getElem?_eq_some_iff.mp hst).1, hσ⟩

/-- A symbol that leads to a stage has an edge to a state of that stage. -/
theorem exists_target (hs : a.AtStage g x kernel s σ) (hst : a.states[s]? = some st)
    (hleads : σ.Leads g x y σ') :
    ∃ next, st.target? y = some next ∧ a.AtStage g x kernel next σ' := by
  obtain ⟨next, hnext⟩ : ∃ next, st.target? y = some next := by
    rw [hf.exists_target_iff hst, hf.items hst]
    exact (h.exists_next_iff haug hfirst hs.describes).mpr ⟨σ', hleads⟩
  obtain ⟨⟨st', hst'⟩, hhosts⟩ := hf.target_state hst hnext
  have hdescribes := h.describes_successor haug hfirst hs.describes hleads
  refine ⟨next, hnext, (Array.getElem?_eq_some_iff.mp hst').1, hdescribes.valid, fun i => ?_⟩
  exact hhosts.extends_.mem_iff.trans (hdescribes.mem_iff i)

/-- Other symbols have none. -/
theorem target_eq_none (hs : a.AtStage g x kernel s σ) (hst : a.states[s]? = some st)
    (hnone : ∀ σ', ¬ σ.Leads g x y σ') : st.target? y = none := by
  rw [Option.eq_none_iff_forall_ne_some]
  intro next hnext
  have htarget := (hf.exists_target_iff hst).mp ⟨next, hnext⟩
  rw [hf.items hst] at htarget
  obtain ⟨σ', hleads⟩ := (h.exists_next_iff haug hfirst hs.describes).mp htarget
  exact hnone σ' hleads

/-- What is chosen in a state is what its stage has to choose from. -/
theorem choice_eq (hs : a.AtStage g x kernel s σ) (hst : a.states[s]? = some st) (t : Nat) :
    st.choice g t = resolve g t (st.target? (.terminal t)) (σ.reductions g x t) := by
  rw [State.choice, hf.items hst, h.reductionsOn_eq haug hfirst (hf.arises hst) hs.describes]

/-- Where nothing can be read, nothing competes. -/
theorem no_competition (hs : a.AtStage g x kernel s σ) (hst : a.states[s]? = some st)
    (hnone : ∀ σ', ¬ σ.Leads g x (.terminal t) σ') : (st.choice g t).2 = none := by
  rw [hf.choice_eq h haug hfirst hs hst, hf.target_eq_none h haug hfirst hs hst hnone]
  rcases σ.reductions_cases g x t with hnil | ⟨r, hr⟩
  · rw [hnil]
    rfl
  · rw [hr]
    rfl

/-- After an expression an operator is shifted, unless there is an operator to the left and the
precedences decide otherwise. -/
theorem choice_after_operator (hend : endOfInput ∉ x.operators) {operator : Option Nat}
    (hs : a.AtStage g x kernel s (.after operator)) (hst : a.states[s]? = some st) {p : Nat}
    (hp : p ∈ x.operators) :
    ∃ next, a.AtStage g x kernel next (.before (some p)) ∧
      (operator = none → st.choice g p = (.shift next, none)) ∧
      ∀ o, operator = some o → st.choice g p =
        ((x.group o p).action next (g.numberOf (g.binary o)),
          some (.shiftReduce, .precedence)) := by
  obtain ⟨next, hnext, hstage⟩ := hf.exists_target h haug hfirst hs hst (.operator hp)
  have hknows := hs.describes.valid
  refine ⟨next, hstage, ?_, ?_⟩
  · rintro rfl
    rw [hf.choice_eq h haug hfirst hs hst, hnext,
      Stage.reductions_before_operator h haug hend hknows hp]
    rfl
  · rintro o rfl
    rw [hf.choice_eq h haug hfirst hs hst, hnext,
      Stage.reductions_before_operator h haug hend hknows hp]
    exact resolve_of_preference (h.rulePreference_eq haug (hknows o rfl) hp) next

/-- All conflicts are settled by precedence: they are between an operator to the left and one that
comes next. -/
theorem resolved_of_operators (hend : endOfInput ∉ x.operators) {c : Conflict}
    (hc : c ∈ a.conflicts) : c.isResolved = true := by
  obtain ⟨s, st, hst, t, kind, resolution, hchoice, rfl⟩ := hf.mem_conflicts.mp hc
  obtain ⟨σ, hs⟩ := hf.exists_atStage h haug hfirst hst
  by_cases hleads : ∃ σ', σ.Leads g x (.terminal t) σ'
  · obtain ⟨σ', hleads⟩ := hleads
    generalize hy : Symbol.terminal t = y at hleads
    cases hleads with
    | expression => cases hy
    | operand =>
      cases hy
      rw [hf.choice_eq h haug hfirst hs hst, Stage.reductions_on_operand h, resolve_nil] at hchoice
      cases hchoice
    | @operator operator o ho =>
      cases hy
      obtain ⟨next, _, hbottom, hoperator⟩ :=
        hf.choice_after_operator h haug hfirst hend hs hst ho
      cases operator with
      | none =>
        rw [hbottom rfl] at hchoice
        cases hchoice
      | some o' =>
        rw [hoperator o' rfl] at hchoice
        cases hchoice
        rfl
  · rw [hf.no_competition h haug hfirst hs hst fun σ' hσ' => hleads ⟨σ', hσ'⟩] at hchoice
    cases hchoice

/-! ### What a parser does -/

/-- An operand is shifted before an expression. -/
theorem action_before {operator : Option Nat} (hs : a.AtStage g x kernel s (.before operator)) :
    ∃ next, a.table.action s (some x.operand) = .shift next ∧
      a.AtStage g x kernel next .operand := by
  obtain ⟨st, hst⟩ := state_of_lt hs.lt
  obtain ⟨next, hnext, hstage⟩ := hf.exists_target h haug hfirst hs hst .operand
  refine ⟨next, ?_, hstage⟩
  rw [hf.action_eq haug hst, Option.getD_some, hf.choice_eq h haug hfirst hs hst, hnext,
    Stage.reductions_on_operand h]
  rfl

/-- Nothing else is. -/
theorem action_before_fails {operator : Option Nat}
    (hs : a.AtStage g x kernel s (.before operator)) {lookahead : Option Nat}
    (hne : lookahead.getD endOfInput ≠ x.operand) : a.table.action s lookahead = .fail := by
  obtain ⟨st, hst⟩ := state_of_lt hs.lt
  have hnone : ∀ σ', ¬ (Stage.before operator).Leads g x
      (.terminal (lookahead.getD endOfInput)) σ' := by
    intro σ' hleads
    generalize hy : Symbol.terminal (lookahead.getD endOfInput) = y at hleads
    cases hleads with
    | expression => cases hy
    | operand => exact hne (Symbol.terminal.inj hy)
  rw [hf.action_eq haug hst, hf.choice_eq h haug hfirst hs hst,
    hf.target_eq_none h haug hfirst hs hst hnone]
  rfl

/-- After an operand or an expression no operand can come. -/
theorem action_operand_fails (hs : a.AtStage g x kernel s σ)
    (hσ : ∀ operator, σ ≠ .before operator) : a.table.action s (some x.operand) = .fail := by
  obtain ⟨st, hst⟩ := state_of_lt hs.lt
  have hnone : ∀ σ', ¬ σ.Leads g x (.terminal x.operand) σ' := by
    intro σ' hleads
    obtain ⟨operator, rfl⟩ := hleads.exists_eq_before h
    exact hσ operator rfl
  rw [hf.action_eq haug hst, Option.getD_some, hf.choice_eq h haug hfirst hs hst,
    hf.target_eq_none h haug hfirst hs hst hnone, Stage.reductions_on_operand h]
  rfl

/-- An operand is reduced at the end of input and before operators. -/
theorem action_operand (hs : a.AtStage g x kernel s .operand) {lookahead : Option Nat}
    (ht : lookahead.getD endOfInput = endOfInput ∨ lookahead.getD endOfInput ∈ x.operators) :
    a.table.action s lookahead =
      .reduce (g.numberOf [.terminal x.operand]) g.start 1 := by
  obtain ⟨st, hst⟩ := state_of_lt hs.lt
  have hnone : ∀ σ', ¬ Stage.operand.Leads g x
      (.terminal (lookahead.getD endOfInput)) σ' := by
    intro σ' hleads
    cases hleads
  rw [hf.action_eq haug hst, hf.choice_eq h haug hfirst hs hst,
    hf.target_eq_none h haug hfirst hs hst hnone, Stage.reductions_of_operand h haug ht]
  exact h.toParse_reduceOrAccept haug (h.operand_rule haug) rfl

/-- At the end of input an expression is accepted if there is no operator to the left of it, and
reduced otherwise. -/
theorem action_at_end (hend : endOfInput ∉ x.operators) {operator : Option Nat}
    (hs : a.AtStage g x kernel s (.after operator)) :
    (operator = none → a.table.action s none = .accept) ∧
      ∀ o, operator = some o →
        a.table.action s none = .reduce (g.numberOf (g.binary o)) g.start 3 := by
  obtain ⟨st, hst⟩ := state_of_lt hs.lt
  have hnone : ∀ σ', ¬ (Stage.after operator).Leads g x (.terminal endOfInput) σ' := by
    intro σ' hleads
    cases hleads with
    | operator hmem => exact hend hmem
  have haction : a.table.action s none =
      (reduceOrAccept (g.numberOf (Stage.context g operator))).toParse g := by
    rw [hf.action_eq haug hst, Option.getD_none, hf.choice_eq h haug hfirst hs hst,
      hf.target_eq_none h haug hfirst hs hst hnone, Stage.reductions_at_end]
    rfl
  constructor
  · rintro rfl
    rw [haction, Stage.context, h.numberOf_start haug]
    rfl
  · rintro o rfl
    rw [haction]
    exact h.toParse_reduceOrAccept haug (h.operator_rule haug (hs.describes.valid o rfl)) rfl

/-- After an expression an operator is shifted, unless there is an operator to the left; then the
table of operators decides. -/
theorem action_after (hend : endOfInput ∉ x.operators) {operator : Option Nat}
    (hs : a.AtStage g x kernel s (.after operator)) {p : Nat} (hp : p ∈ x.operators) :
    ∃ next, a.AtStage g x kernel next (.before (some p)) ∧
      (operator = none → a.table.action s (some p) = .shift next) ∧
      ∀ o, operator = some o → a.table.action s (some p) =
        match x.group o p with
        | .shift => .shift next
        | .reduce => .reduce (g.numberOf (g.binary o)) g.start 3
        | .neither => .fail := by
  obtain ⟨st, hst⟩ := state_of_lt hs.lt
  obtain ⟨next, hstage, hbottom, hoperator⟩ := hf.choice_after_operator h haug hfirst hend hs hst hp
  refine ⟨next, hstage, ?_, ?_⟩
  · intro hnone
    rw [hf.action_eq haug hst, Option.getD_some, hbottom hnone]
    rfl
  · rintro o rfl
    have hrule := h.operator_rule haug (hs.describes.valid o rfl)
    rw [hf.action_eq haug hst, Option.getD_some, hoperator o rfl]
    cases x.group o p with
    | shift => rfl
    | reduce => exact h.toParse_reduceOrAccept haug hrule rfl
    | neither => rfl

/-- After a reduction there is a state to go to. -/
theorem goto_before {operator : Option Nat} (hs : a.AtStage g x kernel s (.before operator)) :
    ∃ next, a.table.goto s g.start = some next ∧
      a.AtStage g x kernel next (.after operator) := by
  obtain ⟨st, hst⟩ := state_of_lt hs.lt
  obtain ⟨next, hnext, hstage⟩ := hf.exists_target h haug hfirst hs hst .expression
  exact ⟨next, (hf.goto_eq hst g.start).trans hnext, hstage⟩

omit hfirst in
theorem atStage_initial : a.AtStage g x kernel initialState (.before none) := by
  exact ⟨hf.pos, h.describes_initial haug fun _ => hf.initial.extends_.mem_iff⟩

end States
end Faithful
end Automaton
end ParserGen
