import Mathlib.Data.List.Basic
import ParserGen.Proofs.Grammar.RuleTable

/-!
# What a defined grammar lists

A definition numbers what it declares in the order of the declarations.  Terminals and nonterminals
are numbered after the reserved symbol zero, rules after the augmented rule.

Main results:

- Theorem `Numbers.push`: a value that gets the next number.
- Theorem `Definition.Lists.declareAll`: the tables of a definition list what was declared.
- Theorem `Grammar.declares_of_define`: so do those of the grammar it is finished to.
- Theorem `Grammar.admissible_of_define`: the terminals of a grammar have numbers, and its start
  symbol is declared.
- Theorem `Grammar.Declares.mem_ruleList`: the rules are the declared ones and the augmented rule.
-/

namespace ParserGen

/-! ## Numbered values -/

/-- A table that gives values the numbers from `first` on, and runs through them in their order. -/
structure Numbers {β : Type} (table : IndexMap β) (first : Nat) (values : List β) : Prop where
  toList_eq : table.toList = (values.zipIdx first).map Prod.swap

/-- Values that are numbered have ascending numbers without a gap. -/
theorem map_fst_zipIdx_swap {β : Type} (values : List β) (first : Nat) :
    ((values.zipIdx first).map Prod.swap).map Prod.fst = List.range' first values.length := by
  rw [List.map_map, show Prod.fst ∘ Prod.swap = (Prod.snd : β × Nat → Nat) from rfl,
    List.zipIdx_map_snd]

theorem numbers_empty {β : Type} (first : Nat) : Numbers (∅ : IndexMap β) first [] := ⟨rfl⟩

namespace Numbers

variable {β : Type} {table : IndexMap β} {first : Nat} {values : List β}

/-- The numbers are in use without a gap, in ascending order. -/
theorem keys_eq (h : Numbers table first values) :
    table.keys = List.range' first values.length := by
  rw [IndexMap.keys, h.toList_eq, map_fst_zipIdx_swap]

theorem values_eq (h : Numbers table first values) : table.values = values := by
  rw [IndexMap.values, h.toList_eq, List.map_map,
    show Prod.snd ∘ Prod.swap = (Prod.fst : β × Nat → β) from rfl, List.zipIdx_map_fst]

theorem size_eq (h : Numbers table first values) : table.size = values.length := by
  rw [← table.length_values, h.values_eq]

/-- A value is found under its number. -/
theorem getElem?_add (h : Numbers table first values) (k : Nat) :
    table[first + k]? = values[k]? := by
  refine Option.ext fun v => ?_
  rw [← IndexMap.mem_toList_iff, h.toList_eq, List.mem_map]
  constructor
  · rintro ⟨⟨v', k'⟩, hmem, heq⟩
    obtain ⟨rfl, rfl⟩ := Prod.mk.inj heq
    obtain ⟨_, hv⟩ := List.mk_mem_zipIdx_iff_le_and_getElem?_sub.mp hmem
    exact (congrArg (values[·]?) (Nat.add_sub_cancel_left first k)).symm.trans hv
  · intro hv
    refine ⟨(v, first + k), List.mk_mem_zipIdx_iff_le_and_getElem?_sub.mpr ⟨?_, ?_⟩, rfl⟩
    · exact Nat.le_add_right first k
    · rwa [Nat.add_sub_cancel_left]

/-- The numbers that come before, and the next one, are not in use. -/
theorem mem_iff (h : Numbers table first values) {k : Nat} :
    k ∈ table ↔ first ≤ k ∧ k < first + values.length := by
  rw [← IndexMap.mem_keys, h.keys_eq, List.mem_range'_1]

/-- The next number is not in use. -/
theorem getElem?_next (h : Numbers table first values) : table[first + table.size]? = none := by
  rw [h.getElem?_add, h.size_eq, List.getElem?_eq_none (Nat.le_refl _)]

end Numbers

/-- The next value gets the next number. -/
theorem Numbers.push {β : Type} {table : IndexMap β} {first : Nat} {values : List β}
    (h : Numbers table first values) (v : β) :
    Numbers (table.insert (first + table.size) v) first (values ++ [v]) := by
  have hnew : first + table.size ∉ table := by
    rw [h.mem_iff, h.size_eq]
    omega
  constructor
  rw [IndexMap.toList_insert_of_not_mem hnew, h.toList_eq, List.zipIdx_append, List.map_append,
    h.size_eq]
  rfl

/-- What is inserted last, under the number before a numbering, comes first after sorting. -/
theorem Numbers.insert_zero {β : Type} {table : IndexMap β} {values : List β}
    (h : Numbers table 1 values) (v : β) :
    Numbers (table.insert 0 v).sortKeys 0 (v :: values) := by
  have hnew : 0 ∉ table := fun hzero => Nat.not_succ_le_zero 0 (h.mem_iff.mp hzero).1
  constructor
  refine IndexMap.toList_sortKeys_of_perm ?_ ?_
  · rw [IndexMap.toList_insert_of_not_mem hnew, h.toList_eq]
    exact (List.perm_append_singleton _ _).symm
  · exact List.pairwise_map.mp (map_fst_zipIdx_swap (v :: values) 0 ▸ List.pairwise_lt_range')

/-! ## What is declared -/

namespace Declaration

def terminal? : Declaration → Option Terminal
  | .terminal name precedence => some ⟨name, precedence⟩
  | _ => none

def nonterminal? : Declaration → Option String
  | .nonterminal name => some name
  | _ => none

/-- Both sides of a declared rule and its precedence. -/
def rule? : Declaration → Option (Nat × List Symbol × Option Precedence)
  | .rule left right precedence => some (left, right, precedence)
  | _ => none

def start? : Declaration → Option Nat
  | .start symbol => some symbol
  | _ => none

end Declaration

/-- A rule without its number and its place. -/
def Rule.declared (r : Rule) : Nat × List Symbol × Option Precedence :=
  (r.left, r.right, r.declaredPrecedence)

/-- A rule under the number `k`, at the same place. -/
def Rule.numbered (k : Nat) (x : Nat × List Symbol × Option Precedence) : Rule :=
  ⟨k, x.1, x.2.1, x.2.2, k⟩

/-- In the table of a finished definition a rule is given by its number and what was declared. -/
theorem Grammar.Augmented.eq_numbered {g : Grammar} (h : g.Augmented) {k : Nat} {r : Rule}
    (hr : g.rules[k]? = some r) : r = .numbered k r.declared := by
  have hid : r.id = k := h.id_eq hr
  have horder : r.order = k := h.order_eq hr
  obtain ⟨id, left, right, precedence, order⟩ := r
  cases hid
  cases horder
  rfl

namespace Definition

/-- The tables of a definition list what was declared. -/
structure Lists (d : Definition) (cs : List Declaration) : Prop where
  terminals : Numbers d.terminals 0 (⟨"$eoi", none⟩ :: cs.filterMap Declaration.terminal?)
  nonterminals : Numbers d.nonterminals 0 ("$start" :: cs.filterMap Declaration.nonterminal?)
  rules : ∃ rules, Numbers d.rules 1 rules ∧
    rules.map Rule.declared = cs.filterMap Declaration.rule?
  start : d.start = (cs.filterMap Declaration.start?).getLast?

theorem lists_initial : initial.Lists [] where
  terminals := (numbers_empty 0).push _
  nonterminals := (numbers_empty 0).push _
  rules := ⟨[], numbers_empty 1, rfl⟩
  start := rfl

variable {d d' : Definition} {cs : List Declaration} {n : Nat}

/-- A declaration that takes effect is listed. -/
theorem Lists.declare (h : d.Lists cs) {c : Declaration} (hd : d.declare c = (.ok n, d')) :
    d'.Lists (cs ++ [c]) := by
  cases effect_of_declare hd with
  | @terminal name precedence =>
    have hpushed := h.terminals.push ⟨name, precedence⟩
    rw [Nat.zero_add] at hpushed
    constructor
    · simpa [List.filterMap_cons, Declaration.terminal?] using hpushed
    · simpa [List.filterMap_cons, Declaration.nonterminal?] using h.nonterminals
    · simpa [List.filterMap_cons, Declaration.rule?] using h.rules
    · simpa [List.filterMap_cons, Declaration.start?] using h.start
  | @nonterminal name =>
    have hpushed := h.nonterminals.push name
    rw [Nat.zero_add] at hpushed
    constructor
    · simpa [List.filterMap_cons, Declaration.terminal?] using h.terminals
    · simpa [List.filterMap_cons, Declaration.nonterminal?] using hpushed
    · simpa [List.filterMap_cons, Declaration.rule?] using h.rules
    · simpa [List.filterMap_cons, Declaration.start?] using h.start
  | @rule left right precedence _ =>
    obtain ⟨rules, hrules, hdeclared⟩ := h.rules
    have hpushed := hrules.push ⟨d.rules.size + 1, left, right, precedence, d.rules.size + 1⟩
    rw [Nat.add_comm 1] at hpushed
    constructor
    · simpa [List.filterMap_cons, Declaration.terminal?] using h.terminals
    · simpa [List.filterMap_cons, Declaration.nonterminal?] using h.nonterminals
    · refine ⟨_, hpushed, ?_⟩
      simp [Declaration.rule?, Rule.declared, hdeclared]
    · simpa [List.filterMap_cons, Declaration.start?] using h.start
  | start =>
    constructor
    · simpa [List.filterMap_cons, Declaration.terminal?] using h.terminals
    · simpa [List.filterMap_cons, Declaration.nonterminal?] using h.nonterminals
    · simpa [List.filterMap_cons, Declaration.rule?] using h.rules
    · simp [Declaration.start?]

theorem Lists.declareAll (h : d.Lists cs) {more : List Declaration}
    (hd : d.declareAll more = .ok d') : d'.Lists (cs ++ more) := by
  induction more generalizing d cs with
  | nil =>
    cases hd
    rwa [List.append_nil]
  | cons c more ih =>
    simp only [Definition.declareAll] at hd
    split at hd
    · rename_i next hnext
      have hrest := ih (h.declare hnext) hd
      rwa [List.append_assoc, List.singleton_append] at hrest
    · cases hd

/-! ## What a definition admits -/

/-- What every declaration keeps: there are no more terminals than numbers for them, and the start
symbol, if one was declared, is a declared nonterminal. -/
structure Admissible (d : Definition) : Prop where
  size_terminals_le : d.terminals.size ≤ idLimit
  start_mem : ∀ n, d.start = some n → n ∈ d.nonterminals

theorem admissible_initial : initial.Admissible where
  size_terminals_le := by decide
  start_mem n h := by cases h

/-- No declaration, refused or not, leaves what is admissible. -/
theorem Admissible.declare (h : d.Admissible) (c : Declaration) :
    (d.declare c).2.Admissible := by
  rcases hd : d.declare c with ⟨cause | n, d'⟩
  · rw [refused_frame hd]
    exact ⟨h.size_terminals_le, h.start_mem⟩
  · cases effect_of_declare hd with
    | terminal hroom _ _ => exact ⟨Nat.le_trans (IndexMap.size_insert_le _ _ _) hroom, h.start_mem⟩
    | nonterminal =>
      refine ⟨h.size_terminals_le, fun n hn => ?_⟩
      exact IndexMap.mem_insert.mpr (Or.inr (h.start_mem n hn))
    | rule _ => exact ⟨h.size_terminals_le, h.start_mem⟩
    | start hmem _ =>
      refine ⟨h.size_terminals_le, fun n hn => ?_⟩
      cases hn
      exact hmem

theorem Admissible.declareAll (h : d.Admissible) (hd : d.declareAll cs = .ok d') :
    d'.Admissible := by
  rw [← declareEach_of_declareAll hd]
  exact declareEach_induction (fun _ c hkept => hkept.declare c) h cs

theorem Admissible.startSymbol_mem (h : d.Admissible) (hn : d.startSymbol? = some n) :
    n ∈ d.nonterminals := by
  unfold startSymbol? at hn
  split at hn
  · rename_i m hm
    cases hn
    exact h.start_mem n hm
  · exact IndexMap.mem_keys.mp (List.mem_of_find?_eq_some hn)

end Definition

/-! ## Finished grammars -/

namespace Grammar

/-- The tables of a grammar list what was declared, after the reserved symbols and the augmented
rule. -/
structure Declares (g : Grammar) (cs : List Declaration) : Prop where
  terminals : Numbers g.terminals 0 (⟨"$eoi", none⟩ :: cs.filterMap Declaration.terminal?)
  nonterminals : Numbers g.nonterminals 0 ("$start" :: cs.filterMap Declaration.nonterminal?)
  rules : ∃ rules, rules.map Rule.declared = cs.filterMap Declaration.rule? ∧
    Numbers g.rules 0 (.augmented g.start :: rules)
  start : ∀ n, (cs.filterMap Declaration.start?).getLast? = some n → g.start = n

end Grammar

/-- Finishing a definition puts the augmented rule before the declared ones. -/
theorem Definition.Lists.finish {d : Definition} {cs : List Declaration} (h : d.Lists cs)
    {g : Grammar} (hg : d.finish = .ok g) : g.Declares cs := by
  unfold Definition.finish at hg
  split at hg
  · cases hg
  · rename_i start hstart
    cases hg
    obtain ⟨rules, hrules, hdeclared⟩ := h.rules
    refine ⟨h.terminals, h.nonterminals, ⟨rules, hdeclared, hrules.insert_zero _⟩, ?_⟩
    intro n hn
    rw [← h.start] at hn
    rw [Definition.startSymbol?, hn] at hstart
    exact (Option.some.inj hstart).symm

/-- A finished definition has kept to what it admits. -/
theorem Definition.Admissible.finish {d : Definition} (h : d.Admissible) {g : Grammar}
    (hg : d.finish = .ok g) : g.terminals.size ≤ idLimit ∧ g.start ∈ g.nonterminals := by
  unfold Definition.finish at hg
  split at hg
  · cases hg
  · rename_i start hstart
    cases hg
    exact ⟨h.size_terminals_le, h.startSymbol_mem hstart⟩

namespace Grammar

/-- A grammar that is defined lists its declarations. -/
theorem declares_of_define {cs : List Declaration} {g : Grammar} (hg : define cs = .ok g) :
    g.Declares cs := by
  unfold define at hg
  split at hg
  · rename_i d hd
    have h := Definition.lists_initial.declareAll hd
    rw [List.nil_append] at h
    exact h.finish hg
  · cases hg

/-- The end of input has no precedence. -/
theorem precedenceOf_endOfInput {cs : List Declaration} {g : Grammar} (hg : define cs = .ok g) :
    g.precedenceOf endOfInput = none := by
  have hzero := (declares_of_define hg).terminals.getElem?_add 0
  rw [Nat.zero_add] at hzero
  rw [precedenceOf, endOfInput, hzero]
  rfl

/-- A grammar that is defined has no more terminals than there are numbers for them, and its start
symbol is declared. -/
theorem admissible_of_define {cs : List Declaration} {g : Grammar} (hg : define cs = .ok g) :
    g.terminals.size ≤ idLimit ∧ g.start ∈ g.nonterminals := by
  unfold define at hg
  split at hg
  · rename_i d hd
    exact (Definition.admissible_initial.declareAll hd).finish hg
  · cases hg

namespace Declares

variable {g : Grammar} {cs : List Declaration}

/-- The rules are the augmented rule and those that were declared. -/
theorem mem_ruleList (h : g.Declares cs) {left : Nat} {right : List Symbol} :
    (∃ r ∈ g.ruleList, r.left = left ∧ r.right = right) ↔
      left = augmentedStart ∧ right = [.nonterminal g.start] ∨
        ∃ precedence, .rule left right precedence ∈ cs := by
  obtain ⟨rules, hdeclared, hnumbers⟩ := h.rules
  have hmem : ∀ r, r ∈ g.ruleList ↔
      r = .augmented g.start ∨ r ∈ rules := by
    intro r
    rw [mem_ruleList_iff_exists, ← List.mem_cons, List.mem_iff_getElem?]
    refine exists_congr fun k => ?_
    rw [← hnumbers.getElem?_add, Nat.zero_add]
  have hcs : ∀ precedence, .rule left right precedence ∈ cs ↔
      ∃ r ∈ rules, r.left = left ∧ r.right = right ∧ r.declaredPrecedence = precedence := by
    intro precedence
    have hsides : (left, right, precedence) ∈ rules.map Rule.declared ↔
        .rule left right precedence ∈ cs := by
      rw [hdeclared, List.mem_filterMap]
      constructor
      · rintro ⟨c, hc, hrule⟩
        cases c <;> cases hrule
        exact hc
      · intro hc
        exact ⟨_, hc, rfl⟩
    rw [← hsides, List.mem_map]
    simp [Rule.declared]
  constructor
  · rintro ⟨r, hr, rfl, rfl⟩
    rcases (hmem r).mp hr with rfl | hr
    · exact Or.inl ⟨rfl, rfl⟩
    · exact Or.inr ⟨_, (hcs _).mpr ⟨r, hr, rfl, rfl, rfl⟩⟩
  · rintro (⟨rfl, rfl⟩ | ⟨precedence, hc⟩)
    · exact ⟨_, (hmem _).mpr (Or.inl rfl), rfl, rfl⟩
    · obtain ⟨r, hr, hleft, hright, _⟩ := (hcs precedence).mp hc
      exact ⟨r, (hmem r).mpr (Or.inr hr), hleft, hright⟩

end Declares
end Grammar
end ParserGen
