import ParserGen.Automaton.Table
import ParserGen.Proofs.Automaton.Finished

/-!
# Actions of faithful automata

The rows of a state are looked up here, so that what a state does on a terminal can be told from its
items and edges: it is the resolution of the shift and the reductions that compete on the terminal.

Main results:

- Theorem `Automaton.Faithful.action_eq`: what a parser does in a state.
- Theorem `Automaton.Faithful.goto_eq`: where it goes after a reduction.
- Theorem `Automaton.Faithful.mem_conflicts`: the conflicts are those met in the states.
-/

namespace ParserGen

open ItemSet

namespace State

open Automaton

/-- If the edges on nonterminals are kept a second time, the edge that a reduction takes is the one
on its left-hand side. -/
theorem goto?_eq_target? {st : State} (h : st.gotos = onNonterminals st.transitions) (n : Nat) :
    st.goto? n = st.target? (.nonterminal n) := by
  rw [goto?, h, onNonterminals, target?]
  induction st.transitions with
  | nil => rfl
  | cons edge edges ih =>
    obtain ⟨x, t⟩ := edge
    cases x with
    | terminal a =>
      rw [List.filterMap_cons_none rfl, ih, List.lookup_cons]
      rfl
    | nonterminal m =>
      have hbeq : (Symbol.nonterminal n == Symbol.nonterminal m) = (n == m) := by
        rw [Bool.eq_iff_iff]
        simp
      show List.lookup n ((m, t) :: _) = _
      rw [List.lookup_cons, List.lookup_cons, ih, hbeq]

end State

/-! ## What competes -/

variable {g : Grammar}

/-- The reductions on a terminal are those by the rules of complete items that have it as a
lookahead. -/
theorem mem_reductionsOn {items : ItemSet} {t r : Nat} :
    r ∈ reductionsOn g items t ↔
      ∃ i ∈ items, i.isComplete g = true ∧ t ∈ items.lookaheads i ∧ i.rule = r := by
  simp only [reductionsOn, List.mem_map, List.mem_filter, Bool.and_eq_true]
  rw [← exists_row_iff (p := fun i l => i.isComplete g = true ∧ t ∈ l ∧ i.rule = r)]
  constructor
  · rintro ⟨row, ⟨hrow, hcomplete, ht⟩, hr⟩
    exact ⟨row, hrow, hcomplete, ht, hr⟩
  · rintro ⟨row, hrow, hcomplete, ht, hr⟩
    exact ⟨row, ⟨hrow, hcomplete, ht⟩, hr⟩

/-- More lookaheads allow more reductions. -/
theorem reductionsOn_of_extends {big small : ItemSet} (h : big.Extends small) {t r : Nat}
    (hr : r ∈ reductionsOn g small t) : r ∈ reductionsOn g big t := by
  obtain ⟨i, hi, hcomplete, ht, hrule⟩ := mem_reductionsOn.mp hr
  exact mem_reductionsOn.mpr ⟨i, h.mem_iff.mpr hi, hcomplete, h.lookaheads i t ht, hrule⟩

/-- A rule is not listed twice: its complete item is determined by the rule. -/
theorem nodup_reductionsOn (h : g.Augmented) {items : ItemSet} (hfits : ∀ i ∈ items, i.Fits g)
    (t : Nat) : (reductionsOn g items t).Nodup := by
  have hkeys : (items.toList.map (·.1)).Nodup := by
    rw [Std.ExtTreeMap.map_fst_toList_eq_keys]
    exact Std.ExtTreeMap.nodup_keys
  have hrows := (List.Nodup.of_map _ hkeys).filter
    fun row => row.1.isComplete g && row.2.contains t
  refine List.Nodup.map_on ?_ hrows
  intro row hrow row' hrow' hrule
  obtain ⟨hmem, hcomplete⟩ := List.mem_filter.mp hrow
  obtain ⟨hmem', hcomplete'⟩ := List.mem_filter.mp hrow'
  rw [Bool.and_eq_true] at hcomplete hcomplete'
  obtain ⟨hi, hl⟩ := mem_toList_iff.mp hmem
  obtain ⟨hi', hl'⟩ := mem_toList_iff.mp hmem'
  obtain ⟨r, hr, hid, hle⟩ := hfits _ hi
  obtain ⟨r', hr', hid', hle'⟩ := hfits _ hi'
  have hsame : r = r' := h.eq_of_id_eq hr hr' (by rw [← hid, ← hid', hrule])
  subst hsame
  have hge := (Item.isComplete_of_rule_eq h hr hid).mp hcomplete.1
  have hge' := (Item.isComplete_of_rule_eq h hr hid').mp hcomplete'.1
  have hitem : row.1 = row'.1 := by
    cases hrow1 : row.1
    cases hrow1' : row'.1
    simp_all
    omega
  exact Prod.ext hitem (by rw [hl, hl', hitem])

/-- A terminal is competed for if it is shifted or a rule is reduced on it. -/
theorem mem_competedTerminals {items : ItemSet} {transitions : List (Symbol × Nat)} {t : Nat} :
    t ∈ competedTerminals g items transitions ↔
      (∃ next, (.terminal t, next) ∈ transitions) ∨ ∃ r, r ∈ reductionsOn g items t := by
  have hrow : ∀ (all : IdSet) (row : Item × IdSet),
      t ∈ (if row.1.isComplete g then all ∪ row.2 else all) ↔
        t ∈ all ∨ row.1.isComplete g = true ∧ t ∈ row.2 := by
    intro all row
    by_cases hcomplete : row.1.isComplete g = true
    · simp [hcomplete]
    · simp [hcomplete]
  have hshifted : t ∈ IdSet.ofList (transitions.filterMap (·.1.terminal?)) ↔
      ∃ next, (.terminal t, next) ∈ transitions := by
    rw [IdSet.mem_ofList, List.mem_filterMap]
    constructor
    · rintro ⟨⟨x, next⟩, hmem, hx⟩
      cases x with
      | terminal a =>
        cases hx
        exact ⟨next, hmem⟩
      | nonterminal n => cases hx
    · rintro ⟨next, hmem⟩
      exact ⟨_, hmem, rfl⟩
  have hreduced : (∃ row ∈ items.toList, row.1.isComplete g = true ∧ t ∈ row.2) ↔
      ∃ r, r ∈ reductionsOn g items t := by
    rw [exists_row_iff (p := fun i l => i.isComplete g = true ∧ t ∈ l)]
    simp only [mem_reductionsOn]
    constructor
    · rintro ⟨i, hi, hcomplete, ht⟩
      exact ⟨i.rule, i, hi, hcomplete, ht, rfl⟩
    · rintro ⟨_, i, hi, hcomplete, ht, _⟩
      exact ⟨i, hi, hcomplete, ht⟩
  rw [competedTerminals, foldl_iff (motive := (t ∈ ·)) hrow, hshifted, hreduced]

/-- For each rule its left-hand side and its length are kept. -/
theorem getElem?_reductionsOf (h : g.Augmented) (k : Nat) :
    (Automaton.reductionsOf g)[k]? = g.rules[k]?.map fun r => (r.left, r.right.length) := by
  have hfold : ∀ (rules : List Rule), (∀ r ∈ rules, r ∈ g.ruleList) →
      ∀ table : Std.TreeMap Nat (Nat × Nat),
        (rules.foldl (fun table r => table.insert r.id (r.left, r.right.length)) table)[k]? =
          if ∃ r ∈ rules, r.id = k then g.rules[k]?.map fun r => (r.left, r.right.length)
          else table[k]? := by
    intro rules
    induction rules with
    | nil => simp
    | cons r rules ih =>
      intro hrules table
      rw [List.foldl_cons, ih fun r' hr' => hrules r' (List.mem_cons_of_mem _ hr')]
      by_cases hlater : ∃ r' ∈ rules, r'.id = k
      · simp [hlater]
      · rw [if_neg hlater, Std.TreeMap.getElem?_insert]
        by_cases hid : r.id = k
        · have hlookup := h.mem_ruleList.mp (hrules r List.mem_cons_self)
          rw [hid] at hlookup
          simp [hid, hlookup]
        · simp [hid, hlater]
  rw [Automaton.reductionsOf, hfold g.ruleList fun _ hr => hr]
  split
  · rfl
  · rename_i hnone
    cases hk : g.rules[k]? with
    | none => simp
    | some r =>
      exact absurd ⟨r, Grammar.mem_ruleList_iff_exists.mpr ⟨k, hk⟩, h.id_eq hk⟩ hnone

/-! ## Faithful automata -/

/-- The action that is chosen in a state on a terminal, and the conflict that it settles. -/
def State.choice (g : Grammar) (st : State) (t : Nat) :
    Action × Option (ConflictKind × Resolution) :=
  resolve g t (st.target? (.terminal t)) (reductionsOn g st.items t)

/-- What an action means to a parser: a reduction names both sides of its rule. -/
def Action.toParse (g : Grammar) : Action → ParseAction Nat Nat Nat
  | shift next => .shift next
  | reduce rule =>
      match g.rules[rule]? with
      | some r => .reduce rule r.left r.right.length
      | none => .fail
  | accept => .accept
  | fail => .fail

namespace Automaton.Faithful

variable {first : FirstTable} {mode : MergeMode} {a : Automaton} {kernel : Nat → ItemSet}
  {s : Nat} {st : State}

/-- The items of a state belong to rules. -/
theorem fits (h : g.Augmented) (hfirst : first.Within g) (hf : a.Faithful g first mode kernel)
    (hst : a.states[s]? = some st) : ∀ i ∈ st.items, i.Fits g := by
  rw [hf.items hst]
  exact fun i hi => (hf.arises hst).fits h hfirst hi

/-- A state has one edge at most on each symbol. -/
theorem target?_iff (hf : a.Faithful g first mode kernel) (hst : a.states[s]? = some st)
    {x : Symbol} {t : Nat} : st.target? x = some t ↔ (x, t) ∈ st.transitions := by
  apply lookup_eq_some_iff_mem
  rw [hf.symbols hst]
  exact nodup_nextSymbols _

/-- A state has an edge on each symbol that stands after a marker. -/
theorem exists_target_iff (hf : a.Faithful g first mode kernel) (hst : a.states[s]? = some st)
    {x : Symbol} : (∃ t, st.target? x = some t) ↔ ∃ i ∈ st.items, i.next? g = some x := by
  simp only [hf.target?_iff hst]
  rw [← mem_nextSymbols, ← hf.symbols hst, List.mem_map]
  constructor
  · rintro ⟨t, ht⟩
    exact ⟨(x, t), ht, rfl⟩
  · rintro ⟨⟨y, t⟩, ht, rfl⟩
    exact ⟨t, ht⟩

/-- A state acts on the terminals on which something competes. -/
theorem action?_eq (hf : a.Faithful g first mode kernel) (hst : a.states[s]? = some st) (t : Nat) :
    st.action? t = if t ∈ competedTerminals g st.items st.transitions then some (st.choice g t).1
      else none := by
  have hrows : ∀ l : List Nat,
      (l.map fun t => (t, (actionOn g s st.items st.transitions t).1)).lookup t =
        if t ∈ l then some (st.choice g t).1 else none := by
    intro l
    induction l with
    | nil => rfl
    | cons b l ih =>
      rw [List.map_cons, List.lookup_cons, ih]
      by_cases htb : t = b
      · subst htb
        simp only [BEq.rfl, List.mem_cons_self, if_true]
        rfl
      · have hbeq : (t == b) = false := beq_eq_false_iff_ne.mpr htb
        simp [hbeq, htb]
  have hall := hrows (competedTerminals g st.items st.transitions).toList
  simp only [IdSet.mem_toList] at hall
  rw [State.action?, hf.actions hst, actionRows, List.map_map, ← hall]
  rfl

/-- Where nothing competes there is nothing to choose. -/
theorem choice_of_not_competed (hf : a.Faithful g first mode kernel)
    (hst : a.states[s]? = some st) {t : Nat}
    (ht : t ∉ competedTerminals g st.items st.transitions) : st.choice g t = (.fail, none) := by
  rw [mem_competedTerminals, not_or] at ht
  have hshift : st.target? (.terminal t) = none := by
    rw [Option.eq_none_iff_forall_ne_some]
    intro next hnext
    exact ht.1 ⟨next, (hf.target?_iff hst).mp hnext⟩
  have hreduce : reductionsOn g st.items t = [] :=
    List.eq_nil_iff_forall_not_mem.mpr fun r hr => ht.2 ⟨r, hr⟩
  rw [State.choice, hshift, hreduce]
  rfl

/-- What a parser does in a state is what was chosen there. -/
theorem action_eq (h : g.Augmented) (hf : a.Faithful g first mode kernel)
    (hst : a.states[s]? = some st) (lookahead : Option Nat) :
    a.table.action s lookahead = (st.choice g (lookahead.getD endOfInput)).1.toParse g := by
  show a.parseAction s lookahead = _
  rw [parseAction, state?, hst, Option.bind_some, hf.action?_eq hst]
  by_cases ht : lookahead.getD endOfInput ∈ competedTerminals g st.items st.transitions
  · rw [if_pos ht]
    cases (st.choice g (lookahead.getD endOfInput)).1 with
    | shift next => rfl
    | reduce rule =>
      dsimp only [Action.toParse]
      rw [hf.reductions, getElem?_reductionsOf h]
      cases g.rules[rule]? <;> rfl
    | accept => rfl
    | fail => rfl
  · rw [if_neg ht, hf.choice_of_not_competed hst ht]
    rfl

/-- After a reduction the parser takes the edge on the left-hand side. -/
theorem goto_eq (hf : a.Faithful g first mode kernel) (hst : a.states[s]? = some st) (n : Nat) :
    a.table.goto s n = st.target? (.nonterminal n) := by
  rw [← State.goto?_eq_target? (hf.gotos hst)]
  simp only [table, state?, hst, Option.bind_some]

/-- The conflicts of an automaton are those met in its states. -/
theorem mem_conflicts (hf : a.Faithful g first mode kernel) {c : Conflict} :
    c ∈ a.conflicts ↔ ∃ s st, a.states[s]? = some st ∧ ∃ t kind resolution,
      (st.choice g t).2 = some (kind, resolution) ∧
      c = ⟨s, t, kind, st.target? (.terminal t), reductionsOn g st.items t, resolution,
        (st.choice g t).1⟩ := by
  rw [hf.conflicts]
  refine exists_congr fun s => exists_congr fun st => and_congr_right fun hst => ?_
  simp only [actionRows, List.mem_filterMap, List.mem_map, IdSet.mem_toList]
  constructor
  · rintro ⟨row, ⟨t, _, rfl⟩, hc⟩
    obtain ⟨⟨kind, resolution⟩, hcompetition, rfl⟩ := Option.map_eq_some_iff.mp hc
    exact ⟨t, kind, resolution, hcompetition, rfl⟩
  · rintro ⟨t, kind, resolution, hcompetition, rfl⟩
    have ht : t ∈ competedTerminals g st.items st.transitions := by
      by_contra hnot
      rw [hf.choice_of_not_competed hst hnot] at hcompetition
      cases hcompetition
    refine ⟨_, ⟨t, ht, rfl⟩, ?_⟩
    exact Option.map_eq_some_iff.mpr ⟨(kind, resolution), hcompetition, rfl⟩

end Automaton.Faithful
end ParserGen
