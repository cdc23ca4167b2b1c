import ParserGen.Proofs.Automaton.Reading
import ParserGen.Proofs.Grammar.RightContexts

/-!
# States as sets of valid items

An item is valid for a string of symbols if some rightmost derivation comes to where the symbols
before the marker have been read at the end of that string.  Without merging, the state that a
string leads to holds the valid items and no others.  States with merged lookaheads hold the valid
items too, and others.

Main results:

- Theorem `Automaton.Faithful.lookaheads_of_valid`: valid items are in the states.
- Theorem `Automaton.Faithful.exists_valid_of_items`: in every mode the items of the states are
  valid with some lookahead.
- Theorem `Automaton.Faithful.valid_of_lookaheads`: without merging nothing else is in the states.
- Theorem `Automaton.canonical_items_iff_valid`: a string can be read if and only if some item is
  valid for it, and leads to the valid items.
-/

namespace ParserGen

open ItemSet

namespace Grammar

variable {g : Grammar} {γ : List Symbol} {i : Item} {t : Nat}

/-- The item of a rule `A := α β` with the marker after `α` is valid with a lookahead for the string
`δ α` if a rightmost derivation from the augmented start symbol comes to `δ A z`, which the rule
takes to `δ α β z`, and the lookahead is the first terminal of `z`, or the end of input. -/
def Valid (g : Grammar) (γ : List Symbol) (i : Item) (t : Nat) : Prop :=
  ∃ r ∈ g.ruleList, ∃ (α β δ : List Symbol) (z rules : List Nat),
    r.right = α ++ β ∧ i = ⟨r.id, α.length⟩ ∧ γ = δ ++ α ∧ t = upcoming z ∧
      g.RightmostDerives [.nonterminal augmentedStart] rules
        (δ ++ .nonterminal r.left :: sentence z)

theorem valid_iff : g.Valid γ i t ↔ ∃ r ∈ g.ruleList, ∃ (α β δ : List Symbol) (z : List Nat),
    r.right = α ++ β ∧ i = ⟨r.id, α.length⟩ ∧ γ = δ ++ α ∧ t = upcoming z ∧
      g.RightContext δ r.left z := by
  simp only [Valid, rightContext_iff, exists_and_left]

/-- In the beginning the augmented rule is valid, with the end of input ahead. -/
theorem Augmented.valid_initial (h : g.Augmented) :
    g.Valid [] (Item.start augmentedRule) endOfInput :=
  ⟨_, h.rule_zero_mem, [], _, [], [], [], rfl, rfl, rfl, rfl, .refl _⟩

/-- A valid item stays valid when the symbol after its marker is read. -/
theorem Valid.advance (h : g.Augmented) (hvalid : g.Valid γ i t) {x : Symbol}
    (hx : i.next? g = some x) : g.Valid (γ ++ [x]) i.advance t := by
  obtain ⟨r, hr, α, β, δ, z, rules, hright, rfl, rfl, rfl, hderives⟩ := hvalid
  obtain ⟨rest, hrest⟩ := Item.next?_eq_some_iff.mp hx
  rw [Item.rest_of_rule_eq h hr rfl, hright, List.drop_left] at hrest
  refine ⟨r, hr, α ++ [x], rest, δ, z, rules, ?_, ?_, ?_, rfl, hderives⟩
  · rw [hright, hrest, List.append_assoc, List.singleton_append]
  · rw [List.length_append]
    rfl
  · rw [List.append_assoc]

/-- Where an item with a nonterminal after its marker is valid, the rules of the nonterminal are
valid with every terminal that the symbols after it can yield first, or, if they yield nothing, with
the lookahead of the item. -/
theorem Valid.start (h : g.Augmented) (hvalid : g.Valid γ i t) {r : Rule} (hr : r ∈ g.ruleList)
    {rest : List Symbol} (hrest : i.rest g = .nonterminal r.left :: rest) {v : List Nat}
    (hv : g.Yields rest v) : g.Valid γ (Item.start r.id) (v.head?.getD t) := by
  obtain ⟨r', hr', α, β, δ, z, hright, rfl, rfl, rfl, hcontext⟩ := valid_iff.mp hvalid
  rw [Item.rest_of_rule_eq h hr' rfl, hright, List.drop_left] at hrest
  subst hrest
  refine valid_iff.mpr ⟨r, hr, [], r.right, δ ++ α, v ++ z, rfl, rfl, (List.append_nil _).symm, ?_,
    hcontext.within hr' hright hv⟩
  cases v <;> rfl

end Grammar

/-! ## Items that a closure adds -/

namespace ItemSet

variable {g : Grammar} {first : FirstTable} {s : ItemSet} {γ : List Symbol} {i : Item} {t : Nat}

/-- If all symbols of the rules are known, so are those after a marker. -/
theorem all_knows_of_rest (hknown : ∀ r ∈ g.ruleList, r.right.all g.knows = true) {x : Symbol}
    {rest : List Symbol} (hrest : i.rest g = x :: rest) : rest.all g.knows = true := by
  refine List.all_eq_true.mpr fun y hy => ?_
  obtain ⟨r, hr, hright⟩ := mem_right_of_mem_rest (hrest ▸ List.mem_cons_of_mem x hy)
  exact List.all_eq_true.mp (hknown r hr) y hright

/-- The items of a closure are valid if those of the set are. -/
theorem ClosureItem.exists_valid (h : g.Augmented) (hproductive : g.Productive)
    (hknown : ∀ r ∈ g.ruleList, r.right.all g.knows = true)
    (hs : ∀ k ∈ s, ∃ t, g.Valid γ k t) (hi : ClosureItem g s i) : ∃ t, g.Valid γ i t := by
  induction hi with
  | kernel hk => exact hs _ hk
  | start _ hrest hr ih =>
    obtain ⟨t, hvalid⟩ := ih
    obtain ⟨v, hv⟩ := hproductive.exists_yields (all_knows_of_rest hknown hrest)
    exact ⟨_, hvalid.start h hr hrest hv⟩

/-- The lookaheads of a closure are valid if those of the set are. -/
theorem ClosureLookahead.valid (h : g.Augmented) (htruthful : first.Truthful g)
    (hproductive : g.Productive) (hknown : ∀ r ∈ g.ruleList, r.right.all g.knows = true)
    (hs : ∀ k ∈ s, ∃ t, g.Valid γ k t) (hlookaheads : ∀ k t, t ∈ s.lookaheads k → g.Valid γ k t)
    (ht : ClosureLookahead g first s i t) : g.Valid γ i t := by
  induction ht with
  | kernel ht => exact hlookaheads _ _ ht
  | begins hi hrest hr hbegins =>
    obtain ⟨_, hvalid⟩ := hi.exists_valid h hproductive hknown hs
    obtain ⟨w, hw⟩ := hproductive.yields_of_begins hknown (htruthful.begins hbegins)
      (all_knows_of_rest hknown hrest)
    exact hvalid.start h hr hrest hw
  | passed _ hrest hr hnullable ih =>
    exact ih.start h hr hrest (htruthful.yields_nil hnullable)

end ItemSet

namespace Automaton

variable {g : Grammar} {first : FirstTable} {mode : MergeMode} {a : Automaton}
  {kernel : Nat → ItemSet} {γ : List Symbol} {i : Item} {s t : Nat} {st : State}

namespace Faithful

/-! ## Valid items are found -/

/-- Where a nonterminal stands in a rightmost derivation, its rules are begun, and the next terminal
is among their lookaheads. -/
theorem start_lookaheads_of_rightContext (havoid : g.AvoidsReserved) (h : g.Augmented)
    (hfirst : first.Within g) (hclosed : first.Closed g) (hf : a.Faithful g first mode kernel)
    {before : List Symbol} {n : Nat} {after : List Nat} (hcontext : g.RightContext before n after)
    {r : Rule} (hr : r ∈ g.ruleList) (hleft : r.left = n) :
    ∃ s st, a.read? before = some s ∧ a.states[s]? = some st ∧
      upcoming after ∈ st.items.lookaheads (Item.start r.id) := by
  induction hcontext generalizing r with
  | start =>
    obtain ⟨st, hst⟩ := state_of_lt hf.pos
    have hid : r.id = augmentedRule := by
      by_contra hne
      exact (havoid r hr hne).1 hleft
    rw [hid]
    exact ⟨initialState, st, rfl, hst, hf.endOfInput_mem_initial h hst⟩
  | @within r' before α β n after v _ hr' hright hv ih =>
    obtain ⟨s, st, hs, hst, hahead⟩ := ih hr' rfl
    obtain ⟨u, stu, hu, hstu, hmem, hkept⟩ :=
      hf.lookaheads_of_read h hr' (m := 0) hright hst (mem_of_mem_lookaheads hahead)
    rw [Nat.zero_add] at hmem hkept
    have hrest : Item.rest g ⟨r'.id, α.length⟩ = .nonterminal r.left :: β := by
      rw [Item.rest_of_rule_eq h hr' rfl, hright, List.drop_left, hleft]
    refine ⟨u, stu, ?_, hstu, hf.start_lookaheads h hfirst hstu hmem hrest hr ?_⟩
    · rw [read?_append, hs]
      exact hu
    · exact hclosed.mem_firstWith_of_yields hv (hkept _ hahead)

/-- A string for which an item is valid can be read, and leads to a state that has the item with its
lookahead. -/
theorem lookaheads_of_valid (havoid : g.AvoidsReserved) (h : g.Augmented)
    (hfirst : first.Within g) (hclosed : first.Closed g) (hf : a.Faithful g first mode kernel)
    (hvalid : g.Valid γ i t) :
    ∃ s st, a.read? γ = some s ∧ a.states[s]? = some st ∧ t ∈ st.items.lookaheads i := by
  obtain ⟨r, hr, α, β, δ, z, hright, rfl, rfl, rfl, hcontext⟩ := Grammar.valid_iff.mp hvalid
  obtain ⟨s, st, hs, hst, hahead⟩ :=
    hf.start_lookaheads_of_rightContext havoid h hfirst hclosed hcontext hr rfl
  obtain ⟨u, stu, hu, hstu, _, hkept⟩ :=
    hf.lookaheads_of_read h hr (m := 0) hright hst (mem_of_mem_lookaheads hahead)
  rw [Nat.zero_add] at hkept
  refine ⟨u, stu, ?_, hstu, hkept _ hahead⟩
  rw [read?_append, hs]
  exact hu

/-! ## Nothing else is found -/

/-- In every mode, the items of the kernel that a string leads to are valid. -/
theorem exists_valid_of_kernel (h : g.Augmented) (hfirst : first.Within g)
    (hproductive : g.Productive) (hknown : ∀ r ∈ g.ruleList, r.right.all g.knows = true)
    (hf : a.Faithful g first mode kernel) (hs : a.read? γ = some s) (hi : i ∈ kernel s) :
    ∃ t, g.Valid γ i t := by
  induction γ using List.reverseRecOn generalizing s i with
  | nil =>
    cases hs
    rw [mem_initialKernel.mp (hf.initial.extends_.mem_iff.mp hi)]
    exact ⟨_, h.valid_initial⟩
  | append_singleton γ x ih =>
    obtain ⟨u, stu, hu, hstu, hx⟩ := read?_concat_eq_some_iff.mp hs
    have hsuccessor := (hf.target_state hstu hx).2.extends_.mem_iff.mp hi
    obtain ⟨j, hj, hnext, rfl⟩ := mem_advanceOver.mp hsuccessor
    obtain ⟨t, hvalid⟩ := ((mem_closure h.keyed hfirst).mp hj).exists_valid h hproductive hknown
      fun _ hk => ih hu hk
    exact ⟨t, hvalid.advance h hnext⟩

/-- In every mode, the items of the state that a string leads to are valid. -/
theorem exists_valid_of_items (h : g.Augmented) (hfirst : first.Within g)
    (hproductive : g.Productive) (hknown : ∀ r ∈ g.ruleList, r.right.all g.knows = true)
    (hf : a.Faithful g first mode kernel) (hs : a.read? γ = some s)
    (hst : a.states[s]? = some st) (hi : i ∈ st.items) : ∃ t, g.Valid γ i t := by
  rw [hf.items hst] at hi
  exact ((mem_closure h.keyed hfirst).mp hi).exists_valid h hproductive hknown
    fun _ hk => hf.exists_valid_of_kernel h hfirst hproductive hknown hs hk

/-- Without merging, the lookaheads in the kernel that a string leads to are valid. -/
theorem valid_of_kernel (h : g.Augmented) (hfirst : first.Within g) (htruthful : first.Truthful g)
    (hproductive : g.Productive) (hknown : ∀ r ∈ g.ruleList, r.right.all g.knows = true)
    (hf : a.Faithful g first .canonical kernel) (hs : a.read? γ = some s)
    (ht : t ∈ (kernel s).lookaheads i) : g.Valid γ i t := by
  induction γ using List.reverseRecOn generalizing s i t with
  | nil =>
    cases hs
    rw [hf.initial.eq_of_canonical rfl] at ht
    obtain ⟨rfl, rfl⟩ := mem_lookaheads_initialKernel.mp ht
    exact h.valid_initial
  | append_singleton γ x ih =>
    obtain ⟨u, stu, hu, hstu, hx⟩ := read?_concat_eq_some_iff.mp hs
    rw [(hf.target_state hstu hx).2.eq_of_canonical rfl] at ht
    obtain ⟨j, hnext, rfl, hj⟩ := mem_lookaheads_advanceOver.mp ht
    exact (((mem_lookaheads_closure h.keyed hfirst).mp hj).valid h htruthful hproductive hknown
      (fun _ hk => hf.exists_valid_of_kernel h hfirst hproductive hknown hu hk)
      fun _ _ hk => ih hu hk).advance h hnext

/-- Without merging, the state that a string leads to has valid items only. -/
theorem valid_of_lookaheads (h : g.Augmented) (hfirst : first.Within g)
    (htruthful : first.Truthful g) (hproductive : g.Productive)
    (hknown : ∀ r ∈ g.ruleList, r.right.all g.knows = true)
    (hf : a.Faithful g first .canonical kernel) (hs : a.read? γ = some s)
    (hst : a.states[s]? = some st) :
    (∀ i ∈ st.items, ∃ t, g.Valid γ i t) ∧
      ∀ i t, t ∈ st.items.lookaheads i → g.Valid γ i t := by
  refine ⟨fun _ hi => hf.exists_valid_of_items h hfirst hproductive hknown hs hst hi, ?_⟩
  intro i t ht
  rw [hf.items hst] at ht
  exact ((mem_lookaheads_closure h.keyed hfirst).mp ht).valid h htruthful hproductive hknown
    (fun _ hk => hf.exists_valid_of_kernel h hfirst hproductive hknown hs hk)
    fun _ _ hk => hf.valid_of_kernel h hfirst htruthful hproductive hknown hs hk

/-- No state is without items. -/
theorem exists_mem_items (h : g.Augmented) (hf : a.Faithful g first mode kernel)
    (hs : a.read? γ = some s) (hst : a.states[s]? = some st) : ∃ i, i ∈ st.items := by
  induction γ using List.reverseRecOn generalizing s with
  | nil =>
    cases hs
    exact ⟨_, mem_of_mem_lookaheads (hf.endOfInput_mem_initial h hst)⟩
  | append_singleton γ x _ =>
    obtain ⟨u, stu, _, hstu, hx⟩ := read?_concat_eq_some_iff.mp hs
    obtain ⟨i, hi, hnext⟩ := (hf.exists_target_iff hstu).mp ⟨s, hx⟩
    exact ⟨i.advance, hf.advance_mem h hstu hx hst hi hnext⟩

end Faithful

/-- Without merging, a string of symbols can be read from the initial state if and only if some item
is valid for it, and then leads to the state of the valid items: it has an item with a lookahead if
and only if the item is valid with this lookahead. -/
theorem canonical_items_iff_valid {declarations : List Declaration}
    (hg : Grammar.define declarations = .ok g) (havoid : g.AvoidsReserved)
    (hproductive : g.Productive) (hrun : (generate .canonical g).result = .ok a)
    (γ : List Symbol) :
    ((∃ s, a.read? γ = some s) ↔ ∃ i t, g.Valid γ i t) ∧
      ∀ s, a.read? γ = some s → ∃ st, a.state? s = some st ∧
        (∀ i, i ∈ st.items ↔ ∃ t, g.Valid γ i t) ∧
        ∀ i t, t ∈ st.items.lookaheads i ↔ g.Valid γ i t := by
  have h := Grammar.augmented_of_define hg
  have hfirst := FirstTable.within_ofGrammar g
  have hclosed := closed_of_generate hrun
  have htruthful := FirstTable.truthful_ofGrammar g
  obtain ⟨_, hf⟩ := faithful_of_generate h hrun
  have hknown : ∀ r ∈ g.ruleList, r.right.all g.knows = true := fun r hr =>
    (Bool.and_eq_true_iff.mp (knowsRule_of_generate hrun hr)).2
  have hfound : ∀ {s st i t}, a.read? γ = some s → a.states[s]? = some st → g.Valid γ i t →
      t ∈ st.items.lookaheads i := by
    intro s st i t hs hst hvalid
    obtain ⟨s', st', hs', hst', ht⟩ := hf.lookaheads_of_valid havoid h hfirst hclosed hvalid
    obtain rfl := Option.some.inj (hs.symm.trans hs')
    obtain rfl := Option.some.inj (hst.symm.trans hst')
    exact ht
  refine ⟨⟨?_, ?_⟩, ?_⟩
  · rintro ⟨s, hs⟩
    obtain ⟨st, hst⟩ := hf.state_of_read hs
    obtain ⟨i, hi⟩ := hf.exists_mem_items h hs hst
    exact ⟨i, (hf.valid_of_lookaheads h hfirst htruthful hproductive hknown hs hst).1 i hi⟩
  · rintro ⟨i, t, hvalid⟩
    obtain ⟨s, _, hs, _⟩ := hf.lookaheads_of_valid havoid h hfirst hclosed hvalid
    exact ⟨s, hs⟩
  · intro s hs
    obtain ⟨st, hst⟩ := hf.state_of_read hs
    obtain ⟨hitems, hlookaheads⟩ :=
      hf.valid_of_lookaheads h hfirst htruthful hproductive hknown hs hst
    refine ⟨st, hst, fun i => ⟨hitems i, ?_⟩, fun i t => ⟨hlookaheads i t, hfound hs hst⟩⟩
    rintro ⟨t, hvalid⟩
    exact mem_of_mem_lookaheads (hfound hs hst hvalid)

set_option maxRecDepth 100000 in
theorem canonical_items_iff_valid_ambiguousSum :
    ∃ g a, Grammar.define ambiguousSum = .ok g ∧ g.AvoidsReserved ∧ g.Productive ∧
      (generate .canonical g).result = .ok a ∧
      (∃ s, a.read? [.nonterminal 1, .terminal 1] = some s) ∧
      ((∃ s, a.read? [.nonterminal 1, .terminal 1] = some s) ↔
        ∃ i t, g.Valid [.nonterminal 1, .terminal 1] i t) ∧
      ∀ s, a.read? [.nonterminal 1, .terminal 1] = some s → ∃ st, a.state? s = some st ∧
        (∀ i, i ∈ st.items ↔ ∃ t, g.Valid [.nonterminal 1, .terminal 1] i t) ∧
        ∀ i t, t ∈ st.items.lookaheads i ↔ g.Valid [.nonterminal 1, .terminal 1] i t := by
  have hsome : (ofDeclarations .canonical ambiguousSum).any
      (fun built => decide (built.1.AvoidsReserved ∧ built.1.start = 1 ∧
        built.1.nonterminals.keys = [0, 1] ∧ ⟨2, 1, [.terminal 2], none, 2⟩ ∈ built.1.ruleList ∧
        (built.2.read? [.nonterminal 1, .terminal 1]).isSome)) = true := by
    decide +kernel
  obtain ⟨g, a, hg, hrun, hp⟩ := exists_of_ofDeclarations hsome
  obtain ⟨havoid, hstart, hkeys, hrule, hread⟩ := of_decide_eq_true hp
  have hzero := (Grammar.augmented_of_define hg).rule_zero_mem
  rw [hstart] at hzero
  have hsum : g.Derives [.nonterminal 1] (Grammar.sentence [2]) :=
    .single ⟨_, hrule, [], [], rfl, rfl⟩
  have hproductive : g.Productive := by
    intro n hn
    rw [← IndexMap.mem_keys, hkeys, List.mem_cons, List.mem_singleton] at hn
    rcases hn with rfl | rfl
    · exact ⟨[2], .head ⟨_, hzero, [], [], rfl, rfl⟩ hsum⟩
    · exact ⟨[2], hsum⟩
  exact ⟨g, a, hg, havoid, hproductive, hrun, Option.isSome_iff_exists.mp hread,
    canonical_items_iff_valid hg havoid hproductive hrun _⟩

end Automaton
end ParserGen
