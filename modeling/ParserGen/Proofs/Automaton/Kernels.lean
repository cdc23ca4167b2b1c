import ParserGen.Automaton.StateGraph
import ParserGen.Proofs.Automaton.Transitions

/-!
# The kernels of a construction

Every kernel that the construction of an automaton works with arises in one of three ways: it is the
initial one, it is read from the closure of a kernel, or it is the union of two kernels that the
merge mode lets share a state.  What is proved by induction over these ways holds of every state,
also of states that are given up later.

Main results:

- Theorem `Arises.mem_kernelItems`: the items of a kernel are the start of the augmented rule and
  items whose marker has moved.
- Theorem `Arises.mem_kernelTerminals`: the lookaheads are the end of input and terminals of
  right-hand sides.
- Theorem `Arises.card_facts_lt`: all kernels draw on one finite set of pairs, and a kernel that
  grows has more of them.
-/

namespace ParserGen

open ItemSet

/-- The initial kernel has one item. -/
theorem mem_initialKernel {i : Item} :
    i ∈ StateGraph.initialKernel ↔ i = Item.start augmentedRule := by
  simp only [StateGraph.initialKernel, ItemSet.ofRows, List.foldl_cons, List.foldl_nil,
    Std.ExtTreeMap.mem_insert, Std.LawfulEqOrd.compare_eq_iff_eq, not_mem_empty, or_false]
  exact eq_comm

/-- In the initial kernel the end of input is expected. -/
theorem mem_lookaheads_initialKernel {i : Item} {t : Nat} :
    t ∈ StateGraph.initialKernel.lookaheads i ↔
      i = Item.start augmentedRule ∧ t = endOfInput := by
  have hrow : StateGraph.initialKernel.lookaheads (Item.start augmentedRule) =
      IdSet.singleton endOfInput := by
    simp [lookaheads_eq, StateGraph.initialKernel, ItemSet.ofRows]
  constructor
  · intro ht
    have hi := mem_initialKernel.mp (mem_of_mem_lookaheads ht)
    rw [hi, hrow, IdSet.mem_singleton] at ht
    exact ⟨hi, ht⟩
  · rintro ⟨rfl, rfl⟩
    rw [hrow, IdSet.mem_singleton]

/-- The kernels that the construction in a merge mode can come upon. -/
inductive Arises (g : Grammar) (first : FirstTable) (mode : MergeMode) : ItemSet → Prop
  | initial : Arises g first mode StateGraph.initialKernel
  | successor {kernel : ItemSet} {x : Symbol} : Arises g first mode kernel →
      x ∈ (kernel.closure g first).nextSymbols g →
      Arises g first mode (kernel.successor g first x)
  | merged {kernel incoming : ItemSet} : Arises g first mode kernel →
      Arises g first mode incoming → kernel.core = incoming.core →
      kernel.decideMerge mode incoming = .merge → Arises g first mode (kernel.join incoming)

/-- What the transitions of a kernel that arises lead to arises, too. -/
theorem Arises.of_mem_transitions {g : Grammar} {first : FirstTable} {mode : MergeMode}
    {kernel : ItemSet} (hk : Arises g first mode kernel) {row : Symbol × ItemSet}
    (hrow : row ∈ (kernel.closure g first).transitions g) : Arises g first mode row.2 := by
  rw [transitions_closure] at hrow
  obtain ⟨x, hx, rfl⟩ := List.mem_map.mp hrow
  exact hk.successor hx

/-! ## Items -/

namespace Item

/-- The item belongs to a rule and its marker stands within the right-hand side. -/
def Fits (g : Grammar) (i : Item) : Prop :=
  ∃ r ∈ g.ruleList, i.rule = r.id ∧ i.marker ≤ r.right.length

/-- The symbols after the marker are the rest of the right-hand side. -/
theorem rest_of_rule_eq {g : Grammar} (h : g.Augmented) {i : Item} {r : Rule}
    (hr : r ∈ g.ruleList) (hi : i.rule = r.id) : i.rest g = r.right.drop i.marker := by
  simp only [Item.rest, hi, h.mem_ruleList.mp hr]

/-- An item is complete when its marker has passed the right-hand side. -/
theorem isComplete_of_rule_eq {g : Grammar} (h : g.Augmented) {i : Item} {r : Rule}
    (hr : r ∈ g.ruleList) (hi : i.rule = r.id) :
    i.isComplete g = true ↔ r.right.length ≤ i.marker := by
  simp only [Item.isComplete, hi, h.mem_ruleList.mp hr, decide_eq_true_eq]

/-- The whole right-hand side has been recognised if there is nothing after the marker. -/
theorem Fits.isComplete_iff {g : Grammar} (h : g.Augmented) {i : Item} (hi : i.Fits g) :
    i.isComplete g = true ↔ i.rest g = [] := by
  obtain ⟨r, hr, hid, _⟩ := hi
  rw [isComplete_of_rule_eq h hr hid, rest_of_rule_eq h hr hid, List.drop_eq_nil_iff]

/-- A marker can move only within the right-hand side. -/
theorem exists_rule_of_next? {g : Grammar} {i : Item} {x : Symbol} (h : g.Augmented)
    (hx : i.next? g = some x) :
    ∃ r ∈ g.ruleList, i.rule = r.id ∧ i.marker < r.right.length ∧ r.right[i.marker]? = some x := by
  unfold next? rest at hx
  split at hx
  · rename_i r hr
    have hid := h.id_eq hr
    rw [List.head?_drop] at hx
    refine ⟨r, Grammar.mem_ruleList_iff_exists.mpr ⟨_, hr⟩, hid.symm, ?_, hx⟩
    exact (List.getElem?_eq_some_iff.mp hx).1
  · cases hx

end Item

variable {g : Grammar} {first : FirstTable} {mode : MergeMode}

/-- The items that kernels consist of: the start of the augmented rule and the items whose marker
has moved. -/
def Grammar.kernelItems (g : Grammar) : List Item :=
  Item.start augmentedRule :: g.ruleList.flatMap fun r =>
    (List.range r.right.length).map fun m => ⟨r.id, m + 1⟩

/-- There is one kernel item for each symbol on a right-hand side, and the initial one. -/
theorem Grammar.length_kernelItems (g : Grammar) : g.kernelItems.length = g.symbolCount + 1 := by
  simp [kernelItems, symbolCount, List.length_flatMap]

/-- An item whose marker has moved is a kernel item. -/
theorem Item.advance_mem_kernelItems (h : g.Augmented) {i : Item} {x : Symbol}
    (hx : i.next? g = some x) : i.advance ∈ g.kernelItems := by
  obtain ⟨r, hr, hid, hlt, _⟩ := i.exists_rule_of_next? h hx
  refine List.mem_cons_of_mem _ (List.mem_flatMap.mpr ⟨r, hr, List.mem_map.mpr ⟨i.marker, ?_, ?_⟩⟩)
  · exact List.mem_range.mpr hlt
  · rw [Item.advance, hid]

/-- A kernel item belongs to a rule, and its marker is within the right-hand side. -/
theorem Grammar.fits_of_mem_kernelItems (h : g.Augmented) {i : Item} (hi : i ∈ g.kernelItems) :
    i.Fits g := by
  rcases List.mem_cons.mp hi with rfl | hi
  · exact ⟨_, h.rule_zero_mem, rfl, Nat.zero_le _⟩
  · obtain ⟨r, hr, hi⟩ := List.mem_flatMap.mp hi
    obtain ⟨m, hm, rfl⟩ := List.mem_map.mp hi
    exact ⟨r, hr, rfl, List.mem_range.mp hm⟩

/-- Kernels consist of kernel items. -/
theorem Arises.mem_kernelItems (h : g.Augmented) {kernel : ItemSet}
    (hk : Arises g first mode kernel) {i : Item} (hi : i ∈ kernel) : i ∈ g.kernelItems := by
  induction hk with
  | initial =>
    rw [mem_initialKernel.mp hi]
    exact List.mem_cons_self
  | successor _ _ _ =>
    obtain ⟨j, _, hx, rfl⟩ := mem_advanceOver.mp hi
    exact Item.advance_mem_kernelItems h hx
  | merged _ _ _ _ ih ih' =>
    rcases mem_join.mp hi with hi | hi
    · exact ih hi
    · exact ih' hi

/-- A kernel item whose marker has not moved belongs to the augmented rule. -/
theorem Arises.eq_augmentedRule (h : g.Augmented) {kernel : ItemSet}
    (hk : Arises g first mode kernel) {i : Item} (hi : i ∈ kernel) (hzero : i.marker = 0) :
    i.rule = augmentedRule := by
  rcases List.mem_cons.mp (hk.mem_kernelItems h hi) with rfl | hmoved
  · rfl
  · obtain ⟨r, _, hmem⟩ := List.mem_flatMap.mp hmoved
    obtain ⟨m, _, rfl⟩ := List.mem_map.mp hmem
    exact absurd hzero (Nat.succ_ne_zero m)

/-- No kernel is empty. -/
theorem Arises.nonempty {kernel : ItemSet} (hk : Arises g first mode kernel) : ∃ i, i ∈ kernel := by
  induction hk with
  | initial => exact ⟨_, mem_initialKernel.mpr rfl⟩
  | successor _ hx _ =>
    obtain ⟨i, hi, hnext⟩ := mem_nextSymbols.mp hx
    exact ⟨_, mem_advanceOver.mpr ⟨i, hi, hnext, rfl⟩⟩
  | merged _ _ _ _ ih _ =>
    obtain ⟨i, hi⟩ := ih
    exact ⟨i, mem_join.mpr (Or.inl hi)⟩

/-- In all kernels but the initial one the markers have moved. -/
theorem Arises.initial_or_moved {kernel : ItemSet} (hk : Arises g first mode kernel) :
    kernel = StateGraph.initialKernel ∨ ∀ i ∈ kernel, i.marker ≠ 0 := by
  induction hk with
  | initial => exact Or.inl rfl
  | successor _ _ _ =>
    refine Or.inr fun i hi => ?_
    obtain ⟨j, _, _, rfl⟩ := mem_advanceOver.mp hi
    exact Nat.succ_ne_zero _
  | @merged kernel incoming hk hk' hcore _ ih ih' =>
    have hitems := core_eq_iff.mp hcore
    rcases ih with rfl | hmoved
    · rcases ih' with rfl | hmoved'
      · refine Or.inl (ext_lookaheads (fun i => by rw [mem_join, or_self]) fun i => ?_)
        ext t
        rw [lookaheads_join, IdSet.mem_union, or_self]
      · have hstart := (hitems _).mp (mem_initialKernel.mpr rfl)
        exact absurd rfl (hmoved' _ hstart)
    · refine Or.inr fun i hi => hmoved i ?_
      exact (mem_join.mp hi).elim id (hitems i).mpr

/-- The items of a closure that are not in the kernel are starts of rules. -/
theorem ItemSet.ClosureItem.mem_or_start {s : ItemSet} {i : Item} (hi : ClosureItem g s i) :
    i ∈ s ∨ ∃ r ∈ g.ruleList, i = Item.start r.id := by
  cases hi with
  | kernel hi => exact Or.inl hi
  | start _ _ hr => exact Or.inr ⟨_, hr, rfl⟩

/-- The items of the closure of a kernel belong to rules. -/
theorem Arises.fits (h : g.Augmented) (hfirst : first.Within g) {kernel : ItemSet}
    (hk : Arises g first mode kernel) {i : Item} (hi : i ∈ kernel.closure g first) : i.Fits g := by
  rcases ((mem_closure h.keyed hfirst).mp hi).mem_or_start with hi | ⟨r, hr, rfl⟩
  · exact Grammar.fits_of_mem_kernelItems h (hk.mem_kernelItems h hi)
  · exact ⟨r, hr, rfl, Nat.zero_le _⟩

/-! ## Lookaheads -/

/-- The terminals that can be lookaheads: the end of input and those on right-hand sides. -/
def Grammar.kernelTerminals (g : Grammar) : List Nat := endOfInput :: g.rightTerminals

/-- A closure adds only lookaheads that stand on right-hand sides. -/
theorem Grammar.mem_kernelTerminals_of_closure (hfirst : first.Within g) {s : ItemSet}
    (hs : ∀ i t, t ∈ s.lookaheads i → t ∈ g.kernelTerminals) {i : Item} {t : Nat}
    (ht : ClosureLookahead g first s i t) : t ∈ g.kernelTerminals := by
  induction ht with
  | kernel ht => exact hs _ _ ht
  | begins hi hrest hr hbegins =>
    rcases hfirst.mem_firstOfString hbegins with hright | hmem
    · exact List.mem_cons_of_mem _ hright
    · have hafter : Symbol.terminal _ ∈ Item.rest g _ := hrest ▸ List.mem_cons_of_mem _ hmem
      obtain ⟨r', hr', hright⟩ := mem_right_of_mem_rest hafter
      exact List.mem_cons_of_mem _ (Grammar.mem_rightTerminals hr' hright)
  | passed _ _ _ _ ih => exact ih

/-- The lookaheads of a kernel are the end of input and terminals of right-hand sides. -/
theorem Arises.mem_kernelTerminals (h : g.Augmented) (hfirst : first.Within g) {kernel : ItemSet}
    (hk : Arises g first mode kernel) {i : Item} {t : Nat} (ht : t ∈ kernel.lookaheads i) :
    t ∈ g.kernelTerminals := by
  induction hk generalizing i t with
  | initial =>
    rw [(mem_lookaheads_initialKernel.mp ht).2]
    exact List.mem_cons_self
  | successor _ _ ih =>
    obtain ⟨j, _, _, hj⟩ := mem_lookaheads_advanceOver.mp ht
    exact Grammar.mem_kernelTerminals_of_closure hfirst (fun _ _ hi => ih hi)
      ((mem_lookaheads_closure h.keyed hfirst).mp hj)
  | merged _ _ _ _ ih ih' =>
    rw [lookaheads_join, IdSet.mem_union] at ht
    rcases ht with ht | ht
    · exact ih ht
    · exact ih' ht

/-! ## The augmented rule -/

/-- No item asks for the augmented rule, unless a production uses the augmented start symbol. -/
theorem Grammar.AvoidsReserved.id_ne (havoid : g.AvoidsReserved) (h : g.Augmented) {i : Item}
    {r : Rule} {rest : List Symbol} (hrest : i.rest g = .nonterminal r.left :: rest)
    (hr : r ∈ g.ruleList) : r.id ≠ augmentedRule := by
  refine h.id_ne_of_left_ne hr fun hleft => ?_
  have hafter : Symbol.nonterminal augmentedStart ∈ i.rest g := by
    rw [hrest, hleft]
    exact List.mem_cons_self
  obtain ⟨r', hr', hright⟩ := mem_right_of_mem_rest hafter
  by_cases hid : r'.id = augmentedRule
  · have hzero := h.eq_of_id_eq hr' h.rule_zero_mem hid
    rw [hzero, Rule.augmented, List.mem_singleton, Symbol.nonterminal.injEq] at hright
    exact h.start_ne hright.symm
  · exact (havoid r' hr' hid).2.1 hright

/-- The end of input does not stand after a marker, unless a production uses it. -/
theorem Grammar.AvoidsReserved.ne_endOfInput (havoid : g.AvoidsReserved) (h : g.Augmented)
    {i : Item} {t : Nat} (ht : .terminal t ∈ i.rest g) : t ≠ endOfInput := by
  rintro rfl
  obtain ⟨r, hr, hright⟩ := mem_right_of_mem_rest ht
  by_cases hid : r.id = augmentedRule
  · rw [h.eq_of_id_eq hr h.rule_zero_mem hid, Rule.augmented, List.mem_singleton] at hright
    cases hright
  · exact (havoid r hr hid).2.2 hright

/-- A closure adds no item of the augmented rule. -/
theorem ItemSet.ClosureItem.mem_of_augmented (havoid : g.AvoidsReserved) (h : g.Augmented)
    {s : ItemSet} {i : Item} (hi : ClosureItem g s i) (hrule : i.rule = augmentedRule) : i ∈ s := by
  cases hi with
  | kernel hi => exact hi
  | start _ hrest hr => exact absurd hrule (havoid.id_ne h hrest hr)

/-- A closure adds no lookahead to an item of the augmented rule. -/
theorem ItemSet.ClosureLookahead.mem_of_augmented (havoid : g.AvoidsReserved) (h : g.Augmented)
    {s : ItemSet} {i : Item} {t : Nat} (ht : ClosureLookahead g first s i t)
    (hrule : i.rule = augmentedRule) : t ∈ s.lookaheads i := by
  cases ht with
  | kernel ht => exact ht
  | begins _ hrest hr _ => exact absurd hrule (havoid.id_ne h hrest hr)
  | passed _ hrest hr _ => exact absurd hrule (havoid.id_ne h hrest hr)

/-- What was recognised by the augmented rule is followed by the end of input only. -/
theorem Arises.eq_endOfInput (havoid : g.AvoidsReserved) (h : g.Augmented)
    (hfirst : first.Within g) {kernel : ItemSet} (hk : Arises g first mode kernel) {i : Item}
    {t : Nat} (ht : t ∈ kernel.lookaheads i) (hrule : i.rule = augmentedRule) :
    t = endOfInput := by
  induction hk generalizing i with
  | initial => exact (mem_lookaheads_initialKernel.mp ht).2
  | successor _ _ ih =>
    obtain ⟨j, _, rfl, hj⟩ := mem_lookaheads_advanceOver.mp ht
    rw [mem_lookaheads_closure h.keyed hfirst] at hj
    exact ih (hj.mem_of_augmented havoid h hrule) hrule
  | merged _ _ _ _ ih ih' =>
    rw [lookaheads_join, IdSet.mem_union] at ht
    rcases ht with ht | ht
    · exact ih ht hrule
    · exact ih' ht hrule

/-! ## The facts a kernel can state -/

namespace ItemSet

/-- The pairs of an item and a lookahead that kernels draw on. -/
def possibleFacts (g : Grammar) : Finset (Item × Nat) :=
  g.kernelItems.toFinset ×ˢ g.kernelTerminals.toFinset

/-- The pairs of a kernel. -/
def facts (g : Grammar) (kernel : ItemSet) : Finset (Item × Nat) :=
  (possibleFacts g).filter fun fact => fact.2 ∈ kernel.lookaheads fact.1

theorem card_kernelItems_le (g : Grammar) : g.kernelItems.toFinset.card ≤ g.symbolCount + 1 :=
  (List.toFinset_card_le _).trans_eq g.length_kernelItems

/-- There are no more facts that a kernel can state than pairs of kernel items and terminals. -/
theorem card_possibleFacts_le (g : Grammar) :
    (possibleFacts g).card ≤ (g.symbolCount + 1) * (g.symbolCount + 1) := by
  have hterminals : g.kernelTerminals.toFinset.card ≤ g.symbolCount + 1 :=
    (List.toFinset_card_le _).trans (Nat.succ_le_succ g.length_rightTerminals_le)
  rw [possibleFacts, Finset.card_product]
  exact Nat.mul_le_mul (card_kernelItems_le g) hterminals

theorem card_facts_le (g : Grammar) (kernel : ItemSet) :
    (facts g kernel).card ≤ (g.symbolCount + 1) * (g.symbolCount + 1) :=
  (Finset.card_le_card (Finset.filter_subset _ _)).trans (card_possibleFacts_le g)

end ItemSet

/-- The facts of a kernel that arises are all of its lookaheads. -/
theorem Arises.mem_facts (h : g.Augmented) (hfirst : first.Within g) {kernel : ItemSet}
    (hk : Arises g first mode kernel) {i : Item} {t : Nat} :
    (i, t) ∈ kernel.facts g ↔ t ∈ kernel.lookaheads i := by
  rw [ItemSet.facts, Finset.mem_filter, and_iff_right_iff_imp]
  intro ht
  have hi := hk.mem_kernelItems h (mem_of_mem_lookaheads ht)
  rw [possibleFacts, Finset.mem_product]
  exact ⟨List.mem_toFinset.mpr hi, List.mem_toFinset.mpr (hk.mem_kernelTerminals h hfirst ht)⟩

/-- A kernel that takes in another one with the same core, and changes by that, has more facts. -/
theorem Arises.card_facts_lt (h : g.Augmented) (hfirst : first.Within g) {kernel grown : ItemSet}
    (hk : Arises g first mode kernel) (hg : Arises g first mode grown)
    (hext : grown.Extends kernel) (hne : grown ≠ kernel) :
    (kernel.facts g).card < (grown.facts g).card := by
  refine Finset.card_lt_card ((Finset.ssubset_iff_subset_ne).mpr ⟨?_, ?_⟩)
  · rintro ⟨i, t⟩ hfact
    rw [hk.mem_facts h hfirst] at hfact
    exact (hg.mem_facts h hfirst).mpr (hext.lookaheads i t hfact)
  · intro heq
    refine hne (ext_lookaheads (fun i => hext.mem_iff) fun i => ?_)
    ext t
    rw [← hg.mem_facts h hfirst, ← heq, hk.mem_facts h hfirst]

end ParserGen
