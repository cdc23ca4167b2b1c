import ParserGen.Proofs.Automaton.Merging

/-!
# Weakly compatible item sets

Weak compatibility is tested before two kernels are merged.  The test says exactly that no two items
of the union share a lookahead that they share in neither kernel.  The states that come after the
merged one are not looked at, and need not be: a lookahead in a closure is there because of the core
alone or because one item of the kernel passes it on, so kernels that are weakly compatible have
weakly compatible successors.

Main results:

- Theorem `ItemSet.weaklyCompatible_iff_shares_nothing_new`: what the test says about the union.
- Theorem `ItemSet.Compatible.successor`: reading a symbol keeps item sets weakly compatible.
- Theorem `ItemSet.weaklyCompatible_transitions`: so do the transitions of every grammar.
-/

namespace ParserGen
namespace ItemSet

variable {g : Grammar} {first : FirstTable} {s u : ItemSet}

/-! ## What the test says -/

/-- Item sets with the same core, in which any lookahead that two items have in different sets is
shared by them in one of the sets. -/
structure Compatible (s u : ItemSet) : Prop where
  core : s.core = u.core
  shared : ∀ {i j : Item} {t : Nat}, i ≠ j → t ∈ s.lookaheads i → t ∈ u.lookaheads j →
    t ∈ s.lookaheads i ∧ t ∈ s.lookaheads j ∨ t ∈ u.lookaheads i ∧ t ∈ u.lookaheads j

theorem weaklyCompatible_iff_compatible : s.weaklyCompatible u = true ↔ Compatible s u := by
  constructor
  · intro h
    have hcore : s.core = u.core := by
      rw [weaklyCompatible, Bool.and_eq_true, beq_iff_eq] at h
      exact h.1
    exact ⟨hcore, fun hij hi hj => weaklyCompatible_spec h hcore hij hi hj⟩
  · intro h
    simp only [weaklyCompatible, Bool.and_eq_true, List.all_eq_true, Bool.or_eq_true, beq_iff_eq,
      IdSet.includes_iff, crossed, ItemSet.shared, IdSet.mem_union, IdSet.mem_inter]
    refine ⟨h.core, fun i _ j _ => ?_⟩
    by_cases hij : i = j
    · exact Or.inl hij
    · refine Or.inr fun t ht => ?_
      rcases ht with ⟨hi, hj⟩ | ⟨hi, hj⟩
      · exact h.shared hij hi hj
      · exact (h.shared (Ne.symm hij) hj hi).imp And.symm And.symm

/-- Two item sets are weakly compatible if and only if they have the same core and any two different
items of their union share there what they share in one of the sets, and nothing else. -/
theorem weaklyCompatible_iff_shares_nothing_new (s u : ItemSet) :
    s.weaklyCompatible u = true ↔
      s.core = u.core ∧ ∀ i ∈ s.join u, ∀ j ∈ s.join u, i ≠ j →
        (s.join u).lookaheads i ∩ (s.join u).lookaheads j =
          (s.lookaheads i ∩ s.lookaheads j) ∪ (u.lookaheads i ∩ u.lookaheads j) := by
  rw [weaklyCompatible_iff_compatible]
  constructor
  · intro h
    refine ⟨h.core, fun i _ j _ hij => ?_⟩
    ext t
    simp only [lookaheads_join, IdSet.mem_inter, IdSet.mem_union]
    constructor
    · rintro ⟨hi | hi, hj | hj⟩
      · exact Or.inl ⟨hi, hj⟩
      · exact h.shared hij hi hj
      · exact (h.shared (Ne.symm hij) hj hi).imp And.symm And.symm
      · exact Or.inr ⟨hi, hj⟩
    · rintro (⟨hi, hj⟩ | ⟨hi, hj⟩)
      · exact ⟨Or.inl hi, Or.inl hj⟩
      · exact ⟨Or.inr hi, Or.inr hj⟩
  · rintro ⟨hcore, h⟩
    refine ⟨hcore, fun {i j t} hij hi hj => ?_⟩
    have hmem : t ∈ (s.join u).lookaheads i ∩ (s.join u).lookaheads j := by
      simp [hi, hj]
    rw [h i (mem_join.mpr (Or.inl (mem_of_mem_lookaheads hi))) j
      (mem_join.mpr (Or.inr (mem_of_mem_lookaheads hj))) hij] at hmem
    simpa using hmem

/-! ## Successors -/

namespace Compatible

theorem symm (hsu : Compatible s u) : Compatible u s where
  core := hsu.core.symm
  shared hij hi hj := ((hsu.shared (Ne.symm hij) hj hi).imp And.symm And.symm).symm

/-- What holds of the items of compatible sets holds of those of their closures: what two items do
not have for good is passed on to them by two items, maybe the same one, of the sets. -/
theorem closure (h : g.Keyed) (hfirst : first.Within g) (hsu : Compatible s u) :
    Compatible (s.closure g first) (u.closure g first) := by
  refine ⟨core_closure h hfirst hsu.core, fun {i j t} hij hi hj => ?_⟩
  simp only [mem_lookaheads_closure h hfirst] at hi hj ⊢
  rcases hi.origin with hall | ⟨k, hk, hpassi⟩
  · exact Or.inr ⟨hall u hsu.core.symm, hj⟩
  · rcases hj.origin with hall | ⟨l, hl, hpassj⟩
    · exact Or.inl ⟨hi, hall s hsu.core⟩
    · by_cases hkl : k = l
      · subst hkl
        exact Or.inl ⟨hi, hpassj s hsu.core hk⟩
      · rcases hsu.shared hkl hk hl with ⟨_, hl⟩ | ⟨hk, _⟩
        · exact Or.inl ⟨hi, hpassj s hsu.core hl⟩
        · exact Or.inr ⟨hpassi u hsu.core.symm hk, hj⟩

/-- Reading a symbol keeps item sets compatible. -/
theorem successor (h : g.Keyed) (hfirst : first.Within g) (hsu : Compatible s u) (x : Symbol) :
    Compatible (s.successor g first x) (u.successor g first x) := by
  refine ⟨core_successor h hfirst hsu.core x, fun {i j t} hij hi hj => ?_⟩
  obtain ⟨i', hix, rfl, hi'⟩ := mem_lookaheads_advanceOver.mp hi
  obtain ⟨j', hjx, rfl, hj'⟩ := mem_lookaheads_advanceOver.mp hj
  have hne : i' ≠ j' := fun heq => hij (congrArg Item.advance heq)
  have hback : ∀ v : ItemSet, t ∈ (v.closure g first).lookaheads i' ∧
      t ∈ (v.closure g first).lookaheads j' →
      t ∈ (v.successor g first x).lookaheads i'.advance ∧
        t ∈ (v.successor g first x).lookaheads j'.advance := fun v hv =>
    ⟨mem_lookaheads_advanceOver.mpr ⟨i', hix, rfl, hv.1⟩,
      mem_lookaheads_advanceOver.mpr ⟨j', hjx, rfl, hv.2⟩⟩
  exact ((hsu.closure h hfirst).shared hne hi' hj').imp (hback s) (hback u)

end Compatible

/-- If sets with the same core are not compatible, two items have a lookahead in different sets that
they share in neither. -/
theorem exists_crossed_of_not_compatible (hcore : s.core = u.core) (hnot : ¬ Compatible s u) :
    ∃ i j t, i ≠ j ∧ t ∈ s.lookaheads i ∧ t ∈ u.lookaheads j ∧
      ¬ (t ∈ s.lookaheads i ∧ t ∈ s.lookaheads j) ∧
      ¬ (t ∈ u.lookaheads i ∧ t ∈ u.lookaheads j) := by
  by_contra hnone
  refine hnot ⟨hcore, fun {i j t} hij hi hj => ?_⟩
  by_contra hshared
  rw [not_or] at hshared
  exact hnone ⟨i, j, t, hij, hi, hj, hshared⟩

/-- Each symbol after a marker has one transition. -/
theorem lookup_transitions (s : ItemSet) {x : Symbol} (hx : x ∈ s.nextSymbols g) :
    (s.transitions g).lookup x = some (s.advanceOver g x) := by
  have hsymbols : (s.transitions g).map (·.1) = s.nextSymbols g := by
    rw [transitions, List.map_map]
    exact List.map_id' _
  have hnodup : ((s.transitions g).map (·.1)).Nodup := hsymbols ▸ nodup_nextSymbols s
  exact (lookup_eq_some_iff_mem hnodup).mpr (List.mem_map.mpr ⟨x, hx, rfl⟩)

/-- The transitions of the closures of weakly compatible sets are for the same symbols, and for each
of them they lead to weakly compatible kernels with the same core. -/
theorem weaklyCompatible_transitions (h : g.Keyed) (hsu : s.weaklyCompatible u = true) {x : Symbol}
    (hx : (∃ i ∈ s.closure g (FirstTable.ofGrammar g), i.next? g = some x) ∨
      ∃ i ∈ u.closure g (FirstTable.ofGrammar g), i.next? g = some x) :
    ∃ k k', ((s.closure g (FirstTable.ofGrammar g)).transitions g).lookup x = some k ∧
      ((u.closure g (FirstTable.ofGrammar g)).transitions g).lookup x = some k' ∧
      k.core = k'.core ∧ k.weaklyCompatible k' = true := by
  have hfirst := FirstTable.within_ofGrammar g
  have hcompatible := weaklyCompatible_iff_compatible.mp hsu
  have hsame : (s.closure g (FirstTable.ofGrammar g)).nextSymbols g =
      (u.closure g (FirstTable.ofGrammar g)).nextSymbols g :=
    nextSymbols_closure_of_core_eq h hfirst hcompatible.core
  have hnext : x ∈ (s.closure g (FirstTable.ofGrammar g)).nextSymbols g := by
    rcases hx with hx | hx
    · exact mem_nextSymbols.mpr hx
    · exact hsame ▸ mem_nextSymbols.mpr hx
  have hsuccessor := hcompatible.successor h hfirst x
  exact ⟨_, _, lookup_transitions _ hnext, lookup_transitions _ (hsame ▸ hnext), hsuccessor.core,
    weaklyCompatible_iff_compatible.mpr hsuccessor⟩

/-- Lists of marks in two places.  In the first one a comma follows them, in the second one a colon,
unless a stop ends the list. -/
def endsOfLists : List Declaration :=
  [.terminal "first" none, .terminal "second" none, .terminal "mark" none, .terminal "stop" none,
    .terminal "comma" none, .terminal "colon" none, .nonterminal "text", .nonterminal "open",
    .nonterminal "closed", .nonterminal "marks",
    .rule 1 [.terminal 1, .nonterminal 2, .terminal 5] none,
    .rule 1 [.terminal 1, .nonterminal 3] none,
    .rule 1 [.terminal 2, .nonterminal 2, .terminal 6] none,
    .rule 1 [.terminal 2, .nonterminal 3] none,
    .rule 2 [.terminal 3, .nonterminal 4] none,
    .rule 3 [.terminal 3, .nonterminal 4, .terminal 4] none,
    .rule 4 [.terminal 3, .nonterminal 4] none, .rule 4 [.terminal 3] none]

/-- What follows the first mark of a list in the first place. -/
def afterFirst : ItemSet :=
  ofRows [(⟨5, 1⟩, IdSet.singleton 5), (⟨6, 1⟩, IdSet.singleton endOfInput)]

/-- What follows the first mark of a list in the second place. -/
def afterSecond : ItemSet :=
  ofRows [(⟨5, 1⟩, IdSet.singleton 6), (⟨6, 1⟩, IdSet.singleton endOfInput)]

set_option maxRecDepth 100000 in
theorem weaklyCompatible_transitions_endsOfLists :
    ∃ g, Grammar.define endsOfLists = .ok g ∧ g.Keyed ∧
      afterFirst.weaklyCompatible afterSecond = true ∧
      (∃ i ∈ afterFirst.closure g (FirstTable.ofGrammar g), i.next? g = some (.terminal 3)) ∧
      ∃ k k',
        ((afterFirst.closure g (FirstTable.ofGrammar g)).transitions g).lookup (.terminal 3) =
          some k ∧
        ((afterSecond.closure g (FirstTable.ofGrammar g)).transitions g).lookup (.terminal 3) =
          some k' ∧
        k ≠ k' ∧ k.core = k'.core ∧ k.weaklyCompatible k' = true := by
  have hsome : (Grammar.define endsOfLists).toOption.any (fun g =>
      let first := FirstTable.ofGrammar g
      let x := Symbol.terminal 3
      (afterFirst.closure g first).core.any (fun i => i.next? g == some x) &&
        decide (((afterFirst.closure g first).transitions g).lookup x ≠
          ((afterSecond.closure g first).transitions g).lookup x)) = true := by
    decide +kernel
  obtain ⟨g, hg, hp⟩ := (Option.any_eq_true _ _).mp hsome
  have hg := eq_ok_of_toOption_eq_some hg
  rw [Bool.and_eq_true, decide_eq_true_eq, List.any_eq_true] at hp
  obtain ⟨⟨i, hi, hnext⟩, hne⟩ := hp
  have hkeyed := (Grammar.augmented_of_define hg).keyed
  have hcompatible : afterFirst.weaklyCompatible afterSecond = true := by
    decide +kernel
  have hx : ∃ i ∈ afterFirst.closure g (FirstTable.ofGrammar g),
      i.next? g = some (.terminal 3) := ⟨i, mem_core.mp hi, beq_iff_eq.mp hnext⟩
  obtain ⟨k, k', hk, hk', hcore, hweak⟩ :=
    weaklyCompatible_transitions hkeyed hcompatible (Or.inl hx)
  refine ⟨g, hg, hkeyed, hcompatible, hx, k, k', hk, hk', ?_, hcore, hweak⟩
  rintro rfl
  exact hne (hk.trans hk'.symm)

end ItemSet
end ParserGen
