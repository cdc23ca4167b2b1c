import ParserGen.Proofs.Automaton.Merging
import ParserGen.Samples.Grammars

/-!
# Where the lookaheads of merged states come from

Merging puts lookaheads together that arise in different states.  Each of them arises without
merging, in a kernel with the same core, whatever the merge mode is.  A rule that seems to be
finished with some lookahead in a merged state was therefore begun with it in some state.

Shifts depend on the core alone.  A shift that competes with a reduction in a merged state thus
competes with it without merging, and only reductions can be set against each other by merging.

Main results:

- Theorem `Arises.covered`: each lookahead of a kernel belongs to a kernel that arises without
  merging.
- Theorem `Automaton.Faithful.exists_begun`: where a lookahead behind the first symbol of a rule
  comes from.
- Theorem `Automaton.Faithful.exists_reducing`: where a reduction of a merged state comes from.
- Theorem `Automaton.lalr_adds_reduceReduce_only`: merging by core alone adds no conflicts but those
  of reductions with each other.
-/

namespace ParserGen

open ItemSet

variable {g : Grammar} {first : FirstTable} {mode : MergeMode}

namespace ItemSet

/-- Each lookahead is one of a kernel that arises without merging and is extended by this one. -/
structure Covered (g : Grammar) (first : FirstTable) (s : ItemSet) : Prop where
  inhabited : ∃ u, Arises g first .canonical u ∧ s.Extends u
  lookaheads : ∀ {i : Item} {t : Nat}, t ∈ s.lookaheads i →
    ∃ u, Arises g first .canonical u ∧ s.Extends u ∧ t ∈ u.lookaheads i

theorem Covered.closure (h : g.Augmented) (hfirst : first.Within g) {s : ItemSet}
    (hs : Covered g first s) {i : Item} {t : Nat} (ht : t ∈ (s.closure g first).lookaheads i) :
    ∃ u, Arises g first .canonical u ∧ s.Extends u ∧ t ∈ (u.closure g first).lookaheads i := by
  simp only [mem_lookaheads_closure h.keyed hfirst] at ht ⊢
  rcases ht.origin with hall | ⟨k, hk, hpass⟩
  · obtain ⟨u, hu, hsu⟩ := hs.inhabited
    exact ⟨u, hu, hsu, hall u hsu.core.symm⟩
  · obtain ⟨u, hu, hsu, huk⟩ := hs.lookaheads hk
    exact ⟨u, hu, hsu, hpass u hsu.core.symm huk⟩

theorem Covered.successor (h : g.Augmented) (hfirst : first.Within g) {s : ItemSet}
    (hs : Covered g first s) {x : Symbol} (hx : x ∈ (s.closure g first).nextSymbols g) :
    Covered g first (s.successor g first x) := by
  constructor
  · obtain ⟨u, hu, hsu⟩ := hs.inhabited
    exact ⟨_, hu.successor_of_extends h hfirst hsu hx⟩
  · intro i t ht
    obtain ⟨j, hjx, rfl, hj⟩ := mem_lookaheads_advanceOver.mp ht
    obtain ⟨u, hu, hsu, huj⟩ := hs.closure h hfirst hj
    obtain ⟨harises, hextends⟩ := hu.successor_of_extends h hfirst hsu hx
    exact ⟨_, harises, hextends, mem_lookaheads_advanceOver.mpr ⟨j, hjx, rfl, huj⟩⟩

theorem Covered.join {s u : ItemSet} (hs : Covered g first s) (hu : Covered g first u)
    (hcore : s.core = u.core) : Covered g first (s.join u) := by
  obtain ⟨hjoins, hjoinu⟩ := extends_join hcore
  constructor
  · obtain ⟨c, hc, hsc⟩ := hs.inhabited
    exact ⟨c, hc, hjoins.trans hsc⟩
  · intro i t ht
    rw [lookaheads_join, IdSet.mem_union] at ht
    rcases ht with ht | ht
    · obtain ⟨c, hc, hsc, hci⟩ := hs.lookaheads ht
      exact ⟨c, hc, hjoins.trans hsc, hci⟩
    · obtain ⟨c, hc, huc, hci⟩ := hu.lookaheads ht
      exact ⟨c, hc, hjoinu.trans huc, hci⟩

end ItemSet

/-- The lookaheads of the kernels of every merge mode arise without merging. -/
theorem Arises.covered (h : g.Augmented) (hfirst : first.Within g) {kernel : ItemSet}
    (hk : Arises g first mode kernel) : Covered g first kernel := by
  induction hk with
  | initial => exact ⟨⟨_, .initial, .refl _⟩, fun ht => ⟨_, .initial, .refl _, ht⟩⟩
  | successor _ hx ih => exact ih.successor h hfirst hx
  | merged _ _ hcore _ ih ih' => exact ih.join ih' hcore

/-- Behind the first symbol of a rule are the lookaheads that the rule was begun with. -/
theorem Arises.exists_begun {small : ItemSet} (hsmall : Arises g first .canonical small)
    {rule t : Nat} (ht : t ∈ small.lookaheads (Item.start rule).advance) :
    ∃ u, Arises g first .canonical u ∧ t ∈ (u.closure g first).lookaheads (Item.start rule) := by
  cases hsmall with
  | initial =>
    exact absurd (mem_lookaheads_initialKernel.mp ht).1 (Item.advance_ne_start _ _)
  | @successor u x hu _ =>
    obtain ⟨i, _, hi, ht⟩ := mem_lookaheads_advanceOver.mp ht
    rw [Item.advance_inj] at hi
    exact ⟨u, hu, hi ▸ ht⟩
  | merged _ _ _ hmerge => exact absurd hmerge (decideMerge_canonical_ne_merge _ _)

/-- A rule with a lookahead behind its first symbol was begun with it in some state. -/
theorem Automaton.Faithful.exists_begun (h : g.Augmented) (hfirst : first.Within g) {a : Automaton}
    {kernel : Nat → ItemSet} (hf : a.Faithful g first mode kernel) {s : Nat} {st : State}
    (hst : a.states[s]? = some st) {rule t : Nat}
    (ht : t ∈ (kernel s).lookaheads (Item.start rule).advance) :
    ∃ (s' : Nat) (st' : State), a.states[s']? = some st' ∧
      t ∈ st'.items.lookaheads (Item.start rule) := by
  obtain ⟨small, hsmall, _, ht⟩ := ((hf.arises hst).covered h hfirst).lookaheads ht
  obtain ⟨u, hu, ht⟩ := hsmall.exists_begun ht
  obtain ⟨s', st', hst', hhosts⟩ := hf.exists_host h hfirst hu
  refine ⟨s', st', hst', ?_⟩
  rw [hf.items hst']
  exact (hhosts.extends_.closure h.keyed hfirst).lookaheads _ _ ht

/-! ## Conflicts of merged states -/

namespace Automaton

namespace Faithful

variable {a b : Automaton} {kernel kernel' : Nat → ItemSet} {s t r : Nat} {st : State}

/-- A reduction in a state is made in a state that is built without merging and has the same
core. -/
theorem exists_reducing (h : g.Augmented) (hfirst : first.Within g)
    (hf : a.Faithful g first mode kernel) (hf' : b.Faithful g first .canonical kernel')
    (hst : a.states[s]? = some st) (hr : r ∈ reductionsOn g st.items t) :
    ∃ (s' : Nat) (st' : State), b.states[s']? = some st' ∧ st.items.core = st'.items.core ∧
      r ∈ reductionsOn g st'.items t := by
  obtain ⟨i, _, hcomplete, ht, hrule⟩ := mem_reductionsOn.mp hr
  rw [hf.items hst] at ht
  obtain ⟨small, hsmall, hextends, hti⟩ := ((hf.arises hst).covered h hfirst).closure h hfirst ht
  obtain ⟨s', st', hst', hitems⟩ := hf'.exists_closure_of_arises h hfirst hsmall
  rw [← hitems] at hti
  refine ⟨s', st', hst', ?_, ?_⟩
  · rw [hf.items hst, hitems]
    exact (hextends.closure h.keyed hfirst).core
  · exact mem_reductionsOn.mpr ⟨i, mem_of_mem_lookaheads hti, hcomplete, hti, hrule⟩

/-- A shift that competes with a reduction competes with it without merging. -/
theorem shiftReduce_unmerged (h : g.Augmented) (hfirst : first.Within g)
    (hf : a.Faithful g first mode kernel) (hf' : b.Faithful g first .canonical kernel')
    {core : List Item} (hconflict : a.ConflictsOn core t .shiftReduce) :
    b.ConflictsOn core t .shiftReduce := by
  obtain ⟨s, st, hst, hcore, r, hr, _, _, hshift⟩ := (hf.conflictsOn_iff h hfirst).mp hconflict
  obtain ⟨s', st', hst', hsame, hr'⟩ := hf.exists_reducing h hfirst hf' hst hr
  refine (hf'.conflictsOn_iff h hfirst).mpr ⟨s', st', hst', ?_, r, hr', r, hr', ?_⟩
  · rw [← hcore, kernelCore_eq hst, kernelCore_eq hst', hsame]
  · exact fun hnone => hshift ((hf.target?_isSome_of_core_eq hf' hst hst' hsame _).mpr hnone)

/-- Conflicts that there are without merging are there in every merge mode. -/
theorem conflictsOn_of_canonical (h : g.Augmented) (hfirst : first.Within g)
    (hf : a.Faithful g first .canonical kernel) (hf' : b.Faithful g first mode kernel')
    {core : List Item} {kind : ConflictKind} (hconflict : a.ConflictsOn core t kind) :
    b.ConflictsOn core t kind := by
  rw [hf.conflictsOn_iff h hfirst] at hconflict
  rw [hf'.conflictsOn_iff h hfirst]
  exact hf.competesOn_of_mirrors hf' (hf.mirrors_of_canonical h hfirst hf') collides_of_shift_iff
    hconflict

end Faithful

/-- If all states of one core are merged, the same shifts conflict with reductions as without
merging, and the reductions that conflicted with each other still do. -/
theorem lalr_adds_reduceReduce_only {declarations : List Declaration} {g : Grammar}
    {canonical merged : Automaton} (hg : Grammar.define declarations = .ok g)
    (hcanonical : (generate .canonical g).result = .ok canonical)
    (hmerged : (generate .lalr g).result = .ok merged) :
    (∀ core t, merged.ConflictsOn core t .shiftReduce ↔
        canonical.ConflictsOn core t .shiftReduce) ∧
      (∀ core t, canonical.ConflictsOn core t .reduceReduce →
        merged.ConflictsOn core t .reduceReduce) := by
  have h := Grammar.augmented_of_define hg
  have hfirst := FirstTable.within_ofGrammar g
  obtain ⟨_, hc⟩ := faithful_of_generate h hcanonical
  obtain ⟨_, hm⟩ := faithful_of_generate h hmerged
  refine ⟨fun core t => ⟨?_, ?_⟩, fun core t => ?_⟩
  · exact hm.shiftReduce_unmerged h hfirst hc
  · exact hc.conflictsOn_of_canonical h hfirst hm
  · exact hc.conflictsOn_of_canonical h hfirst hm

/-- A reduction that conflicts with another one on one terminal conflicts with it on two terminals
once the states are merged. -/
theorem lalr_adds_reduceReduce_only_alreadyConflicting :
    ∃ g canonical merged, Grammar.define Samples.alreadyConflicting.declarations = .ok g ∧
      (generate .canonical g).result = .ok canonical ∧ (generate .lalr g).result = .ok merged ∧
      canonical.conflicts.length = 1 ∧ merged.conflicts.length = 2 ∧
      (∀ core t, merged.ConflictsOn core t .shiftReduce ↔
        canonical.ConflictsOn core t .shiftReduce) ∧
      (∀ core t, canonical.ConflictsOn core t .reduceReduce →
        merged.ConflictsOn core t .reduceReduce) := by
  have hboth : bothPass .canonical .lalr Samples.alreadyConflicting.declarations
      (fun _ canonical merged =>
        decide (canonical.conflicts.length = 1 ∧ merged.conflicts.length = 2)) = true := by
    decide +kernel
  obtain ⟨g, canonical, merged, hg, hcanonical, hmerged, hp⟩ := exists_of_bothPass hboth
  obtain ⟨hone, htwo⟩ := of_decide_eq_true hp
  exact ⟨g, canonical, merged, hg, hcanonical, hmerged, hone, htwo,
    lalr_adds_reduceReduce_only hg hcanonical hmerged⟩

end Automaton
end ParserGen
