import ParserGen.Proofs.Automaton.Compatibility
import ParserGen.Proofs.Automaton.Edits
import ParserGen.Proofs.Automaton.Generation
import ParserGen.Proofs.Automaton.Simulation

/-!
# States that were told apart

A state is created for a kernel only if no state with the same core can take it in.  At that moment
the merge mode tells the kernel apart from those of all states with its core.  Afterwards the states
may grow, and what told them apart may be lost: both may take in lookaheads that make them equal.
Without merging nothing grows, and if everything with one core is merged nothing is told apart, so
only Pager's method can end with two states of the same kernel.

Main results:

- Theorem `ItemSet.decideMerge_eq_distinct_iff`: when kernels are told apart.
- Theorem `StateGraph.separated_ofGrammar`: states with the same core have been told apart.
- Theorem `Automaton.exists_separated`: so have those of every automaton.
- Theorem `Automaton.equal_kernels_have_grown`: what follows for states with the same kernel.
-/

namespace ParserGen

open ItemSet

variable {g : Grammar} {first : FirstTable} {mode : MergeMode}

/-! ## Kernels that cannot share a state -/

namespace ItemSet

variable {s u : ItemSet}

/-- A set is compatible with all that it extends. -/
theorem Extends.compatible (h : s.Extends u) : Compatible s u where
  core := h.core
  shared _ hi hj := Or.inl ⟨hi, h.lookaheads _ _ hj⟩

/-- Kernels with the same core are told apart if they differ and nothing is merged, or if Pager's
method is used and they are not weakly compatible. -/
theorem decideMerge_eq_distinct_iff :
    s.decideMerge mode u = .distinct ↔
      mode = .canonical ∧ s ≠ u ∨ mode = .pgm ∧ ¬ Compatible s u := by
  cases mode with
  | canonical =>
    simp only [decideMerge]
    split <;> simp_all
  | pgm =>
    rw [← weaklyCompatible_iff_compatible]
    simp only [decideMerge]
    split
    · rename_i hsub
      have hweak := weaklyCompatible_iff_compatible.mpr (subsumes_iff.mp hsub).compatible
      simp [hweak]
    · split <;> simp_all
  | lalr =>
    simp only [decideMerge]
    split <;> simp

/-- Telling apart does not depend on which kernel comes first. -/
theorem decideMerge_distinct_symm (h : s.decideMerge mode u = .distinct) :
    u.decideMerge mode s = .distinct := by
  rw [decideMerge_eq_distinct_iff] at h ⊢
  exact h.imp (And.imp_right Ne.symm) (And.imp_right fun hne hback => hne hback.symm)

end ItemSet

/-- Two kernels host kernels with the same core that the merge mode tells apart. -/
def Apart (g : Grammar) (first : FirstTable) (mode : MergeMode) (big big' : ItemSet) : Prop :=
  ∃ u v, Arises g first mode u ∧ Arises g first mode v ∧ Hosts mode big u ∧ Hosts mode big' v ∧
    u.core = v.core ∧ u.decideMerge mode v = .distinct

namespace Apart

variable {big big' s u : ItemSet}

theorem symm (h : Apart g first mode big big') : Apart g first mode big' big := by
  obtain ⟨u, v, hu, hv, hbig, hbig', hcore, hdistinct⟩ := h
  exact ⟨v, u, hv, hu, hbig', hbig, hcore.symm, decideMerge_distinct_symm hdistinct⟩

/-- Kernels that have been told apart may grow. -/
theorem of_hosts (h : Apart g first mode s u) (hs : Hosts mode big s) (hu : Hosts mode big' u) :
    Apart g first mode big big' := by
  obtain ⟨v, w, hv, hw, hsv, huw, hcore, hdistinct⟩ := h
  exact ⟨v, w, hv, hw, hs.trans hsv, hu.trans huw, hcore, hdistinct⟩

/-- Only Pager's method can have told a kernel apart from an equal one. -/
theorem eq_pgm (h : Apart g first mode big big) : mode = .pgm := by
  obtain ⟨u, v, _, _, hu, hv, _, hdistinct⟩ := h
  rcases decideMerge_eq_distinct_iff.mp hdistinct with ⟨hmode, hne⟩ | ⟨hmode, _⟩
  · exact absurd ((hu.eq_of_canonical hmode).symm.trans (hv.eq_of_canonical hmode)) hne
  · exact hmode

/-- Pager's method tells kernels apart by weak compatibility. -/
theorem exists_not_compatible (h : Apart g first .pgm big big') :
    ∃ u v, Arises g first .pgm u ∧ Arises g first .pgm v ∧ big.Extends u ∧ big'.Extends v ∧
      u.core = v.core ∧ ¬ Compatible u v := by
  obtain ⟨u, v, hu, hv, hbig, hbig', hcore, hdistinct⟩ := h
  rw [decideMerge_eq_distinct_iff] at hdistinct
  exact ⟨u, v, hu, hv, hbig.extends_, hbig'.extends_, hcore, by simpa using hdistinct⟩

/-- What Pager's method tells apart contains kernels that arise without merging and are not weakly
compatible. -/
theorem exists_incompatible (h : g.Augmented) (hfirst : first.Within g)
    (hapart : Apart g first .pgm big big') :
    ∃ u v, Arises g first .canonical u ∧ Arises g first .canonical v ∧ big.Extends u ∧
      big'.Extends v ∧ u.core = v.core ∧ ¬ Compatible u v := by
  obtain ⟨u, v, hu, hv, hbig, hbig', hcore, hnot⟩ := hapart.exists_not_compatible
  obtain ⟨i, j, t, hij, hi, hj, hnotu, hnotv⟩ := exists_crossed_of_not_compatible hcore hnot
  obtain ⟨small, hsmall, husmall, hsmalli⟩ := (hu.covered h hfirst).lookaheads hi
  obtain ⟨small', hsmall', hvsmall', hsmallj⟩ := (hv.covered h hfirst).lookaheads hj
  refine ⟨small, small', hsmall, hsmall', hbig.trans husmall, hbig'.trans hvsmall',
    ?_, fun hcompatible => ?_⟩
  · rw [← husmall.core, ← hvsmall'.core, hcore]
  · rcases hcompatible.shared hij hsmalli hsmallj with ⟨_, hback⟩ | ⟨hback, _⟩
    · exact hnotu ⟨hi, husmall.lookaheads j t hback⟩
    · exact hnotv ⟨hvsmall'.lookaheads i t hback, hj⟩

end Apart

/-! ## Graphs -/

namespace StateGraph

variable {graph next : StateGraph} {kernel : ItemSet} {s t : Nat}

/-- Any two states with the same core have been told apart. -/
def Separated (g : Grammar) (first : FirstTable) (mode : MergeMode) (graph : StateGraph) : Prop :=
  ∀ s t, s < t → t < graph.kernels.size → (graph.kernel s).core = (graph.kernel t).core →
    Apart g first mode (graph.kernel s) (graph.kernel t)

/-- If no state can take in a kernel, it is told apart from the kernels with its core. -/
theorem distinct_of_host?_eq_none (hnone : graph.host? mode kernel = none)
    (hs : s < graph.kernels.size) (hcore : (graph.kernel s).core = kernel.core) :
    (graph.kernel s).decideMerge mode kernel = .distinct := by
  have hrefused := List.findSome?_eq_none_iff.mp hnone s (List.mem_range.mpr hs)
  dsimp only at hrefused
  rw [if_pos hcore] at hrefused
  cases hdecision : (graph.kernel s).decideMerge mode kernel with
  | distinct => rfl
  | reuse =>
    rw [hdecision] at hrefused
    cases hrefused
  | merge =>
    rw [hdecision] at hrefused
    cases hrefused

/-- A state is created for a kernel that all others are told apart from. -/
theorem Separated.created (hsep : graph.Separated g first mode) (hs : Sound g first mode graph)
    (hkernel : Arises g first mode kernel) (hnone : graph.host? mode kernel = none) :
    (graph.created kernel).Separated g first mode := by
  intro s t hst ht hcore
  rw [size_created] at ht
  have hlt : s < graph.kernels.size := by omega
  rw [kernel_created_of_lt hlt] at hcore ⊢
  rcases Nat.lt_succ_iff_lt_or_eq.mp ht with ht | rfl
  · rw [kernel_created_of_lt ht] at hcore ⊢
    exact hsep s t hst ht hcore
  · rw [kernel_created_self] at hcore ⊢
    exact ⟨_, _, hs.arises s hlt, hkernel, .refl _, .refl _, hcore,
      distinct_of_host?_eq_none hnone hlt hcore⟩

/-- States that grow stay separated. -/
theorem Separated.of_hosts (hsep : graph.Separated g first mode)
    (hsize : next.kernels.size = graph.kernels.size)
    (hhosts : ∀ s < graph.kernels.size, Hosts mode (next.kernel s) (graph.kernel s)) :
    next.Separated g first mode := by
  intro s t hst ht hcore
  rw [hsize] at ht
  have hs := hhosts s (hst.trans ht)
  have ht' := hhosts t ht
  rw [hs.extends_.core, ht'.extends_.core] at hcore
  exact (hsep s t hst ht hcore).of_hosts hs ht'

theorem Separated.place (h : g.Augmented) (hfirst : first.Within g)
    (hsep : graph.Separated g first mode) (hs : Sound g first mode graph)
    (hkernel : Arises g first mode kernel) (hrun : graph.place mode kernel = .ok (t, next)) :
    next.Separated g first mode := by
  have hplaced := place_spec h hfirst hs hkernel hrun
  cases places_of_place hrun with
  | registered _ => exact hsep
  | reused _ _ _ => exact hsep
  | merged _ _ _ => exact hsep.of_hosts (size_mergeInto _ _ _) hplaced.grows.hosts
  | created hnone _ => exact hsep.created hs hkernel hnone

theorem Separated.connect (h : g.Augmented) (hfirst : first.Within g)
    (hsep : graph.Separated g first mode) (hs : Sound g first mode graph)
    (hlt : s < graph.kernels.size) (hrun : graph.connect g first mode s = .ok next) :
    next.Separated g first mode := by
  obtain ⟨edges, placed, hplace, rfl⟩ := exists_of_connect hrun
  have hplaced : Sound g first mode placed ∧ placed.Separated g first mode := placeAll_invariant
    (P := fun x => Sound g first mode x ∧ x.Separated g first mode)
    (fun row hrow _ _ _ ⟨hs', hsep'⟩ hrun => by
      have hkernel := (hs.arises s hlt).of_mem_transitions hrow
      exact ⟨(place_spec h hfirst hs' hkernel hrun).sound,
        Separated.place h hfirst hsep' hs' hkernel hrun⟩)
    ⟨hs, hsep⟩ hplace
  exact hplaced.2

/-- In the graph of a grammar, states with the same core have been told apart. -/
theorem separated_ofGrammar (h : g.Augmented) (hfirst : first.Within g)
    (hrun : ofGrammar g first mode = .ok graph) : graph.Separated g first mode := by
  obtain ⟨final, hsaturate, rfl⟩ := exists_of_ofGrammar hrun
  have hnone : empty.Separated g first mode := fun _ _ _ ht => absurd ht (Nat.not_lt_zero _)
  have hfinal := saturate_invariant
    (P := fun x => Sound g first mode x ∧ Settled g first mode x none ∧
      x.Separated g first mode)
    (fun {graph _ _ rest} ⟨hs, hsettled, hsep⟩ hpop hconnect => by
      obtain ⟨hlt, hpopped, _⟩ := hs.popped hsettled hpop
      obtain ⟨hsound, hlast, _⟩ := turn_spec h hfirst hs hsettled hpop hconnect
      have hwaiting : Separated g first mode { graph with pending := rest } := hsep
      exact ⟨hsound, hlast, hwaiting.connect h hfirst hpopped hlt hconnect⟩)
    ⟨sound_start, settled_start, hnone.created sound_empty .initial rfl⟩ hsaturate
  exact hfinal.2.2

end StateGraph

/-! ## Kernels of states -/

namespace Arises

variable {kernel : ItemSet}

/-- A kernel is initial if it agrees with the initial one in the items whose markers have moved. -/
theorem eq_initialKernel (hk : Arises g first mode kernel)
    (hmem : ∀ i : Item, i.marker ≠ 0 → (i ∈ StateGraph.initialKernel ↔ i ∈ kernel)) :
    kernel = StateGraph.initialKernel := by
  rcases hk.initial_or_moved with hinitial | hmoved
  · exact hinitial
  · obtain ⟨i, hi⟩ := hk.nonempty
    have hstart := mem_initialKernel.mp ((hmem i (hmoved i hi)).mpr hi)
    exact absurd (congrArg Item.marker hstart) (hmoved i hi)

/-- Kernels are equal if they agree in the items whose markers have moved. -/
theorem eq_of_moved {kernel' : ItemSet} (hk : Arises g first mode kernel)
    (hk' : Arises g first mode kernel')
    (hmem : ∀ i : Item, i.marker ≠ 0 → (i ∈ kernel ↔ i ∈ kernel'))
    (hlookaheads : ∀ i : Item, i.marker ≠ 0 → kernel.lookaheads i = kernel'.lookaheads i) :
    kernel = kernel' := by
  rcases hk.initial_or_moved with rfl | hmoved
  · exact (hk'.eq_initialKernel hmem).symm
  · rcases hk'.initial_or_moved with rfl | hmoved'
    · exact hk.eq_initialKernel fun i hi => (hmem i hi).symm
    · refine ext_lookaheads (fun i => ?_) (fun i => ?_)
      · exact ⟨fun hi => (hmem i (hmoved i hi)).mp hi, fun hi => (hmem i (hmoved' i hi)).mpr hi⟩
      · ext t
        exact ⟨fun ht => hlookaheads i (hmoved i (mem_of_mem_lookaheads ht)) ▸ ht,
          fun ht => hlookaheads i (hmoved' i (mem_of_mem_lookaheads ht)) ▸ ht⟩

end Arises

namespace Automaton

variable {a : Automaton} {kernel : Nat → ItemSet} {s t : Nat} {st st' : State} {whole : Grammar}

/-- States with the same kernel items and lookaheads were built from the same kernel. -/
theorem Faithful.kernel_inj (h : g.Augmented) (hfirst : first.Within g)
    (hf : a.Faithful g first mode kernel) (hst : a.states[s]? = some st)
    (hst' : a.states[t]? = some st') (hkernel : st.kernel = st'.kernel) : kernel s = kernel t := by
  refine (hf.arises hst).eq_of_moved (hf.arises hst') (fun i hmoved => ?_) (fun i hmoved => ?_)
  · rw [← hf.mem_kernel_iff_of_moved h hfirst hst hmoved, hkernel,
      hf.mem_kernel_iff_of_moved h hfirst hst' hmoved]
  · rw [← hf.lookaheads_kernel_of_moved h hfirst hst hmoved, hkernel,
      hf.lookaheads_kernel_of_moved h hfirst hst' hmoved]

/-- The automaton of an edited grammar is faithful to the grammar with its old start symbol, and its
states with the same core have been told apart. -/
theorem exists_separated (hwhole : whole.Augmented) (hpart : g.PartOf whole)
    (hrun : (generate mode g).result = .ok a) :
    { g with start := whole.start }.Augmented ∧
      ∃ kernel, a.Faithful { g with start := whole.start } (FirstTable.ofGrammar g) mode kernel ∧
        ∀ s < a.states.size, ∀ t < a.states.size, s ≠ t → (kernel s).core = (kernel t).core →
          Apart { g with start := whole.start } (FirstTable.ofGrammar g) mode (kernel s)
            (kernel t) := by
  have h := hpart.augmented hwhole (contains_augmentedRule_of_generate hrun)
  have hfirst : (FirstTable.ofGrammar g).Within { g with start := whole.start } :=
    FirstTable.within_ofGrammar _
  obtain ⟨graph, hgraph, hbuilt⟩ := exists_graph_of_generate hrun
  rw [← StateGraph.ofGrammar_withStart g whole.start] at hgraph
  have hcomplete := StateGraph.complete_ofGrammar h hfirst hgraph
  have hseparated := StateGraph.separated_ofGrammar h hfirst hgraph
  refine ⟨h, _, faithful_of_complete hcomplete hbuilt, fun s hs t ht hne hcore => ?_⟩
  rw [(ofStateGraph_spec hbuilt).1] at hs ht
  have hget : ∀ n (hn : n < graph.reachable.length),
      graph.reachable.getD n 0 = graph.reachable[n] := fun n hn => by
    rw [List.getD_eq_getElem?_getD, List.getElem?_eq_getElem hn, Option.getD_some]
  have hold : ∀ n (hn : n < graph.reachable.length), graph.reachable[n] < graph.kernels.size :=
    fun n hn => hcomplete.linked.lt_of_mem_reachable (List.getElem_mem hn)
  simp only [hget s hs, hget t ht] at hcore ⊢
  rcases Nat.lt_trichotomy graph.reachable[s] graph.reachable[t] with hlt | heq | hlt
  · exact hseparated _ _ hlt (hold t ht) hcore
  · exact absurd ((hcomplete.linked.nodup_reachable.getElem_inj_iff).mp heq) hne
  · exact (hseparated _ _ hlt (hold s hs) hcore.symm).symm

/-- Two states have the same kernel only in Pager's method.  They are then built from one kernel,
and each of them had a smaller one when they were told apart: the kernel extends two others that are
not weakly compatible.  Two of its items share a lookahead that they share without merging, too. -/
theorem equal_kernels_have_grown {declarations : List Declaration}
    (hwhole : Grammar.define declarations = .ok whole) (hpart : g.PartOf whole)
    (hrun : (generate mode g).result = .ok a) (hst : a.state? s = some st)
    (hst' : a.state? t = some st') (hne : s ≠ t) (hkernel : st.kernel = st'.kernel) :
    mode = .pgm ∧ ∃ grown u v small : ItemSet,
      st.items = grown.closure g (FirstTable.ofGrammar g) ∧ st'.items = st.items ∧
      Arises g (FirstTable.ofGrammar g) .pgm u ∧ Arises g (FirstTable.ofGrammar g) .pgm v ∧
      grown.Extends u ∧ grown.Extends v ∧ grown ≠ u ∧ grown ≠ v ∧ u.weaklyCompatible v = false ∧
      Arises g (FirstTable.ofGrammar g) .canonical small ∧ grown.Extends small ∧
      ∃ i j x, i ≠ j ∧ x ∈ small.lookaheads i ∧ x ∈ small.lookaheads j := by
  obtain ⟨h, kernel, hf, hseparated⟩ :=
    exists_separated (Grammar.augmented_of_define hwhole) hpart hrun
  have hfirst : (FirstTable.ofGrammar g).Within { g with start := whole.start } :=
    FirstTable.within_ofGrammar _
  have hsame := hf.kernel_inj h hfirst hst hst' hkernel
  have hapart := hseparated s (Array.getElem?_eq_some_iff.mp hst).1 t
    (Array.getElem?_eq_some_iff.mp hst').1 hne (congrArg ItemSet.core hsame)
  rw [← hsame] at hapart
  obtain rfl := hapart.eq_pgm
  obtain ⟨u, v, hu, hv, hgu, hgv, hcore, hnot⟩ := hapart.exists_not_compatible
  obtain ⟨i, j, x, hij, hi, hj, _⟩ := exists_crossed_of_not_compatible hcore hnot
  obtain ⟨small, hsmall, hgs, hsi, hsj⟩ := ((hf.arises hst).pairCovered h hfirst).pairs
    (hgu.lookaheads i x hi) (hgv.lookaheads j x hj)
  refine ⟨rfl, kernel s, u, v, small, hf.items hst, ?_, hu.of_withStart, hv.of_withStart, hgu,
    hgv, ?_, ?_, ?_, hsmall.of_withStart, hgs, i, j, x, hij, hsi, hsj⟩
  · rw [hf.items hst, hf.items hst', hsame]
  · rintro rfl
    exact hnot hgv.compatible
  · rintro rfl
    exact hnot hgu.compatible.symm
  · rw [Bool.eq_false_iff]
    exact fun hweak => hnot (weaklyCompatible_iff_compatible.mp hweak)

/-- After each of four beginnings comes an `X` or a `Y`, which look alike.  What follows them makes
the second kernel incompatible with the first one.  The third kernel goes into the state of the
second and the fourth into that of the first, which makes the two states equal. -/
def fourBeginnings : Sketch where
  terminals := Samples.bare ["1", "2", "3", "4", "a", "b", "c", "z"]
  nonterminals := ["S", "X", "Y"]
  start := none
  rules :=
    Samples.alternatives "S" [["1", "X", "a"], ["1", "X", "b"], ["1", "Y", "c"]]
      ++ Samples.alternatives "S" [["2", "X", "b"], ["2", "Y", "a"], ["2", "Y", "b"]]
      ++ Samples.alternatives "S"
        [["3", "X", "a"], ["3", "Y", "a"], ["3", "Y", "b"], ["3", "Y", "c"]]
      ++ Samples.alternatives "S"
        [["4", "X", "a"], ["4", "X", "b"], ["4", "Y", "a"], ["4", "Y", "b"]]
      ++ Samples.alternatives "X" [["z"]]
      ++ Samples.alternatives "Y" [["z"]]

set_option maxRecDepth 100000 in
theorem exists_equal_kernels :
    ∃ g a st st', Grammar.define fourBeginnings.declarations = .ok g ∧
      (generate .pgm g).result = .ok a ∧ a.state? 8 = some st ∧ a.state? 11 = some st' ∧
      st.kernel = st'.kernel := by
  have hsome : (ofDeclarations .pgm fourBeginnings.declarations).any
      (fun built => (built.2.state? 8).any fun st =>
        (built.2.state? 11).any fun st' => decide (st.kernel = st'.kernel)) = true := by
    decide +kernel
  obtain ⟨g, a, hg, ha, hp⟩ := exists_of_ofDeclarations hsome
  obtain ⟨st, hst, hp⟩ := (Option.any_eq_true _ _).mp hp
  obtain ⟨st', hst', hp⟩ := (Option.any_eq_true _ _).mp hp
  exact ⟨g, a, st, st', hg, ha, hst, hst', of_decide_eq_true hp⟩

/-- Two states of an automaton may have the same kernel. -/
theorem two_states_of_one_kernel :
    ∃ g a s t st st', Grammar.define fourBeginnings.declarations = .ok g ∧
      (generate .pgm g).result = .ok a ∧ s ≠ t ∧ a.state? s = some st ∧ a.state? t = some st' ∧
      st.kernel = st'.kernel := by
  obtain ⟨g, a, st, st', hg, ha, hst, hst', hkernel⟩ := exists_equal_kernels
  exact ⟨g, a, 8, 11, st, st', hg, ha, by decide, hst, hst', hkernel⟩

theorem equal_kernels_have_grown_fourBeginnings :
    ∃ g a st st', Grammar.define fourBeginnings.declarations = .ok g ∧ g.PartOf g ∧
      (generate .pgm g).result = .ok a ∧ a.state? 8 = some st ∧ a.state? 11 = some st' ∧
      st.kernel = st'.kernel ∧ ∃ grown u v small : ItemSet,
        st.items = grown.closure g (FirstTable.ofGrammar g) ∧ st'.items = st.items ∧
        Arises g (FirstTable.ofGrammar g) .pgm u ∧ Arises g (FirstTable.ofGrammar g) .pgm v ∧
        grown.Extends u ∧ grown.Extends v ∧ grown ≠ u ∧ grown ≠ v ∧
        u.weaklyCompatible v = false ∧
        Arises g (FirstTable.ofGrammar g) .canonical small ∧ grown.Extends small ∧
        ∃ i j x, i ≠ j ∧ x ∈ small.lookaheads i ∧ x ∈ small.lookaheads j := by
  obtain ⟨g, a, st, st', hg, ha, hst, hst', hkernel⟩ := exists_equal_kernels
  exact ⟨g, a, st, st', hg, .refl g, ha, hst, hst', hkernel,
    (equal_kernels_have_grown hg (.refl g) ha hst hst' (by decide) hkernel).2⟩

end Automaton
end ParserGen
