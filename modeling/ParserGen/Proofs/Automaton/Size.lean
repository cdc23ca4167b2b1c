import Mathlib.Combinatorics.Enumerative.DoubleCounting
import ParserGen.Proofs.Automaton.Evaluation
import ParserGen.Proofs.Automaton.Separation

/-!
# How many states merging leaves

Every state of an automaton is reached by some string of symbols, and automata of one grammar read
the same strings, so a state of one automaton has counterparts in another one: the states that are
reached by the same strings.  If each state had one counterpart after merging, states could only be
lost.  But Pager's method may part a state: strings that lead to it without merging lead to several
states, as the states before them were merged with different ones, and so were those after them.

Main results:

- Theorem `Automaton.exists_read_of_lt`: every state is reached by some string.
- Theorem `Automaton.size_add_partings`: the states of two automata counted by their counterparts.
- Theorem `Automaton.Faithful.exists_incompatible_of_parting`: a state is parted only if there are
  kernels that are not weakly compatible.
- Theorem `Automaton.pgm_size_add_partings`: what Pager's method does to the number of states.
-/

namespace ParserGen

open ItemSet

namespace Automaton

variable {g : Grammar} {first : FirstTable} {mode mode' : MergeMode} {a b : Automaton}
  {kernel kernel' : Nat → ItemSet} {s t : Nat} {st st' : State}

/-! ## States are reached -/

/-- Renumbered edges lead where the edges of the graph do. -/
theorem exists_transition_of_edge {order : List Nat} {edges transitions : List (Symbol × Nat)}
    {gotos : List (Nat × Nat)} (h : renumberEdges order edges = some (transitions, gotos))
    (hnodup : (edges.map (·.1)).Nodup) {x : Symbol} {old : Nat} (hedge : (x, old) ∈ edges) :
    ∃ new, order[new]? = some old ∧ transitions.lookup x = some new := by
  obtain ⟨hsymbols, _, htargets⟩ := renumberEdges_spec h
  have hx : x ∈ transitions.map (·.1) := hsymbols ▸ List.mem_map.mpr ⟨_, hedge, rfl⟩
  obtain ⟨⟨_, new⟩, hmem, rfl⟩ := List.mem_map.mp hx
  obtain ⟨target, horder, htarget⟩ := htargets _ _ hmem
  have hsame := (lookup_eq_some_iff_mem hnodup).mpr htarget
  rw [(lookup_eq_some_iff_mem hnodup).mpr hedge, Option.some.injEq] at hsame
  exact ⟨new, hsame ▸ horder, (lookup_eq_some_iff_mem (hsymbols ▸ hnodup)).mpr hmem⟩

/-- Every state is reached by some string of symbols. -/
theorem exists_read_of_lt (h : g.Augmented) (hrun : (generate mode g).result = .ok a)
    (hs : s < a.states.size) : ∃ γ, a.read? γ = some s := by
  obtain ⟨graph, hgraph, hbuilt⟩ := exists_graph_of_generate hrun
  have hcomplete := StateGraph.complete_ofGrammar h (FirstTable.within_ofGrammar g) hgraph
  obtain ⟨hsize, _, _, _, hstates⟩ := ofStateGraph_spec hbuilt
  -- The walk through the graph reaches states along edges, which the automaton has, too.
  have hreached : ∀ old ∈ graph.reachable,
      ∃ new γ, graph.reachable[new]? = some old ∧ a.read? γ = some new := by
    refine StateGraph.walk_induction ?_ ?_
    · rintro old ⟨new, γ, hnew, hread⟩ target htarget _
      obtain ⟨⟨x, _⟩, hedge, rfl⟩ := List.mem_map.mp htarget
      have hlt : new < a.states.size := hsize ▸ (List.getElem?_eq_some_iff.mp hnew).1
      obtain ⟨st, hst⟩ := state_of_lt hlt
      obtain ⟨_, hold, hdone⟩ := hstates new st hst
      obtain rfl := Option.some.inj (hnew.symm.trans hold)
      have hmem := List.mem_of_getElem? hnew
      have hnodup : ((graph.edges.getD old []).map (·.1)).Nodup := by
        rw [(hcomplete.connected old (hcomplete.linked.lt_of_mem_reachable hmem)).symbols]
        exact nodup_nextSymbols _
      obtain ⟨next, hnext, hlookup⟩ :=
        exists_transition_of_edge (finishState_spec hdone).1 hnodup hedge
      exact ⟨next, γ ++ [x], hnext, read?_concat_eq_some_iff.mpr ⟨new, st, hread, hst, hlookup⟩⟩
    · intro old hold
      rw [List.mem_singleton.mp hold]
      exact ⟨0, [], hcomplete.linked.reachable_zero, rfl⟩
  rw [hsize] at hs
  obtain ⟨new, γ, hnew, hread⟩ := hreached _ (List.getElem_mem hs)
  obtain ⟨hlt, hsame⟩ := List.getElem?_eq_some_iff.mp hnew
  have heq : new = s := (hcomplete.linked.nodup_reachable.getElem_inj_iff).mp hsame
  exact ⟨γ, heq ▸ hread⟩

/-! ## Counterparts -/

/-- Some string leads to state `s` of one automaton and to state `t` of the other. -/
def ReadAlike (a b : Automaton) (s t : Nat) : Prop := ∃ γ, a.read? γ = some s ∧ b.read? γ = some t

theorem ReadAlike.symm (h : ReadAlike a b s t) : ReadAlike b a t s := by
  obtain ⟨γ, hs, ht⟩ := h
  exact ⟨γ, ht, hs⟩

open Classical in
/-- The states of `b` that are reached by strings that lead to state `s` of `a`. -/
noncomputable def counterparts (a b : Automaton) (s : Nat) : Finset Nat :=
  (Finset.range b.size).filter fun t => ReadAlike a b s t

/-- How many counterparts the states of `a` have in `b` beyond the first one, taken together. -/
noncomputable def partings (a b : Automaton) : Nat :=
  ∑ s ∈ Finset.range a.size, ((counterparts a b s).card - 1)

theorem mem_counterparts : t ∈ counterparts a b s ↔ t < b.size ∧ ReadAlike a b s t := by
  classical
  rw [counterparts, Finset.mem_filter, Finset.mem_range]

/-- The states of one automaton have as many counterparts as those of the other one. -/
theorem sum_card_counterparts (a b : Automaton) :
    ∑ s ∈ Finset.range a.size, (counterparts a b s).card =
      ∑ t ∈ Finset.range b.size, (counterparts b a t).card := by
  classical
  have hbelow : ∀ t, counterparts b a t =
      (Finset.range a.size).bipartiteBelow (ReadAlike a b) t := by
    intro t
    ext s
    rw [mem_counterparts, Finset.mem_bipartiteBelow, Finset.mem_range]
    exact and_congr_right fun _ => ⟨.symm, .symm⟩
  have habove : ∀ s, counterparts a b s =
      (Finset.range b.size).bipartiteAbove (ReadAlike a b) s := by
    intro s
    ext t
    rw [mem_counterparts, Finset.mem_bipartiteAbove, Finset.mem_range]
  simp only [hbelow, habove]
  exact Finset.sum_card_bipartiteAbove_eq_sum_card_bipartiteBelow _

/-- If every state has a counterpart, there are as many of them as states and partings. -/
theorem size_add_partings_eq_sum (h : ∀ s < a.size, (counterparts a b s).Nonempty) :
    a.size + a.partings b = ∑ s ∈ Finset.range a.size, (counterparts a b s).card := by
  have hone : ∀ s ∈ Finset.range a.size,
      (counterparts a b s).card = 1 + ((counterparts a b s).card - 1) := by
    intro s hs
    have hpos := (h s (Finset.mem_range.mp hs)).card_pos
    omega
  rw [Finset.sum_congr rfl hone, Finset.sum_add_distrib, ← Finset.card_eq_sum_ones,
    Finset.card_range, partings]

/-- Every state has a counterpart in each automaton of the grammar. -/
theorem exists_readAlike (h : g.Augmented) (ha : (generate mode g).result = .ok a)
    (hb : (generate mode' g).result = .ok b) (hs : s < a.size) :
    ∃ t st', b.states[t]? = some st' ∧ ReadAlike a b s t := by
  obtain ⟨_, hf⟩ := faithful_of_generate h ha
  obtain ⟨_, hf'⟩ := faithful_of_generate h hb
  obtain ⟨γ, hγ⟩ := exists_read_of_lt h ha hs
  obtain ⟨t, ht⟩ := hf.exists_read_of_read h (FirstTable.within_ofGrammar g) hf' hγ
  obtain ⟨st', hst'⟩ := hf'.state_of_read ht
  exact ⟨t, st', hst', γ, hγ, ht⟩

/-- The states and the partings of one automaton are as many as those of another one of the same
grammar: both count the pairs of counterparts. -/
theorem size_add_partings {declarations : List Declaration}
    (hg : Grammar.define declarations = .ok g) (ha : (generate mode g).result = .ok a)
    (hb : (generate mode' g).result = .ok b) :
    a.size + a.partings b = b.size + b.partings a := by
  have h := Grammar.augmented_of_define hg
  have hcounterpart : ∀ {mode mode' : MergeMode} {a b : Automaton},
      (generate mode g).result = .ok a → (generate mode' g).result = .ok b →
      ∀ s < a.size, (counterparts a b s).Nonempty := by
    intro mode mode' a b ha hb s hs
    obtain ⟨t, st, hst, halike⟩ := exists_readAlike h ha hb hs
    exact ⟨t, mem_counterparts.mpr ⟨(Array.getElem?_eq_some_iff.mp hst).1, halike⟩⟩
  rw [size_add_partings_eq_sum (hcounterpart ha hb), size_add_partings_eq_sum (hcounterpart hb ha),
    sum_card_counterparts]

/-- Counterparts were built from kernels with the same items. -/
theorem Faithful.core_eq_of_readAlike (h : g.Augmented) (hfirst : first.Within g)
    (hf : a.Faithful g first mode kernel) (hf' : b.Faithful g first mode' kernel')
    (halike : ReadAlike a b s t) : (kernel' t).core = (kernel s).core := by
  obtain ⟨γ, hs, ht⟩ := halike
  obtain ⟨_, hpath⟩ := read?_eq_some_iff.mp hs
  obtain ⟨_, hpath'⟩ := read?_eq_some_iff.mp ht
  exact hf.core_eq_of_paths h hfirst hf' hpath hpath'

/-- The counterpart of a state without merging extends it. -/
theorem Faithful.items_extend_of_readAlike (h : g.Augmented) (hfirst : first.Within g)
    (hf : a.Faithful g first .canonical kernel) (hf' : b.Faithful g first mode kernel')
    (hst : a.states[s]? = some st) (hst' : b.states[t]? = some st') (halike : ReadAlike a b s t) :
    st'.items.Extends st.items := by
  obtain ⟨γ, hs, ht⟩ := halike
  obtain ⟨_, hpath⟩ := read?_eq_some_iff.mp hs
  obtain ⟨_, hpath'⟩ := read?_eq_some_iff.mp ht
  exact hf.items_extend_of_paths h hfirst hf' hpath hpath' hst hst'

/-! ## Parted states -/

namespace Faithful

/-- Kernels that arise without merging and are not compatible belong to states whose kernels are not
weakly compatible. -/
theorem exists_incompatible_states (h : g.Augmented) (hfirst : first.Within g)
    (hf : a.Faithful g first .canonical kernel) {u v : ItemSet}
    (hu : Arises g first .canonical u) (hv : Arises g first .canonical v) (hcore : u.core = v.core)
    (hnot : ¬ Compatible u v) :
    ∃ (p q : Nat) (stu stv : State), a.states[p]? = some stu ∧ a.states[q]? = some stv ∧
      stu.items = u.closure g first ∧ stv.items = v.closure g first ∧
      stu.kernel.weaklyCompatible stv.kernel = false := by
  obtain ⟨p, stu, hp, hhostsu⟩ := hf.exists_host h hfirst hu
  obtain ⟨q, stv, hq, hhostsv⟩ := hf.exists_host h hfirst hv
  obtain rfl := hhostsu.eq_of_canonical rfl
  obtain rfl := hhostsv.eq_of_canonical rfl
  refine ⟨p, q, stu, stv, hp, hq, hf.items hp, hf.items hq, ?_⟩
  obtain ⟨i, j, t, hij, hi, hj, hnotu, hnotv⟩ := exists_crossed_of_not_compatible hcore hnot
  have hmemi := mem_of_mem_lookaheads hi
  have hmemj := (core_eq_iff.mp hcore j).mpr (mem_of_mem_lookaheads hj)
  -- The initial kernel has one item only, so these two have moved.
  have hmoved : i.marker ≠ 0 ∧ j.marker ≠ 0 := by
    rcases hu.initial_or_moved with hinitial | hmoved
    · rw [hinitial, mem_initialKernel] at hmemi hmemj
      exact absurd (hmemi.trans hmemj.symm) hij
    · exact ⟨hmoved i hmemi, hmoved j hmemj⟩
  rw [Bool.eq_false_iff, Ne, weaklyCompatible_iff_compatible]
  intro hcompatible
  have hshared := hcompatible.shared (t := t) hij
  rw [hf.lookaheads_kernel_of_moved h hfirst hp hmoved.1,
    hf.lookaheads_kernel_of_moved h hfirst hp hmoved.2,
    hf.lookaheads_kernel_of_moved h hfirst hq hmoved.1,
    hf.lookaheads_kernel_of_moved h hfirst hq hmoved.2] at hshared
  exact (hshared hi hj).elim hnotu hnotv

/-- Pager's method parts a state only if some states with its core have kernels that are not weakly
compatible. -/
theorem exists_incompatible_of_parting (h : g.Augmented) (hfirst : first.Within g)
    (hf : a.Faithful g first .canonical kernel) (hf' : b.Faithful g first .pgm kernel')
    (hseparated : ∀ t < b.states.size, ∀ t' < b.states.size, t ≠ t' →
      (kernel' t).core = (kernel' t').core → Apart g first .pgm (kernel' t) (kernel' t'))
    {t' : Nat} (hread : ReadAlike a b s t) (hread' : ReadAlike a b s t') (hne : t ≠ t') :
    ∃ p q st u v, a.state? s = some st ∧ a.state? p = some u ∧ a.state? q = some v ∧
      u.kernel.core = st.kernel.core ∧ v.kernel.core = st.kernel.core ∧
      u.kernel.weaklyCompatible v.kernel = false := by
  have hcounterpart : ∀ {t : Nat}, ReadAlike a b s t →
      (∃ st, a.states[s]? = some st) ∧ t < b.states.size ∧ (kernel s).core = (kernel' t).core := by
    intro t halike
    have ⟨_, hs, ht⟩ := halike
    obtain ⟨stt, hstt⟩ := hf'.state_of_read ht
    exact ⟨hf.state_of_read hs, (Array.getElem?_eq_some_iff.mp hstt).1,
      (hf.core_eq_of_readAlike h hfirst hf' halike).symm⟩
  obtain ⟨⟨st, hst⟩, ht, hcore⟩ := hcounterpart hread
  obtain ⟨_, ht', hcore'⟩ := hcounterpart hread'
  obtain ⟨u, v, hu, hv, htu, htv, huv, hnot⟩ :=
    (hseparated t ht t' ht' hne (hcore.symm.trans hcore')).exists_incompatible h hfirst
  obtain ⟨p, q, stu, stv, hp, hq, hitemsu, hitemsv, hweak⟩ :=
    hf.exists_incompatible_states h hfirst hu hv huv hnot
  have hsame : ∀ {st' : State} {k : ItemSet}, st'.items = k.closure g first →
      (kernel s).core = k.core → st'.kernel.core = st.kernel.core := by
    intro st' k hitems hk
    refine State.core_kernel_eq ?_
    rw [hitems, hf.items hst]
    exact core_closure h.keyed hfirst hk.symm
  exact ⟨p, q, st, stu, stv, hst, hp, hq, hsame hitemsu (hcore.trans htu.core),
    hsame hitemsv (hcore'.trans htv.core), hweak⟩

end Faithful

/-- Pager's method has as many more states than there are without merging as it parts states more
often than it joins them.  It parts a state only if some states with its core have kernels that are
not weakly compatible, so if there are none of these it adds no state. -/
theorem pgm_size_add_partings {declarations : List Declaration} {canonical merged : Automaton}
    (hg : Grammar.define declarations = .ok g)
    (hcanonical : (generate .canonical g).result = .ok canonical)
    (hmerged : (generate .pgm g).result = .ok merged) :
    merged.size + merged.partings canonical = canonical.size + canonical.partings merged ∧
      (∀ s t t', ReadAlike canonical merged s t → ReadAlike canonical merged s t' → t ≠ t' →
        ∃ p q st u v, canonical.state? s = some st ∧ canonical.state? p = some u ∧
          canonical.state? q = some v ∧ u.kernel.core = st.kernel.core ∧
          v.kernel.core = st.kernel.core ∧ u.kernel.weaklyCompatible v.kernel = false) ∧
      ((∀ p q u v, canonical.state? p = some u → canonical.state? q = some v →
        u.kernel.core = v.kernel.core → u.kernel.weaklyCompatible v.kernel = true) →
        merged.size ≤ canonical.size) := by
  have h := Grammar.augmented_of_define hg
  have hfirst := FirstTable.within_ofGrammar g
  obtain ⟨_, hc⟩ := faithful_of_generate h hcanonical
  obtain ⟨_, _, hm, hseparated⟩ := exists_separated h (.refl g) hmerged
  have hcount := size_add_partings hg hmerged hcanonical
  refine ⟨hcount, fun s t t' hread hread' hne =>
    hc.exists_incompatible_of_parting h hfirst hm hseparated hread hread' hne,
    fun hcompatible => ?_⟩
  have hone : ∀ s ∈ Finset.range canonical.size,
      (counterparts canonical merged s).card - 1 = 0 := by
    intro s _
    by_contra hmany
    have hcard : 1 < (counterparts canonical merged s).card := by omega
    obtain ⟨t, ht, t', ht', hne⟩ := Finset.one_lt_card.mp hcard
    obtain ⟨p, q, st, u, v, _, hp, hq, hu, hv, hweak⟩ :=
      hc.exists_incompatible_of_parting h hfirst hm hseparated (mem_counterparts.mp ht).2
        (mem_counterparts.mp ht').2 hne
    rw [hcompatible p q u v hp hq (hu.trans hv.symm)] at hweak
    cases hweak
  have hnone : canonical.partings merged = 0 := Finset.sum_eq_zero hone
  omega

/-- In each of twelve contexts `z` may begin an `A`, a `B`, a `C` or a `D`.  In the context `pij`
what follows `A` and `B` depends on `i` and what follows `C` and `D` on `j`; in the context `qij` it
is the other way round.  Without merging there are twelve states after `z`, but only five after each
`x` and each `y`.  Pager's method merges the states of `pij` and `qij`.  That leaves six after `z`,
but also six after each `x` and each `y`, as the kernels there depend on both `i` and `j` now. -/
def crossedContexts : Sketch where
  terminals := Samples.bare ["p11", "q11", "p12", "q12", "p13", "q13", "p21", "q21", "p22", "q22",
    "p23", "q23", "k", "l", "m", "n", "o", "z", "x", "y"]
  nonterminals := ["S", "X1", "X2", "U1", "U2", "U3", "Y1", "Y2", "Y3", "V1", "V2", "A", "B", "C",
    "D"]
  start := none
  rules :=
    Samples.alternatives "S" [["p11", "X1"], ["p11", "U1"], ["q11", "Y1"], ["q11", "V1"]]
      ++ Samples.alternatives "S" [["p12", "X1"], ["p12", "U2"], ["q12", "Y2"], ["q12", "V1"]]
      ++ Samples.alternatives "S" [["p13", "X1"], ["p13", "U3"], ["q13", "Y3"], ["q13", "V1"]]
      ++ Samples.alternatives "S" [["p21", "X2"], ["p21", "U1"], ["q21", "Y1"], ["q21", "V2"]]
      ++ Samples.alternatives "S" [["p22", "X2"], ["p22", "U2"], ["q22", "Y2"], ["q22", "V2"]]
      ++ Samples.alternatives "S" [["p23", "X2"], ["p23", "U3"], ["q23", "Y3"], ["q23", "V2"]]
      ++ Samples.alternatives "X1" [["A"], ["B", "k"]]
      ++ Samples.alternatives "X2" [["A", "k"], ["B"]]
      ++ Samples.alternatives "U1" [["C"], ["D", "k"]]
      ++ Samples.alternatives "U2" [["C", "k"], ["D", "l"]]
      ++ Samples.alternatives "U3" [["C", "l"], ["D"]]
      ++ Samples.alternatives "Y1" [["A", "m"], ["B", "n"]]
      ++ Samples.alternatives "Y2" [["A", "n"], ["B", "o"]]
      ++ Samples.alternatives "Y3" [["A", "o"], ["B", "m"]]
      ++ Samples.alternatives "V1" [["C", "m"], ["D", "n"]]
      ++ Samples.alternatives "V2" [["C", "n"], ["D", "m"]]
      ++ Samples.alternatives "A" [["z", "x", "x", "x", "x"]]
      ++ Samples.alternatives "B" [["z", "x", "x", "x", "x"]]
      ++ Samples.alternatives "C" [["z", "y", "y", "y"]]
      ++ Samples.alternatives "D" [["z", "y", "y", "y"]]

set_option maxRecDepth 100000 in
/-- Merging may add a state. -/
theorem canonical_lt_pgm_crossedContexts :
    ∃ g canonical merged, Grammar.define crossedContexts.declarations = .ok g ∧
      (generate .canonical g).result = .ok canonical ∧ (generate .pgm g).result = .ok merged ∧
      canonical.size < merged.size := by
  have hcanonical : stateCount? .canonical crossedContexts.declarations = some 121 := by
    decide +kernel
  have hmerged : stateCount? .pgm crossedContexts.declarations = some 122 := by
    decide +kernel
  obtain ⟨g, canonical, hg, hcanonical, hsize⟩ := exists_of_stateCount? hcanonical
  obtain ⟨g', merged, hg', hmerged, hsize'⟩ := exists_of_stateCount? hmerged
  obtain rfl : g = g' := Except.ok.inj (hg.symm.trans hg')
  exact ⟨g, canonical, merged, hg, hcanonical, hmerged, by omega⟩

set_option maxRecDepth 100000 in
theorem pgm_size_add_partings_twoRuns :
    ∃ g canonical merged, Grammar.define twoRuns = .ok g ∧
      (generate .canonical g).result = .ok canonical ∧ (generate .pgm g).result = .ok merged ∧
      merged.size + merged.partings canonical = canonical.size + canonical.partings merged ∧
      (∀ s t t', ReadAlike canonical merged s t → ReadAlike canonical merged s t' → t ≠ t' →
        ∃ p q st u v, canonical.state? s = some st ∧ canonical.state? p = some u ∧
          canonical.state? q = some v ∧ u.kernel.core = st.kernel.core ∧
          v.kernel.core = st.kernel.core ∧ u.kernel.weaklyCompatible v.kernel = false) ∧
      merged.size ≤ canonical.size := by
  have hboth : bothPass .canonical .pgm twoRuns (fun _ canonical _ =>
      decide (∀ u ∈ canonical.states.toList, ∀ v ∈ canonical.states.toList,
        u.kernel.core = v.kernel.core → u.kernel.weaklyCompatible v.kernel = true)) = true := by
    decide +kernel
  obtain ⟨g, canonical, merged, hg, hcanonical, hmerged, hp⟩ := exists_of_bothPass hboth
  have hcompatible := of_decide_eq_true hp
  obtain ⟨hcount, hparting, hsmaller⟩ := pgm_size_add_partings hg hcanonical hmerged
  refine ⟨g, canonical, merged, hg, hcanonical, hmerged, hcount, hparting, hsmaller ?_⟩
  intro p q u v hu hv hcore
  exact hcompatible u (Array.mem_toList_iff.mpr (Array.mem_of_getElem? hu)) v
    (Array.mem_toList_iff.mpr (Array.mem_of_getElem? hv)) hcore

end Automaton
end ParserGen
