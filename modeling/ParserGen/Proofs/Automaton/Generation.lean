import Mathlib.Data.List.Nodup
import ParserGen.Proofs.Automaton.Walk

/-!
# When an automaton is generated

Once a grammar has passed the check, two things could keep it from having an automaton: there are
more states than numbers for them, or an edge leads to a state that the walk through the graph does
not find.  The walk finds all that it can reach in as many steps as there are states, so the second
does not happen.  Every state that is created has a kernel that no state before it was created for,
so the first does not happen if the construction can come upon few kernels only.

Main results:

- Theorem `Automaton.exists_ofStateGraph`: every graph whose edges lead to its states can be
  finished.
- Theorem `StateGraph.exists_ofGrammar`: the graph of states can be built if few kernels arise.
- Theorem `Automaton.exists_generate`: so an automaton is generated.
-/

namespace ParserGen

open ItemSet

/-! ## Finishing a graph -/

namespace Automaton

variable {g : Grammar} {first : FirstTable} {mode : MergeMode}

/-- Every graph whose edges lead to its states can be finished. -/
theorem exists_ofStateGraph {graph : StateGraph} (h : graph.Linked) :
    ∃ a, ofStateGraph g first graph = .ok a := by
  have hfinish : ∀ entry ∈ graph.reachable.zipIdx,
      ∃ result, finishState g first graph graph.reachable entry.1 entry.2 = .ok result := by
    intro entry hentry
    have hmem : entry.1 ∈ graph.reachable := List.fst_mem_of_mem_zipIdx hentry
    have hplaces := renumberEdges_eq_some_iff.mpr
      ⟨fun _ hedge => h.mem_reachable hmem (List.mem_map_of_mem hedge), rfl, rfl⟩
    exact ⟨_, by rw [finishState, hplaces]⟩
  obtain ⟨finished, hfinished⟩ := exists_mapM_eq_ok hfinish
  exact ⟨_, bind_eq_ok hfinished rfl⟩

end Automaton

/-! ## Numbers for the states -/

/-- The construction comes upon no more kernels than there are numbers for states. -/
def FewArise (g : Grammar) (first : FirstTable) (mode : MergeMode) : Prop :=
  ∀ kernels : List ItemSet, kernels.Nodup → (∀ kernel ∈ kernels, Arises g first mode kernel) →
    kernels.length ≤ stateLimit

namespace StateGraph

variable {g : Grammar} {first : FirstTable} {mode : MergeMode} {graph : StateGraph}
  {founders : List ItemSet}

/-- The kernels that the states of a graph were created for: they arise, are registered and differ
from each other. -/
structure Founded (g : Grammar) (first : FirstTable) (mode : MergeMode) (graph : StateGraph)
    (founders : List ItemSet) : Prop where
  nodup : founders.Nodup
  length_eq : founders.length = graph.kernels.size
  arises : ∀ kernel ∈ founders, Arises g first mode kernel
  registered : ∀ kernel ∈ founders, ∃ s, (kernel, s) ∈ graph.registry

/-- A kernel that is not registered differs from all for which there is a state. -/
theorem Founded.created (h : graph.Founded g first mode founders) {kernel : ItemSet}
    (hkernel : Arises g first mode kernel) (hnew : graph.registry.lookup kernel = none) :
    (graph.created kernel).Founded g first mode (kernel :: founders) where
  nodup := by
    refine List.nodup_cons.mpr ⟨fun hmem => ?_, h.nodup⟩
    obtain ⟨s, hrow⟩ := h.registered kernel hmem
    have hne := List.lookup_eq_none_iff.mp hnew _ hrow
    simp at hne
  length_eq := by
    rw [List.length_cons, h.length_eq, size_created]
  arises k hk := by
    rcases List.mem_cons.mp hk with rfl | hk
    · exact hkernel
    · exact h.arises k hk
  registered k hk := by
    rcases List.mem_cons.mp hk with rfl | hk
    · exact ⟨_, List.mem_cons_self⟩
    · obtain ⟨s, hrow⟩ := h.registered k hk
      exact ⟨s, List.mem_cons_of_mem _ hrow⟩

/-- A kernel that is not registered can be given a state of its own. -/
theorem Founded.exists_create (hfew : FewArise g first mode)
    (h : graph.Founded g first mode founders) {kernel : ItemSet}
    (hkernel : Arises g first mode kernel) (hnew : graph.registry.lookup kernel = none) :
    graph.create kernel = .ok (graph.kernels.size, graph.created kernel) ∧
      (graph.created kernel).Founded g first mode (kernel :: founders) := by
  have hfounded := h.created hkernel hnew
  have hlimit : graph.kernels.size < stateLimit := by
    have hle := hfew _ hfounded.nodup hfounded.arises
    rwa [List.length_cons, h.length_eq] at hle
  exact ⟨by rw [create_eq, if_pos hlimit], hfounded⟩

/-- A merge creates no state, and forgets no kernel. -/
theorem Founded.mergeInto (h : graph.Founded g first mode founders) (s : Nat)
    (incoming : ItemSet) : (graph.mergeInto s incoming).Founded g first mode founders := by
  rw [mergeInto_eq]
  split
  · exact h
  · refine ⟨h.nodup, ?_, h.arises, fun k hk => ?_⟩
    · rw [size_regrown, h.length_eq]
    · obtain ⟨t, hrow⟩ := h.registered k hk
      exact ⟨t, List.mem_cons_of_mem _ hrow⟩

/-- A kernel that arises can be placed. -/
theorem Founded.exists_place (hfew : FewArise g first mode)
    (h : graph.Founded g first mode founders) {kernel : ItemSet}
    (hkernel : Arises g first mode kernel) :
    ∃ s next founders', graph.place mode kernel = .ok (s, next) ∧
      next.Founded g first mode founders' := by
  unfold place
  split
  · rename_i s _
    exact ⟨s, graph, founders, rfl, h⟩
  · rename_i hnew
    split
    · rename_i s _
      exact ⟨s, _, founders, rfl, h.mergeInto s kernel⟩
    · exact ⟨_, graph, founders, rfl, h⟩
    · obtain ⟨hcreate, hfounded⟩ := h.exists_create hfew hkernel hnew
      exact ⟨_, _, _, hcreate, hfounded⟩

theorem Founded.exists_placeAll (hfew : FewArise g first mode)
    (h : graph.Founded g first mode founders) {rows : List (Symbol × ItemSet)}
    (hrows : ∀ row ∈ rows, Arises g first mode row.2) :
    ∃ edges next founders', graph.placeAll mode rows = .ok (edges, next) ∧
      next.Founded g first mode founders' := by
  induction rows generalizing graph founders with
  | nil => exact ⟨[], graph, founders, rfl, h⟩
  | cons row rows ih =>
    obtain ⟨x, kernel⟩ := row
    obtain ⟨s, middle, founders₁, hplace, hmiddle⟩ :=
      h.exists_place hfew (hrows _ List.mem_cons_self)
    obtain ⟨edges, next, founders₂, hrest, hnext⟩ :=
      ih hmiddle fun row hrow => hrows row (List.mem_cons_of_mem _ hrow)
    exact ⟨(x, s) :: edges, next, founders₂, bind_eq_ok hplace (bind_eq_ok hrest rfl), hnext⟩

/-- A state can be connected. -/
theorem Founded.exists_connect (hfew : FewArise g first mode)
    (h : graph.Founded g first mode founders) {s : Nat}
    (hkernel : Arises g first mode (graph.kernel s)) :
    ∃ next founders', graph.connect g first mode s = .ok next ∧
      next.Founded g first mode founders' := by
  obtain ⟨edges, placed, founders', hplace, hplaced⟩ :=
    h.exists_placeAll hfew fun _ => hkernel.of_mem_transitions
  let connected : StateGraph :=
    { placed with
      edges := placed.edges.setIfInBounds s edges
      events := placed.events.push (.connected s edges.length) }
  have hconnected : connected.Founded g first mode founders' :=
    ⟨hplaced.nodup, hplaced.length_eq, hplaced.arises, hplaced.registered⟩
  exact ⟨connected, founders', bind_eq_ok hplace rfl, hconnected⟩

/-- The states of a graph can be connected one after the other. -/
theorem Founded.exists_saturate (h : g.Augmented) (hfirst : first.Within g)
    (hfew : FewArise g first mode) (hfounded : graph.Founded g first mode founders)
    (hs : Sound g first mode graph) (hsettled : Settled g first mode graph none) (steps : Nat) :
    ∃ next, graph.saturate g first mode steps = .ok next := by
  induction steps generalizing graph founders with
  | zero => exact ⟨graph, rfl⟩
  | succ steps ih =>
    cases hpop : graph.pending.pop? with
    | none => exact ⟨graph, by simp only [saturate, hpop]⟩
    | some popped =>
      obtain ⟨s, rest⟩ := popped
      obtain ⟨hlt, hpopped, _⟩ := hs.popped hsettled hpop
      have hwaiting : Founded g first mode { graph with pending := rest } founders :=
        ⟨hfounded.nodup, hfounded.length_eq, hfounded.arises, hfounded.registered⟩
      obtain ⟨middle, founders', hconnect, hmiddle⟩ :=
        hwaiting.exists_connect hfew (hpopped.arises s hlt)
      obtain ⟨hsound, hnone, _⟩ := turn_spec h hfirst hs hsettled hpop hconnect
      obtain ⟨next, hnext⟩ := ih hmiddle hsound hnone
      exact ⟨next, by simp only [saturate, hpop, hconnect, hnext]⟩

/-- The graph of states can be built if few kernels arise. -/
theorem exists_ofGrammar (h : g.Augmented) (hfirst : first.Within g)
    (hfew : FewArise g first mode) : ∃ graph, ofGrammar g first mode = .ok graph := by
  have hempty : empty.Founded g first mode [] :=
    ⟨List.nodup_nil, rfl, fun k hk => (by cases hk), fun k hk => (by cases hk)⟩
  obtain ⟨_, hfounded⟩ := hempty.exists_create hfew .initial rfl
  obtain ⟨final, hfinal⟩ :=
    hfounded.exists_saturate h hfirst hfew sound_start settled_start (stepBound g)
  refine ⟨final.report (.populated final.kernels.size), ?_⟩
  exact bind_eq_ok (place_empty initialKernel) (bind_eq_ok hfinal rfl)

end StateGraph

namespace Automaton

/-- A grammar that passes the check has an automaton if few kernels arise. -/
theorem exists_generate {g : Grammar} {mode : MergeMode} (h : g.Augmented)
    (hcheck : g.checkBuildable = .ok ()) (hfew : FewArise g (FirstTable.ofGrammar g) mode) :
    ∃ a, (generate mode g).result = .ok a := by
  have hfirst := FirstTable.within_ofGrammar g
  obtain ⟨graph, hgraph⟩ := StateGraph.exists_ofGrammar h hfirst hfew
  obtain ⟨a, ha⟩ := exists_ofStateGraph (StateGraph.complete_ofGrammar h hfirst hgraph).linked
  exact ⟨a, (result_generate hcheck).trans (bind_eq_ok hgraph ha)⟩

end Automaton
end ParserGen
