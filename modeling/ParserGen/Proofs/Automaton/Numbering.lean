import ParserGen.Proofs.Automaton.Actions
import ParserGen.Proofs.Automaton.Generation
import ParserGen.Proofs.Automaton.Rooted
import ParserGen.Proofs.Repetitions

/-!
# The numbers of the states

An automaton has the states of the graph that can be reached from the initial one, under new
numbers.  They are numbered as they are discovered when the states are gone through in the order of
their numbers, each with its edges in their order.

Main results:

- Theorem `Automaton.renumbers_of_ofStateGraph`: an automaton is the part of the graph that can be
  reached, under new numbers.
- Theorem `Automaton.generate_numbers_states`: no edge is left dangling, and the states that are
  left are numbered breadth first.
-/

namespace ParserGen

open ItemSet

/-! ## The numbers of an automaton -/

namespace Automaton

variable {g : Grammar} {first : FirstTable} {mode : MergeMode} {a : Automaton}
  {graph : StateGraph} {order : List Nat} {s t k : Nat} {st : State}

/-- The states that are mentioned when the first states are gone through with their edges: the
initial one, and those that the edges lead to. -/
def mentioned (a : Automaton) (k : Nat) : List Nat :=
  initialState :: (a.states.toList.take k).flatMap fun st => st.transitions.map (·.2)

/-- States are numbered as they are first mentioned, and before its turn comes each state has been
mentioned. -/
structure NumberedBreadthFirst (a : Automaton) : Prop where
  discovered : ∀ k < a.size, ∃ m > k, (a.mentioned k).eraseDups = List.range m
  all : (a.mentioned a.size).eraseDups = List.range a.size

/-- An edge leads from one state to the other. -/
def Leads (a : Automaton) (s t : Nat) : Prop :=
  ∃ st, a.state? s = some st ∧ t ∈ st.transitions.map (·.2)

/-- The states of an automaton are those of a graph that can be reached from the initial one.  A
state of the graph has its place in `order` as its new number; it keeps its kernel, and its edges
with their order, of which those on nonterminals are its gotos. -/
structure Renumbers (g : Grammar) (first : FirstTable) (graph : StateGraph) (order : List Nat)
    (a : Automaton) : Prop where
  nodup : order.Nodup
  initial : order[initialState]? = some 0
  mem_iff : ∀ s, s ∈ order ↔ Relation.ReflTransGen graph.Leads 0 s
  size_eq : a.size = order.length
  states : ∀ {s : Nat} {st : State}, a.state? s = some st → ∃ old, order[s]? = some old ∧
    st.items = (graph.kernel old).closure g first ∧
    st.transitions = (graph.edges.getD old []).map fun edge => (edge.1, order.idxOf edge.2)
  gotos : ∀ {s : Nat} {st : State}, a.state? s = some st →
    st.gotos = onNonterminals st.transitions

/-- An automaton is the part of its graph that can be reached, under new numbers. -/
theorem renumbers_of_ofStateGraph (h : graph.Linked) (hbuilt : ofStateGraph g first graph = .ok a) :
    a.Renumbers g first graph graph.reachable := by
  obtain ⟨hsize, _, _, _, hstates⟩ := ofStateGraph_spec hbuilt
  refine ⟨h.nodup_reachable, h.reachable_zero, fun s => h.mem_reachable_iff, hsize, ?_, ?_⟩
  · intro s st hst
    obtain ⟨old, hold, hdone⟩ := hstates s st hst
    obtain ⟨hrenumbered, hitems, _⟩ := finishState_spec hdone
    exact ⟨old, hold, hitems, (renumberEdges_eq_some_iff.mp hrenumbered).2.1⟩
  · intro s st hst
    obtain ⟨_, _, hdone⟩ := hstates s st hst
    exact (renumberEdges_eq_some_iff.mp (finishState_spec hdone).1).2.2

namespace Renumbers

/-- The states that edges lead to are those of the graph, in the same order. -/
theorem targets_eq (h : a.Renumbers g first graph order) :
    a.states.toList.map (fun st => st.transitions.map (·.2)) =
      order.map fun old => (graph.successors old).map order.idxOf := by
  refine List.ext_getElem? fun s => ?_
  rw [List.getElem?_map, List.getElem?_map, Array.getElem?_toList]
  cases hst : a.states[s]? with
  | none =>
    have hle : order.length ≤ s := h.size_eq ▸ Array.getElem?_eq_none_iff.mp hst
    rw [List.getElem?_eq_none hle]
    rfl
  | some st =>
    obtain ⟨old, hold, _, htransitions⟩ := h.states hst
    simp [hold, htransitions, StateGraph.successors]

/-- The automaton mentions the same states as the graph, under their new numbers. -/
theorem mentioned_eq_map (h : a.Renumbers g first graph order) (k : Nat) :
    a.mentioned k = (graph.mentioned (order.take k)).map order.idxOf := by
  have hinitial : order.idxOf 0 = initialState := by
    obtain ⟨hlt, hget⟩ := List.getElem?_eq_some_iff.mp h.initial
    rw [← hget, h.nodup.idxOf_getElem _ hlt]
  rw [mentioned, StateGraph.mentioned, List.map_cons, hinitial, List.map_flatMap, List.flatMap_def,
    List.map_take, h.targets_eq, ← List.map_take, ← List.flatMap_def]

/-- The states come in the order in which the automaton mentions them. -/
theorem discovered (hnumbers : a.Renumbers g first graph graph.reachable) (h : graph.Linked)
    (hk : k ≤ a.size) : ∃ m ≥ k, (a.mentioned k).eraseDups = List.range (min m a.size) ∧
      (k < a.size → k < m) := by
  rw [hnumbers.size_eq] at hk ⊢
  obtain ⟨m, hm, hmentioned, hlt⟩ := h.discovers_reachable hk
  refine ⟨m, hm, ?_, hlt⟩
  have hsubset := h.mentioned_subset (List.take_subset k graph.reachable)
  rw [hnumbers.mentioned_eq_map, eraseDups_map fun s hs t _ => (List.idxOf_inj (hsubset hs)).mp,
    hmentioned, List.map_take, map_idxOf_eq_range hnumbers.nodup, List.take_range]

/-- What is reached breadth first is numbered breadth first. -/
theorem numberedBreadthFirst (hnumbers : a.Renumbers g first graph graph.reachable)
    (h : graph.Linked) : a.NumberedBreadthFirst where
  discovered k hk := by
    obtain ⟨m, _, hrange, hlt⟩ := hnumbers.discovered h (Nat.le_of_lt hk)
    exact ⟨min m a.size, lt_min (hlt hk) hk, hrange⟩
  all := by
    obtain ⟨m, hm, hrange, _⟩ := hnumbers.discovered h (Nat.le_refl a.size)
    rwa [Nat.min_eq_right hm] at hrange

/-- Edges lead to states. -/
theorem target_lt (h : a.Renumbers g first graph order) (hst : a.state? s = some st) {x : Symbol}
    (hedge : (x, t) ∈ st.transitions) : t < a.size := by
  obtain ⟨old, hold, _, htransitions⟩ := h.states hst
  rw [htransitions] at hedge
  obtain ⟨⟨y, target⟩, hold_edge, heq⟩ := List.mem_map.mp hedge
  obtain ⟨rfl, rfl⟩ := Prod.mk.inj heq
  have hleads : graph.Leads old target := List.mem_map.mpr ⟨_, hold_edge, rfl⟩
  have hreach := (h.mem_iff old).mp (List.mem_of_getElem? hold)
  rw [h.size_eq]
  exact List.idxOf_lt_length_of_mem ((h.mem_iff target).mpr (hreach.tail hleads))

end Renumbers

/-- Every state is reached from the initial one. -/
theorem NumberedBreadthFirst.leads (h : a.NumberedBreadthFirst) (hs : s < a.size) :
    Relation.ReflTransGen a.Leads initialState s := by
  induction s using Nat.strongRecOn with
  | _ s ih =>
    obtain ⟨m, hm, hrange⟩ := h.discovered s hs
    have hmem : s ∈ a.mentioned s := by
      rw [← List.mem_eraseDups, hrange]
      exact List.mem_range.mpr hm
    rcases List.mem_cons.mp hmem with rfl | hmem
    · exact .refl
    · obtain ⟨st, hst, ht⟩ := List.mem_flatMap.mp hmem
      obtain ⟨r, hr, hget⟩ := List.mem_take_iff_getElem.mp hst
      rw [Array.length_toList] at hr
      have hstate : a.state? r = some st := by
        rw [← hget, Array.getElem_toList]
        exact Array.getElem?_eq_getElem _
      exact (ih r (by omega) (by omega)).tail ⟨st, hstate, ht⟩

/-- The check knows nothing of edges. -/
theorem ne_danglingEdge_of_checkBuildable {e : BuildError} (h : g.checkBuildable = .error e) :
    e ≠ .danglingEdge s := by
  rintro rfl
  unfold Grammar.checkBuildable at h
  split at h
  · cases h
  · split at h
    · cases h
    · split at h
      · cases h
      · split at h <;> cases h

/-- The edges that are kept are those on nonterminals. -/
theorem mem_onNonterminals {edges : List (Symbol × Nat)} {n : Nat} :
    (n, t) ∈ onNonterminals edges ↔ (.nonterminal n, t) ∈ edges := by
  rw [onNonterminals, List.mem_filterMap]
  constructor
  · rintro ⟨⟨x, target⟩, hmem, hx⟩
    cases x with
    | terminal b => cases hx
    | nonterminal m =>
      cases hx
      exact hmem
  · intro hmem
    exact ⟨_, hmem, rfl⟩

/-- Once the check is passed and the graph is built, the graph can be finished. -/
theorem exists_generate_of_graph (hcheck : g.checkBuildable = .ok ())
    (hgraph : StateGraph.ofGrammar g (FirstTable.ofGrammar g) mode = .ok graph) :
    ∃ a, (generate mode g).result = .ok a := by
  have hlinked := (StateGraph.rooted_ofGrammar hgraph).toLinked
  obtain ⟨a, ha⟩ : ∃ a, ofStateGraph g (FirstTable.ofGrammar g) graph = .ok a :=
    exists_ofStateGraph hlinked
  exact ⟨a, (result_generate hcheck).trans (bind_eq_ok hgraph ha)⟩

/-- No edge is left dangling. -/
theorem generate_ne_danglingEdge (mode : MergeMode) (g : Grammar) (s : Nat) :
    (generate mode g).result ≠ .error (.danglingEdge s) := by
  intro hrun
  cases hcheck : g.checkBuildable with
  | error e =>
    rw [generate, hcheck] at hrun
    exact ne_danglingEdge_of_checkBuildable hcheck (Except.error.inj hrun)
  | ok _ =>
    cases hgraph : StateGraph.ofGrammar g (FirstTable.ofGrammar g) mode with
    | error e =>
      rw [result_generate hcheck, bind_of_eq_error hgraph] at hrun
      rw [StateGraph.failsOnly_ofGrammar e hgraph] at hrun
      cases hrun
    | ok graph =>
      obtain ⟨a, ha⟩ := exists_generate_of_graph hcheck hgraph
      rw [ha] at hrun
      cases hrun

/-- Whatever the grammar and the mode, no edge is left dangling, so that a grammar that passes the
check has an automaton as soon as it has a graph.  The automaton is the part of the graph that can
be reached from the initial kernel, under new numbers: its states are numbered as they are
discovered, state zero is the initial one, every state can be reached from it, and edges lead to
states, those on nonterminals being the gotos. -/
theorem generate_numbers_states (mode : MergeMode) (g : Grammar) :
    (∀ s, (generate mode g).result ≠ .error (.danglingEdge s)) ∧
      (∀ graph, g.checkBuildable = .ok () →
        StateGraph.ofGrammar g (FirstTable.ofGrammar g) mode = .ok graph →
        ∃ a, (generate mode g).result = .ok a) ∧
      ∀ a, (generate mode g).result = .ok a →
        (∃ graph order, StateGraph.ofGrammar g (FirstTable.ofGrammar g) mode = .ok graph ∧
          graph.kernel 0 = StateGraph.initialKernel ∧
          a.Renumbers g (FirstTable.ofGrammar g) graph order) ∧
        a.NumberedBreadthFirst ∧
        (∃ st, a.state? initialState = some st ∧
          st.items = StateGraph.initialKernel.closure g (FirstTable.ofGrammar g)) ∧
        (∀ s < a.size, Relation.ReflTransGen a.Leads initialState s) ∧
        ∀ s st, a.state? s = some st →
          (∀ x t, (x, t) ∈ st.transitions → t < a.size) ∧
          (∀ n t, (n, t) ∈ st.gotos ↔ (.nonterminal n, t) ∈ st.transitions) ∧
          ∀ n, st.goto? n = st.target? (.nonterminal n) := by
  refine ⟨generate_ne_danglingEdge mode g, fun graph => exists_generate_of_graph, ?_⟩
  intro a hrun
  obtain ⟨graph, hgraph, hbuilt⟩ := exists_graph_of_generate hrun
  have hrooted := StateGraph.rooted_ofGrammar hgraph
  have hnumbers := renumbers_of_ofStateGraph hrooted.toLinked hbuilt
  have hfirst := hnumbers.numberedBreadthFirst hrooted.toLinked
  have hpos : initialState < a.size :=
    hnumbers.size_eq ▸ (List.getElem?_eq_some_iff.mp hnumbers.initial).1
  refine ⟨⟨graph, _, hgraph, hrooted.root, hnumbers⟩, hfirst, ?_, fun s hs => hfirst.leads hs, ?_⟩
  · obtain ⟨st, hst⟩ := state_of_lt hpos
    obtain ⟨old, hold, hitems, _⟩ := hnumbers.states hst
    obtain rfl := Option.some.inj (hnumbers.initial.symm.trans hold)
    exact ⟨st, hst, hrooted.root ▸ hitems⟩
  · intro s st hst
    have hgotos := hnumbers.gotos hst
    exact ⟨fun x t => hnumbers.target_lt hst, fun n t => hgotos ▸ mem_onNonterminals,
      State.goto?_eq_target? hgotos⟩

/-- Runs of letters from two nonterminals that begin alike.  As the states of its graph are merged,
two of them lose all edges to them, the fifth and the last. -/
def entangledRuns : List Declaration :=
  [.terminal "letter" none, .nonterminal "run", .nonterminal "part",
    .rule 2 [.terminal 1, .nonterminal 1] none, .rule 1 [.terminal 1] none,
    .rule 1 [.nonterminal 2, .nonterminal 1] none, .rule 2 [.terminal 1, .nonterminal 2] none,
    .rule 1 [.terminal 1, .nonterminal 2] none]

set_option maxRecDepth 100000 in
/-- Of the nine states that merging leaves in the graph of the entangled runs, seven can be reached.
The fifth is left out, so that the states after it get new numbers. -/
theorem generate_numbers_states_entangledRuns :
    ∃ g graph order a, Grammar.define entangledRuns = .ok g ∧
      StateGraph.ofGrammar g (FirstTable.ofGrammar g) .pgm = .ok graph ∧
      (generate .pgm g).result = .ok a ∧ graph.kernels.size = 9 ∧ a.size = 7 ∧
      4 ∉ order ∧ 5 ∈ order ∧ a.Renumbers g (FirstTable.ofGrammar g) graph order ∧
      a.NumberedBreadthFirst ∧ ∀ s < 7, Relation.ReflTransGen a.Leads initialState s := by
  have hsome : (ofDeclarations .pgm entangledRuns).any (fun built => decide (built.2.size = 7) &&
      (StateGraph.ofGrammar built.1 (FirstTable.ofGrammar built.1) .pgm).toOption.any fun graph =>
        decide (graph.kernels.size = 9 ∧ 4 ∉ graph.reachable ∧ 5 ∈ graph.reachable)) = true := by
    decide +kernel
  obtain ⟨g, a, hg, hrun, hp⟩ := exists_of_ofDeclarations hsome
  obtain ⟨hsize, hgraph⟩ := Bool.and_eq_true_iff.mp hp
  replace hsize : a.size = 7 := of_decide_eq_true hsize
  obtain ⟨⟨graph, order, hbuilt, _, hnumbers⟩, hfirst, _, hreach, _⟩ :=
    (generate_numbers_states .pgm g).2.2 a hrun
  rw [hbuilt] at hgraph
  obtain ⟨hkernels, hlost, hkept⟩ := of_decide_eq_true hgraph
  -- The order of the states has those that the walk visits.
  have hmem : ∀ s, s ∈ order ↔ s ∈ graph.reachable := fun s =>
    (hnumbers.mem_iff s).trans (StateGraph.rooted_ofGrammar hbuilt).toLinked.mem_reachable_iff.symm
  exact ⟨g, graph, order, a, hg, hbuilt, hrun, hkernels, hsize, mt (hmem 4).mp hlost,
    (hmem 5).mpr hkept, hnumbers, hfirst, hsize ▸ hreach⟩

end Automaton
end ParserGen
