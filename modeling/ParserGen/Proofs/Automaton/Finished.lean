import ParserGen.Automaton.Construction
import ParserGen.Grammar.Definition
import ParserGen.Proofs.Automaton.StateGraph

/-!
# Finished automata

The states of an automaton are those of a complete graph under new numbers.  A theorem about the
automaton needs to know neither the graph nor the numbers, only that each state has a kernel, that
its items are the closure of the kernel, and that its edges lead to states that host the successors.

Main results:

- Theorem `Automaton.faithful_of_complete`: the automaton of a complete graph is of this form.
- Theorem `Automaton.faithful_of_generate`: every automaton that is generated is of this form.
-/

namespace ParserGen

open ItemSet

namespace StateGraph

variable {graph : StateGraph}

/-- What holds of the states that wait, and is kept along edges, holds of all states that a walk
visits. -/
theorem walk_induction {P : Nat → Prop}
    (hedges : ∀ s, P s → ∀ t ∈ graph.successors s, t < graph.edges.size → P t) {steps : Nat}
    {seen : IdSet} {queue : List Nat} (hqueue : ∀ s ∈ queue, P s) :
    ∀ s ∈ graph.walk steps seen queue, P s := by
  induction steps generalizing seen queue with
  | zero =>
    intro s hs
    cases hs
  | succ steps ih =>
    cases queue with
    | nil =>
      intro s hs
      cases hs
    | cons head queue =>
      intro s hs
      rcases List.mem_cons.mp hs with rfl | hs
      · exact hqueue s List.mem_cons_self
      · refine ih ?_ s hs
        intro t ht
        rcases List.mem_append.mp ht with ht | ht
        · exact hqueue t (List.mem_cons_of_mem _ ht)
        · obtain ⟨hsuccessor, hfound⟩ := List.mem_filter.mp (List.mem_eraseDups.mp ht)
          simp only [Bool.and_eq_true, decide_eq_true_eq] at hfound
          exact hedges head (hqueue head List.mem_cons_self) t hsuccessor hfound.1

/-- The walk visits states of the graph only. -/
theorem lt_of_mem_walk {steps : Nat} {seen : IdSet} {queue : List Nat}
    (hqueue : ∀ s ∈ queue, s < graph.edges.size) :
    ∀ s ∈ graph.walk steps seen queue, s < graph.edges.size :=
  walk_induction (fun _ _ _ _ hlt => hlt) hqueue

/-- The edges of a graph lead to its states, of which there is an initial one. -/
structure Linked (graph : StateGraph) : Prop where
  size_edges : graph.edges.size = graph.kernels.size
  pos : 0 < graph.kernels.size
  targets : ∀ {s : Nat} {x : Symbol} {t : Nat}, (x, t) ∈ graph.edges.getD s [] →
    t < graph.kernels.size

/-- The edges of a complete graph lead to its states. -/
theorem Complete.linked {g : Grammar} {first : FirstTable} {mode : MergeMode}
    (h : graph.Complete g first mode) : graph.Linked where
  size_edges := h.size_edges
  pos := h.pos
  targets {s x t} hedge := by
    by_cases hs : s < graph.kernels.size
    · exact ((h.connected s hs).targets hedge).1
    · -- There are no edges where there is no state.
      rw [← h.size_edges] at hs
      rw [Array.getD_eq_getD_getElem?, Array.getElem?_eq_none (Nat.not_lt.mp hs)] at hedge
      cases hedge

/-- What can be reached are states of the graph. -/
theorem Linked.lt_of_mem_reachable (h : graph.Linked) {s : Nat} (hs : s ∈ graph.reachable) :
    s < graph.kernels.size := by
  rw [← h.size_edges]
  refine lt_of_mem_walk ?_ s hs
  intro t ht
  rw [List.mem_singleton.mp ht, h.size_edges]
  exact h.pos

/-- The initial state keeps its number. -/
theorem Linked.reachable_zero (h : graph.Linked) : graph.reachable[0]? = some 0 := by
  obtain ⟨n, hn⟩ := Nat.exists_eq_succ_of_ne_zero (Nat.ne_of_gt h.pos)
  rw [reachable, hn]
  rfl

end StateGraph

namespace Automaton

variable {g : Grammar} {first : FirstTable} {mode : MergeMode} {a : Automaton}

/-- The edges on nonterminals, without their kind. -/
def onNonterminals (edges : List (Symbol × Nat)) : List (Nat × Nat) :=
  edges.filterMap fun (x, target) => x.nonterminal?.map fun n => (n, target)

/-- An automaton whose states are closures of kernels, and whose edges lead to states that host what
their symbols lead to. -/
structure Faithful (g : Grammar) (first : FirstTable) (mode : MergeMode) (a : Automaton)
    (kernel : Nat → ItemSet) : Prop where
  pos : 0 < a.states.size
  initial : Hosts mode (kernel initialState) StateGraph.initialKernel
  arises : ∀ {s : Nat} {st : State}, a.states[s]? = some st → Arises g first mode (kernel s)
  items : ∀ {s : Nat} {st : State}, a.states[s]? = some st →
    st.items = (kernel s).closure g first
  symbols : ∀ {s : Nat} {st : State}, a.states[s]? = some st →
    st.transitions.map (·.1) = st.items.nextSymbols g
  targets : ∀ {s : Nat} {st : State}, a.states[s]? = some st →
    ∀ {x : Symbol} {t : Nat}, (x, t) ∈ st.transitions →
      t < a.states.size ∧ Hosts mode (kernel t) ((kernel s).successor g first x)
  gotos : ∀ {s : Nat} {st : State}, a.states[s]? = some st →
    st.gotos = onNonterminals st.transitions
  actions : ∀ {s : Nat} {st : State}, a.states[s]? = some st →
    st.actions = (actionRows g s st.items st.transitions).map fun row => (row.1, row.2.1)
  conflicts : ∀ {c : Conflict}, c ∈ a.conflicts ↔ ∃ s st, a.states[s]? = some st ∧
    c ∈ (actionRows g s st.items st.transitions).filterMap fun row => row.2.2
  reductions : a.reductions = reductionsOf g

theorem state_of_lt {s : Nat} (hs : s < a.states.size) : ∃ st, a.states[s]? = some st :=
  ⟨_, Array.getElem?_eq_getElem hs⟩

/-- A state that is visited has a place in the order. -/
theorem idxOf?_of_mem {order : List Nat} {target : Nat} (h : target ∈ order) :
    order.idxOf? target = some (order.idxOf target) := by
  obtain ⟨new, hnew⟩ := Option.isSome_iff_exists.mp (List.isSome_idxOf?.mpr h)
  rw [List.idxOf_eq_getD_idxOf?, hnew]
  rfl

/-- An edge to a state without a place cannot be renumbered. -/
theorem renumberEdges_cons_of_not_mem {order : List Nat} {edges : List (Symbol × Nat)} {x : Symbol}
    {target : Nat} (h : target ∉ order) : renumberEdges order ((x, target) :: edges) = none := by
  simp [renumberEdges, List.idxOf?_eq_none_iff.mpr h]

/-- An edge to a state with a place is kept, and once more among those on nonterminals if it is on
one. -/
theorem renumberEdges_cons_of_mem {order : List Nat} {edges : List (Symbol × Nat)} {x : Symbol}
    {target : Nat} (h : target ∈ order) : renumberEdges order ((x, target) :: edges) =
      (renumberEdges order edges).map fun (transitions, gotos) =>
        ((x, order.idxOf target) :: transitions,
          onNonterminals [(x, order.idxOf target)] ++ gotos) := by
  cases hrest : renumberEdges order edges with
  | none => simp [renumberEdges, idxOf?_of_mem h, hrest]
  | some rest =>
    cases x <;> simp [renumberEdges, idxOf?_of_mem h, hrest, onNonterminals, Symbol.nonterminal?]

/-- Edges can be renumbered if their targets have places, which they then lead to. -/
theorem renumberEdges_eq_some_iff {order : List Nat} {edges transitions : List (Symbol × Nat)}
    {gotos : List (Nat × Nat)} :
    renumberEdges order edges = some (transitions, gotos) ↔ (∀ edge ∈ edges, edge.2 ∈ order) ∧
      transitions = (edges.map fun edge => (edge.1, order.idxOf edge.2)) ∧
        gotos = onNonterminals transitions := by
  induction edges generalizing transitions gotos with
  | nil =>
    constructor
    · rintro ⟨⟩
      exact ⟨by simp, rfl, rfl⟩
    · rintro ⟨-, rfl, rfl⟩
      rfl
  | cons edge edges ih =>
    obtain ⟨x, target⟩ := edge
    by_cases htarget : target ∈ order
    · rw [renumberEdges_cons_of_mem htarget, Option.map_eq_some_iff]
      constructor
      · rintro ⟨⟨transitions', gotos'⟩, hrest, hcons⟩
        obtain ⟨rfl, rfl⟩ := Prod.mk.inj hcons
        obtain ⟨hplaces, rfl, rfl⟩ := ih.mp hrest
        exact ⟨List.forall_mem_cons.mpr ⟨htarget, hplaces⟩, rfl, (List.filterMap_append ..).symm⟩
      · rintro ⟨hplaces, rfl, rfl⟩
        exact ⟨_, ih.mpr ⟨(List.forall_mem_cons.mp hplaces).2, rfl, rfl⟩,
          Prod.ext rfl (List.filterMap_append ..).symm⟩
    · rw [renumberEdges_cons_of_not_mem htarget]
      constructor
      · rintro ⟨⟩
      · rintro ⟨hplaces, _⟩
        exact absurd (hplaces _ List.mem_cons_self) htarget

/-- Renumbering keeps the symbols of the edges, takes their targets to their new places, and lists
those on nonterminals a second time. -/
theorem renumberEdges_spec {order : List Nat} {edges transitions : List (Symbol × Nat)}
    {gotos : List (Nat × Nat)} (h : renumberEdges order edges = some (transitions, gotos)) :
    transitions.map (·.1) = edges.map (·.1) ∧ gotos = onNonterminals transitions ∧
      ∀ x t, (x, t) ∈ transitions → ∃ target, order[t]? = some target ∧ (x, target) ∈ edges := by
  obtain ⟨hplaces, rfl, hgotos⟩ := renumberEdges_eq_some_iff.mp h
  refine ⟨by rw [List.map_map]; rfl, hgotos, fun x t hmem => ?_⟩
  obtain ⟨⟨y, target⟩, hedge, heq⟩ := List.mem_map.mp hmem
  obtain ⟨rfl, rfl⟩ := Prod.mk.inj heq
  exact ⟨target, List.getElem?_idxOf (hplaces _ hedge), hedge⟩

/-- What a finished state is made of. -/
theorem finishState_spec {graph : StateGraph} {order : List Nat} {old new : Nat} {st : State}
    {conflicts : List Conflict}
    (h : finishState g first graph order old new = .ok (st, conflicts)) :
    renumberEdges order (graph.edges.getD old []) = some (st.transitions, st.gotos) ∧
      st.items = (graph.kernel old).closure g first ∧
      st.actions = (actionRows g new st.items st.transitions).map (fun row => (row.1, row.2.1)) ∧
      conflicts = (actionRows g new st.items st.transitions).filterMap fun row => row.2.2 := by
  unfold finishState at h
  split at h
  · cases h
  · rename_i transitions gotos hrenumbered
    cases h
    exact ⟨hrenumbered, rfl, rfl, rfl⟩

/-- The states of an automaton are those of the graph, in the order of the walk. -/
theorem ofStateGraph_spec {graph : StateGraph} (h : ofStateGraph g first graph = .ok a) :
    a.states.size = graph.reachable.length ∧ a.reductions = reductionsOf g ∧
      ∃ conflicts : Nat → List Conflict,
        (∀ c, c ∈ a.conflicts ↔ ∃ s < a.states.size, c ∈ conflicts s) ∧
        ∀ s st, a.states[s]? = some st → ∃ old, graph.reachable[s]? = some old ∧
          finishState g first graph graph.reachable old s = .ok (st, conflicts s) := by
  unfold ofStateGraph at h
  obtain ⟨finished, hfinished, h⟩ := exists_of_bind_eq_ok h
  cases h
  obtain ⟨hlength, hget⟩ := List.forall₂_iff_get.mp (forall₂_of_mapM_eq_ok hfinished)
  rw [List.length_zipIdx] at hlength
  refine ⟨by simp [hlength], rfl, fun s => (finished[s]?.map (·.2)).getD [], ?_, ?_⟩
  · intro c
    simp only [List.mem_flatMap, List.size_toArray, List.length_map]
    constructor
    · rintro ⟨result, hmem, hc⟩
      obtain ⟨s, hs, rfl⟩ := List.mem_iff_getElem.mp hmem
      exact ⟨s, hs, by simpa [List.getElem?_eq_getElem hs] using hc⟩
    · rintro ⟨s, hs, hc⟩
      exact ⟨finished[s], List.getElem_mem hs, by simpa [List.getElem?_eq_getElem hs] using hc⟩
  · intro s st hst
    rw [List.getElem?_toArray, List.getElem?_map] at hst
    obtain ⟨result, hresult, rfl⟩ := Option.map_eq_some_iff.mp hst
    obtain ⟨hs, rfl⟩ := List.getElem?_eq_some_iff.mp hresult
    have hold : s < graph.reachable.length := hlength ▸ hs
    have hdone := hget s (by rw [List.length_zipIdx]; exact hold) hs
    simp only [List.get_eq_getElem, List.getElem_zipIdx, Nat.zero_add] at hdone
    refine ⟨_, List.getElem?_eq_getElem hold, ?_⟩
    simpa [List.getElem?_eq_getElem hs] using hdone

/-- The automaton of a complete graph is faithful: a state has the kernel of the state of the graph
that it was. -/
theorem faithful_of_complete {graph : StateGraph} (hcomplete : graph.Complete g first mode)
    (hbuilt : ofStateGraph g first graph = .ok a) :
    a.Faithful g first mode fun s => graph.kernel (graph.reachable.getD s 0) := by
  obtain ⟨hsize, hreductions, conflicts, hconflicts, hstates⟩ := ofStateGraph_spec hbuilt
  have hkernel : ∀ s old, graph.reachable[s]? = some old →
      graph.kernel (graph.reachable.getD s 0) = graph.kernel old := by
    intro s old hold
    rw [List.getD_eq_getElem?_getD, hold]
    rfl
  have hlt : ∀ s old, graph.reachable[s]? = some old → old < graph.kernels.size :=
    fun s old hold => hcomplete.linked.lt_of_mem_reachable (List.mem_of_getElem? hold)
  constructor
  · rw [hsize]
    exact (List.getElem?_eq_some_iff.mp hcomplete.linked.reachable_zero).1
  · show Hosts mode (graph.kernel (graph.reachable.getD 0 0)) _
    rw [hkernel 0 0 hcomplete.linked.reachable_zero]
    exact hcomplete.initial
  · intro s st hst
    obtain ⟨old, hold, _⟩ := hstates s st hst
    rw [hkernel s old hold]
    exact hcomplete.arises old (hlt s old hold)
  · intro s st hst
    obtain ⟨old, hold, hdone⟩ := hstates s st hst
    rw [hkernel s old hold]
    exact (finishState_spec hdone).2.1
  · intro s st hst
    obtain ⟨old, hold, hdone⟩ := hstates s st hst
    obtain ⟨htransitions, hitems, _⟩ := finishState_spec hdone
    rw [(renumberEdges_spec htransitions).1, hitems]
    exact (hcomplete.connected old (hlt s old hold)).symbols
  · intro s st hst x t hedge
    obtain ⟨old, hold, hdone⟩ := hstates s st hst
    obtain ⟨htransitions, _⟩ := finishState_spec hdone
    obtain ⟨target, htarget, hmem⟩ := (renumberEdges_spec htransitions).2.2 x t hedge
    rw [hkernel s old hold, hkernel t target htarget, hsize]
    exact ⟨(List.getElem?_eq_some_iff.mp htarget).1,
      ((hcomplete.connected old (hlt s old hold)).targets hmem).2⟩
  · intro s st hst
    obtain ⟨old, _, hdone⟩ := hstates s st hst
    exact (renumberEdges_spec (finishState_spec hdone).1).2.1
  · intro s st hst
    obtain ⟨old, hold, hdone⟩ := hstates s st hst
    exact (finishState_spec hdone).2.2.1
  · intro c
    rw [hconflicts]
    constructor
    · rintro ⟨s, hs, hc⟩
      have hst := Array.getElem?_eq_getElem hs
      obtain ⟨old, _, hdone⟩ := hstates s _ hst
      exact ⟨s, _, hst, (finishState_spec hdone).2.2.2 ▸ hc⟩
    · rintro ⟨s, st, hst, hc⟩
      obtain ⟨old, _, hdone⟩ := hstates s st hst
      refine ⟨s, (Array.getElem?_eq_some_iff.mp hst).1, ?_⟩
      rw [(finishState_spec hdone).2.2.2]
      exact hc
  · exact hreductions

/-- What comes of a graph is what comes of finishing it. -/
theorem result_conclude (opening : List Event) (x : Except BuildError StateGraph) :
    (conclude g first opening x).result = x >>= ofStateGraph g first := by
  cases x with
  | error e => rfl
  | ok graph =>
    rw [bind_of_eq_ok rfl, conclude]
    cases ofStateGraph g first graph <;> rfl

/-- Once a grammar has passed the check, its graph is built and finished. -/
theorem result_generate (hcheck : g.checkBuildable = .ok ()) :
    (generate mode g).result = StateGraph.ofGrammar g (FirstTable.ofGrammar g) mode >>=
      ofStateGraph g (FirstTable.ofGrammar g) := by
  rw [generate, hcheck]
  dsimp only
  rw [result_conclude]

/-- An automaton is built only if the check is passed. -/
theorem checkBuildable_of_generate (hrun : (generate mode g).result = .ok a) :
    g.checkBuildable = .ok () := by
  cases hcheck : g.checkBuildable with
  | ok _ => rfl
  | error e =>
    rw [generate, hcheck] at hrun
    cases hrun

/-- An automaton that is generated is that of the graph of the grammar. -/
theorem exists_graph_of_generate (hrun : (generate mode g).result = .ok a) :
    ∃ graph, StateGraph.ofGrammar g (FirstTable.ofGrammar g) mode = .ok graph ∧
      ofStateGraph g (FirstTable.ofGrammar g) graph = .ok a := by
  rw [result_generate (checkBuildable_of_generate hrun)] at hrun
  exact exists_of_bind_eq_ok hrun

/-- An automaton is built only if all symbols of the rules are known. -/
theorem knowsRule_of_generate (hrun : (generate mode g).result = .ok a) {r : Rule}
    (hr : r ∈ g.ruleList) : g.knowsRule r = true := by
  have hcheck := checkBuildable_of_generate hrun
  unfold Grammar.checkBuildable at hcheck
  split at hcheck
  · cases hcheck
  · rename_i hfind
    simpa using List.find?_eq_none.mp hfind r hr

/-- The FIRST table that an automaton is built from is closed under the rules, since all symbols of
the rules are known. -/
theorem closed_of_generate (hrun : (generate mode g).result = .ok a) :
    (FirstTable.ofGrammar g).Closed g := by
  refine FirstTable.closed_ofGrammar fun r hr => ?_
  have hknows := knowsRule_of_generate hrun hr
  rw [Grammar.knowsRule, Bool.and_eq_true] at hknows
  exact hknows.1

/-- Every automaton that is generated is faithful. -/
theorem faithful_of_generate (h : g.Augmented) (hrun : (generate mode g).result = .ok a) :
    ∃ kernel, a.Faithful g (FirstTable.ofGrammar g) mode kernel := by
  obtain ⟨graph, hgraph, hbuilt⟩ := exists_graph_of_generate hrun
  have hcomplete := StateGraph.complete_ofGrammar h (FirstTable.within_ofGrammar g) hgraph
  exact ⟨_, faithful_of_complete hcomplete hbuilt⟩

/-- The grammar that declarations define and its automaton, if nothing is refused. -/
def ofDeclarations (mode : MergeMode) (declarations : List Declaration) :
    Option (Grammar × Automaton) :=
  match Grammar.define declarations with
  | .error _ => none
  | .ok g => (generate mode g).result.toOption.map fun a => (g, a)

/-- What can be tested of an automaton can be proved of it. -/
theorem exists_of_ofDeclarations {declarations : List Declaration} {p : Grammar × Automaton → Bool}
    (h : (ofDeclarations mode declarations).any p = true) :
    ∃ g a, Grammar.define declarations = .ok g ∧ (generate mode g).result = .ok a ∧
      p (g, a) = true := by
  obtain ⟨⟨g, a⟩, hbuilt, hp⟩ := (Option.any_eq_true _ _).mp h
  unfold ofDeclarations at hbuilt
  cases hg : Grammar.define declarations with
  | error e =>
    rw [hg] at hbuilt
    cases hbuilt
  | ok g' =>
    rw [hg] at hbuilt
    obtain ⟨a', ha, heq⟩ := Option.map_eq_some_iff.mp hbuilt
    obtain ⟨rfl, rfl⟩ := Prod.mk.inj heq
    exact ⟨g', a', rfl, eq_ok_of_toOption_eq_some ha, hp⟩

/-- Whether declarations define a grammar whose automata in two modes pass a test together. -/
def bothPass (mode mode' : MergeMode) (declarations : List Declaration)
    (p : Grammar → Automaton → Automaton → Bool) : Bool :=
  (ofDeclarations mode declarations).any fun built =>
    (generate mode' built.1).result.toOption.any (p built.1 built.2)

/-- What can be tested of two automata can be proved of them. -/
theorem exists_of_bothPass {mode' : MergeMode} {declarations : List Declaration}
    {p : Grammar → Automaton → Automaton → Bool} (h : bothPass mode mode' declarations p = true) :
    ∃ g a a', Grammar.define declarations = .ok g ∧ (generate mode g).result = .ok a ∧
      (generate mode' g).result = .ok a' ∧ p g a a' = true := by
  obtain ⟨g, a, hg, ha, hp⟩ := exists_of_ofDeclarations h
  obtain ⟨a', ha', hp⟩ := (Option.any_eq_true _ _).mp hp
  exact ⟨g, a, a', hg, ha, eq_ok_of_toOption_eq_some ha', hp⟩

/-- Sums without precedences: every sum of three terms is ambiguous. -/
def ambiguousSum : List Declaration :=
  [.terminal "plus" none, .terminal "number" none, .nonterminal "sum",
    .rule 1 [.nonterminal 1, .terminal 1, .nonterminal 1] none, .rule 1 [.terminal 2] none]

end Automaton
end ParserGen
