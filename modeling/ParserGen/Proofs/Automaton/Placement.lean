import ParserGen.Automaton.StateGraph
import ParserGen.Proofs.Results

/-!
# The steps of the construction

A kernel is placed in a state that is known for it, in one that takes it in, or in a new one.  All
that happens to a graph comes of this: a state is connected by placing the kernels that its symbols
lead to, and the states that wait are connected in turn.  So what placing a kernel keeps is kept by
the whole construction.

Main results:

- Theorem `StateGraph.places_of_place`: the ways in which a kernel is placed.
- Theorem `StateGraph.placeAll_induction`: what placing kernels keeps, and what it makes of edges.
- Theorem `StateGraph.saturate_induction`: what connecting states in turn keeps.
- Theorem `StateGraph.exists_of_ofGrammar`: the construction starts with the initial state.
-/

namespace ParserGen

open ItemSet

namespace StateGraph

variable {g : Grammar} {first : FirstTable} {mode : MergeMode} {graph next : StateGraph}

/-! ## A new state -/

/-- The graph with one more state, which waits to be connected. -/
def created (graph : StateGraph) (kernel : ItemSet) : StateGraph where
  kernels := graph.kernels.push kernel
  edges := graph.edges.push []
  registry := (kernel, graph.kernels.size) :: graph.registry
  pending := graph.pending.add graph.kernels.size
  events := graph.events.push (.newState graph.kernels.size)

/-- A state is created as long as there are numbers left. -/
theorem create_eq (graph : StateGraph) (kernel : ItemSet) :
    graph.create kernel =
      if graph.kernels.size < stateLimit then .ok (graph.kernels.size, graph.created kernel)
      else .error .tooManyStates := rfl

@[simp]
theorem size_created (graph : StateGraph) (kernel : ItemSet) :
    (graph.created kernel).kernels.size = graph.kernels.size + 1 := Array.size_push _

/-- The state that is created has the kernel, and the others keep theirs. -/
theorem kernel_created (graph : StateGraph) (kernel : ItemSet) (s : Nat) :
    (graph.created kernel).kernel s =
      if s = graph.kernels.size then kernel else graph.kernel s := by
  simp only [StateGraph.kernel, created, Array.getD_eq_getD_getElem?, Array.getElem?_push]
  split <;> rfl

theorem kernel_created_of_lt {kernel : ItemSet} {s : Nat} (hs : s < graph.kernels.size) :
    (graph.created kernel).kernel s = graph.kernel s := by
  rw [kernel_created, if_neg (Nat.ne_of_lt hs)]

theorem kernel_created_self (graph : StateGraph) (kernel : ItemSet) :
    (graph.created kernel).kernel graph.kernels.size = kernel := by
  rw [kernel_created, if_pos rfl]

/-! ## A state that gains lookaheads -/

/-- The graph in which a state has another kernel and waits to be connected anew. -/
def regrown (graph : StateGraph) (t : Nat) (grown : ItemSet) : StateGraph :=
  { graph with
    kernels := graph.kernels.setIfInBounds t grown
    registry := (grown, t) :: graph.registry
    pending := graph.pending.add t
    events := graph.events.push (.mergedLookaheads t) }

/-- A kernel that adds nothing to its host changes nothing. -/
theorem mergeInto_eq (graph : StateGraph) (t : Nat) (incoming : ItemSet) :
    graph.mergeInto t incoming =
      if (graph.kernel t).join incoming = graph.kernel t then graph
      else graph.regrown t ((graph.kernel t).join incoming) := rfl

@[simp]
theorem size_regrown (graph : StateGraph) (t : Nat) (grown : ItemSet) :
    (graph.regrown t grown).kernels.size = graph.kernels.size := Array.size_setIfInBounds

theorem size_mergeInto (graph : StateGraph) (t : Nat) (incoming : ItemSet) :
    (graph.mergeInto t incoming).kernels.size = graph.kernels.size := by
  rw [mergeInto_eq]
  split
  · rfl
  · exact size_regrown _ _ _

theorem kernel_regrown {grown : ItemSet} {t : Nat} (ht : t < graph.kernels.size) (s : Nat) :
    (graph.regrown t grown).kernel s = if t = s then grown else graph.kernel s := by
  simp only [StateGraph.kernel, regrown, Array.getD_eq_getD_getElem?, Array.getElem?_setIfInBounds,
    ht]
  split <;> rfl

/-! ## Placing kernels -/

theorem host?_spec {kernel : ItemSet} {t : Nat} {decision : MergeDecision}
    (hhost : graph.host? mode kernel = some (t, decision)) :
    t < graph.kernels.size ∧ (graph.kernel t).core = kernel.core ∧
      (graph.kernel t).decideMerge mode kernel = decision ∧ decision ≠ .distinct := by
  obtain ⟨s, hs, hfound⟩ := List.exists_of_findSome?_eq_some hhost
  dsimp only at hfound
  split at hfound
  · rename_i hcore
    split at hfound
    · cases hfound
    · rename_i hdistinct
      obtain ⟨rfl, rfl⟩ := Prod.mk.inj (Option.some.inj hfound)
      exact ⟨List.mem_range.mp hs, hcore, rfl, hdistinct⟩
  · cases hfound

/-- The ways in which a kernel is placed. -/
inductive Places (mode : MergeMode) (graph : StateGraph) (kernel : ItemSet) :
    Nat → StateGraph → Prop
  | registered {s : Nat} : (kernel, s) ∈ graph.registry → Places mode graph kernel s graph
  | reused {s : Nat} : s < graph.kernels.size → (graph.kernel s).core = kernel.core →
      (graph.kernel s).decideMerge mode kernel = .reuse → Places mode graph kernel s graph
  | merged {s : Nat} : s < graph.kernels.size → (graph.kernel s).core = kernel.core →
      (graph.kernel s).decideMerge mode kernel = .merge →
      Places mode graph kernel s (graph.mergeInto s kernel)
  | created : graph.host? mode kernel = none → graph.kernels.size < stateLimit →
      Places mode graph kernel graph.kernels.size (graph.created kernel)

theorem places_of_place {kernel : ItemSet} {t : Nat}
    (hrun : graph.place mode kernel = .ok (t, next)) : Places mode graph kernel t next := by
  unfold place at hrun
  split at hrun
  · rename_i s hlookup
    cases hrun
    obtain ⟨before, after, hrow, _⟩ := List.lookup_eq_some_iff.mp hlookup
    refine .registered ?_
    rw [hrow]
    exact List.mem_append_right _ List.mem_cons_self
  · split at hrun
    · rename_i s hhost
      cases hrun
      obtain ⟨ht, hcore, hmerge, _⟩ := host?_spec hhost
      exact .merged ht hcore hmerge
    · rename_i s decision hnot hhost
      cases hrun
      obtain ⟨ht, hcore, hdecision, hdistinct⟩ := host?_spec hhost
      cases decision with
      | reuse => exact .reused ht hcore hdecision
      | merge => exact (hnot rfl).elim
      | distinct => exact absurd rfl hdistinct
    · rename_i hnone
      rw [create_eq] at hrun
      split at hrun
      · rename_i hlimit
        cases hrun
        exact .created hnone hlimit
      · cases hrun

theorem place_empty (kernel : ItemSet) :
    empty.place mode kernel = .ok (0, empty.created kernel) := by
  have hlimit : empty.kernels.size < stateLimit := by decide
  have hcreate : empty.place mode kernel = empty.create kernel := by
    unfold place
    rfl
  rw [hcreate, create_eq, if_pos hlimit]
  rfl

/-- If placing a kernel of the list keeps `P` and `Q` and makes `Q` of its edge, then placing all
kernels keeps `P` and `Q` and makes `Q` of an edge for each symbol. -/
theorem placeAll_induction {P : StateGraph → Prop} {Q : StateGraph → Symbol × Nat → Prop}
    {rows : List (Symbol × ItemSet)} {edges : List (Symbol × Nat)}
    (hplace : ∀ row ∈ rows, ∀ {graph next t}, P graph → graph.place mode row.2 = .ok (t, next) →
      P next ∧ Q next (row.1, t) ∧ ∀ edge, Q graph edge → Q next edge)
    (h : P graph) (hrun : graph.placeAll mode rows = .ok (edges, next)) :
    P next ∧ (∀ edge, Q graph edge → Q next edge) ∧ edges.map (·.1) = rows.map (·.1) ∧
      ∀ edge ∈ edges, Q next edge := by
  induction rows generalizing graph edges with
  | nil =>
    cases hrun
    exact ⟨h, fun _ hedge => hedge, rfl, by simp⟩
  | cons row rows ih =>
    obtain ⟨x, kernel⟩ := row
    unfold placeAll at hrun
    obtain ⟨⟨t, middle⟩, hfirst, hrun⟩ := exists_of_bind_eq_ok hrun
    obtain ⟨⟨tail, last⟩, hrest, hrun⟩ := exists_of_bind_eq_ok hrun
    cases hrun
    obtain ⟨hmiddle, hnew, hold⟩ := hplace _ List.mem_cons_self h hfirst
    obtain ⟨hnext, hkept, hsymbols, htail⟩ :=
      ih (fun row hrow => hplace row (List.mem_cons_of_mem _ hrow)) hmiddle hrest
    refine ⟨hnext, fun edge hedge => hkept edge (hold edge hedge), ?_,
      List.forall_mem_cons.mpr ⟨hkept _ hnew, htail⟩⟩
    rw [List.map_cons, List.map_cons, hsymbols]

/-- What placing a kernel of the list keeps is kept by placing all. -/
theorem placeAll_invariant {P : StateGraph → Prop} {rows : List (Symbol × ItemSet)}
    {edges : List (Symbol × Nat)}
    (hplace : ∀ row ∈ rows, ∀ {graph next t}, P graph → graph.place mode row.2 = .ok (t, next) →
      P next)
    (h : P graph) (hrun : graph.placeAll mode rows = .ok (edges, next)) : P next :=
  (placeAll_induction (Q := fun _ _ => True)
    (fun row hrow _ _ _ h hrun => ⟨hplace row hrow h hrun, trivial, fun _ _ => trivial⟩) h hrun).1

/-! ## Connecting states -/

/-- A state is connected by placing what its symbols lead to. -/
theorem exists_of_connect {s : Nat} (hrun : graph.connect g first mode s = .ok next) :
    ∃ edges placed,
      graph.placeAll mode (((graph.kernel s).closure g first).transitions g) =
        .ok (edges, placed) ∧
      next = { placed with
        edges := placed.edges.setIfInBounds s edges
        events := placed.events.push (.connected s edges.length) } := by
  unfold connect at hrun
  obtain ⟨⟨edges, placed⟩, hplace, hrun⟩ := exists_of_bind_eq_ok hrun
  exact ⟨edges, placed, hplace, (Except.ok.inj hrun).symm⟩

/-- What connecting the first state that waits keeps, with one turn less to take, is kept until no
turn is left to take or no state waits. -/
theorem saturate_induction {P : Nat → StateGraph → Prop} {steps : Nat}
    (hturn : ∀ {left graph next s rest}, P (left + 1) graph →
      graph.pending.pop? = some (s, rest) →
      connect g first mode { graph with pending := rest } s = .ok next → P left next)
    (h : P steps graph) (hrun : graph.saturate g first mode steps = .ok next) :
    ∃ left, P left next ∧ (left = 0 ∨ next.pending.pop? = none) := by
  induction steps generalizing graph with
  | zero =>
    cases hrun
    exact ⟨0, h, Or.inl rfl⟩
  | succ steps ih =>
    simp only [saturate] at hrun
    split at hrun
    · rename_i hpop
      cases hrun
      exact ⟨steps + 1, h, Or.inr hpop⟩
    · rename_i s rest hpop
      split at hrun
      · rename_i middle hconnect
        exact ih (hturn h hpop hconnect) hrun
      · cases hrun

/-- What connecting the first state that waits keeps is kept until no state waits. -/
theorem saturate_invariant {P : StateGraph → Prop} {steps : Nat}
    (hturn : ∀ {graph next s rest}, P graph → graph.pending.pop? = some (s, rest) →
      connect g first mode { graph with pending := rest } s = .ok next → P next)
    (h : P graph) (hrun : graph.saturate g first mode steps = .ok next) : P next := by
  obtain ⟨_, hnext, _⟩ := saturate_induction (P := fun _ => P) hturn h hrun
  exact hnext

/-- The graph of a grammar starts with the initial state. -/
theorem exists_of_ofGrammar (hrun : ofGrammar g first mode = .ok graph) :
    ∃ final, (empty.created initialKernel).saturate g first mode (stepBound g) = .ok final ∧
      graph = final.report (.populated final.kernels.size) := by
  unfold ofGrammar at hrun
  obtain ⟨⟨s, start⟩, hplace, hrun⟩ := exists_of_bind_eq_ok hrun
  obtain ⟨final, hsaturate, hrun⟩ := exists_of_bind_eq_ok hrun
  cases hrun
  rw [place_empty] at hplace
  cases hplace
  exact ⟨final, hsaturate, rfl⟩

end StateGraph
end ParserGen
