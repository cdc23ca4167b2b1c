import ParserGen.Proofs.Automaton.Finished

/-!
# The root of a graph

Whatever the rules of a grammar are, and however long a graph of states is allowed to grow, its
edges and its registered kernels lead to its states, and its first state keeps the initial kernel:
in all kernels that come later the markers have moved, so none of them is merged into it.

Main results:

- Theorem `StateGraph.Rooted.place`: placing a kernel keeps the root and the links.
- Theorem `StateGraph.rooted_ofGrammar`: every graph of states has its root.
- Theorem `StateGraph.failsOnly_ofGrammar`: the construction fails only for want of numbers.
-/

namespace ParserGen

open ItemSet

/-- All markers of a kernel have moved. -/
def ItemSet.Moved (kernel : ItemSet) : Prop := ∀ i ∈ kernel, i.marker ≠ 0

/-- Items that have been advanced have their markers moved. -/
theorem ItemSet.moved_advanceOver (g : Grammar) (s : ItemSet) (x : Symbol) :
    (s.advanceOver g x).Moved := by
  intro i hi
  obtain ⟨j, _, _, rfl⟩ := mem_advanceOver.mp hi
  exact Nat.succ_ne_zero _

namespace StateGraph

variable {g : Grammar} {first : FirstTable} {mode : MergeMode} {graph next : StateGraph}
  {kernel : ItemSet} {s t : Nat} {x : Symbol}

/-- The edges and the registered kernels lead to states, of which the first one has the initial
kernel. -/
structure Rooted (graph : StateGraph) : Prop extends Linked graph where
  registered : ∀ row ∈ graph.registry, row.2 < graph.kernels.size
  root : graph.kernel 0 = initialKernel

/-- A state that has no edges yet leads nowhere. -/
theorem getD_push_nil (edges : Array (List (Symbol × Nat))) (s : Nat) :
    (edges.push []).getD s [] = edges.getD s [] := by
  rw [Array.getD_eq_getD_getElem?, Array.getD_eq_getD_getElem?, Array.getElem?_push]
  split
  · rename_i hs
    rw [hs, Array.getElem?_eq_none (Nat.le_refl _)]
    rfl
  · rfl

/-- The edges of a graph in which a state is given new ones. -/
theorem mem_getD_setIfInBounds {edges : Array (List (Symbol × Nat))} {new : List (Symbol × Nat)}
    {edge : Symbol × Nat} (h : edge ∈ (edges.setIfInBounds t new).getD s []) :
    edge ∈ new ∨ edge ∈ edges.getD s [] := by
  rw [Array.getD_eq_getD_getElem?, Array.getElem?_setIfInBounds] at h
  split at h
  · split at h
    · exact Or.inl h
    · cases h
  · exact Or.inr (Array.getD_eq_getD_getElem? ▸ h)

/-! ## Placing kernels -/

/-- The construction starts with a rooted graph. -/
theorem rooted_start : (empty.created initialKernel).Rooted where
  size_edges := rfl
  pos := by
    rw [size_created]
    exact Nat.succ_pos _
  targets {s x t} hedge := by
    have hnone : (x, t) ∈ (#[] : Array (List (Symbol × Nat))).getD s [] := by
      rw [← getD_push_nil]
      exact hedge
    cases hnone
  registered row hrow := by
    rw [size_created]
    obtain rfl := List.mem_singleton.mp hrow
    exact Nat.succ_pos _
  root := kernel_created_self empty initialKernel

/-- Creating a state keeps a graph rooted. -/
theorem Rooted.created (h : graph.Rooted) (kernel : ItemSet) : (graph.created kernel).Rooted where
  size_edges := by
    rw [size_created, ← h.size_edges]
    exact Array.size_push _
  pos := by
    rw [size_created]
    exact Nat.succ_pos _
  targets {s x t} hedge := by
    rw [size_created]
    have hold : (x, t) ∈ graph.edges.getD s [] := by
      rw [← getD_push_nil]
      exact hedge
    exact Nat.lt_succ_of_lt (h.targets hold)
  registered row hrow := by
    rw [size_created]
    rcases List.mem_cons.mp hrow with rfl | hrow
    · exact Nat.lt_succ_self _
    · exact Nat.lt_succ_of_lt (h.registered row hrow)
  root := (kernel_created_of_lt h.pos).trans h.root

/-- A kernel whose markers have moved is not merged into the first state. -/
theorem Rooted.ne_zero (h : graph.Rooted) (hmoved : kernel.Moved)
    (hcore : (graph.kernel s).core = kernel.core) : s ≠ 0 := by
  rintro rfl
  rw [h.root] at hcore
  exact hmoved _ ((core_eq_iff.mp hcore _).mp (mem_initialKernel.mpr rfl)) rfl

/-- Merging kernels whose markers have moved keeps a graph rooted. -/
theorem Rooted.mergeInto (h : graph.Rooted) (hs : s < graph.kernels.size) (hmoved : kernel.Moved)
    (hcore : (graph.kernel s).core = kernel.core) : (graph.mergeInto s kernel).Rooted := by
  rw [mergeInto_eq]
  split
  · exact h
  · have hsize := size_regrown graph s ((graph.kernel s).join kernel)
    refine ⟨⟨?_, hsize ▸ h.pos, fun hedge => hsize ▸ h.targets hedge⟩, fun row hrow => ?_, ?_⟩
    · rw [hsize]
      exact h.size_edges
    · rw [hsize]
      rcases List.mem_cons.mp hrow with rfl | hrow
      · exact hs
      · exact h.registered row hrow
    · rw [kernel_regrown hs, if_neg (h.ne_zero hmoved hcore)]
      exact h.root

/-- What placing a kernel keeps: the result is one of the states, and states are not lost. -/
theorem Rooted.place (h : graph.Rooted) (hmoved : kernel.Moved)
    (hrun : graph.place mode kernel = .ok (t, next)) :
    next.Rooted ∧ t < next.kernels.size ∧ graph.kernels.size ≤ next.kernels.size := by
  cases places_of_place hrun with
  | registered hmem => exact ⟨h, h.registered _ hmem, Nat.le_refl _⟩
  | reused ht _ _ => exact ⟨h, ht, Nat.le_refl _⟩
  | merged ht hcore _ =>
    rw [size_mergeInto]
    exact ⟨h.mergeInto ht hmoved hcore, ht, Nat.le_refl _⟩
  | created _ _ =>
    rw [size_created]
    exact ⟨h.created kernel, Nat.lt_succ_self _, Nat.le_succ _⟩

/-- Placing kernels whose markers have moved keeps a graph rooted, and edges lead to states. -/
theorem Rooted.placeAll (h : graph.Rooted) {rows : List (Symbol × ItemSet)}
    {edges : List (Symbol × Nat)} (hrows : ∀ row ∈ rows, row.2.Moved)
    (hrun : graph.placeAll mode rows = .ok (edges, next)) :
    next.Rooted ∧ ∀ edge ∈ edges, edge.2 < next.kernels.size := by
  obtain ⟨hnext, _, _, htargets⟩ := placeAll_induction
    (Q := fun placed edge => edge.2 < placed.kernels.size)
    (fun row hrow _ _ _ hmiddle hplace => by
      obtain ⟨hplaced, ht, hle⟩ := Rooted.place hmiddle (hrows row hrow) hplace
      exact ⟨hplaced, ht, fun _ hlt => hlt.trans_le hle⟩)
    h hrun
  exact ⟨hnext, htargets⟩

/-! ## The whole construction -/

/-- Connecting a state keeps a graph rooted. -/
theorem Rooted.connect (h : graph.Rooted) (hrun : graph.connect g first mode s = .ok next) :
    next.Rooted := by
  obtain ⟨edges, placed, hplace, rfl⟩ := exists_of_connect hrun
  have hmoved : ∀ row ∈ ((graph.kernel s).closure g first).transitions g, row.2.Moved := by
    intro row hrow
    obtain ⟨x, _, rfl⟩ := List.mem_map.mp hrow
    exact moved_advanceOver g _ x
  obtain ⟨hplaced, htargets⟩ := h.placeAll hmoved hplace
  refine ⟨⟨?_, hplaced.pos, fun hedge => ?_⟩, hplaced.registered, hplaced.root⟩
  · rw [← hplaced.size_edges]
    exact Array.size_setIfInBounds
  · rcases mem_getD_setIfInBounds hedge with hnew | hold
    · exact htargets _ hnew
    · exact hplaced.targets hold

/-- Every graph of states has its root. -/
theorem rooted_ofGrammar (hrun : ofGrammar g first mode = .ok graph) : graph.Rooted := by
  obtain ⟨final, hsaturate, rfl⟩ := exists_of_ofGrammar hrun
  have hfinal : final.Rooted := saturate_invariant
    (fun {graph _ _ rest} h _ hconnect => by
      have hpopped : Rooted { graph with pending := rest } :=
        ⟨⟨h.size_edges, h.pos, h.targets⟩, h.registered, h.root⟩
      exact hpopped.connect hconnect)
    rooted_start hsaturate
  exact ⟨⟨hfinal.size_edges, hfinal.pos, hfinal.targets⟩, hfinal.registered, hfinal.root⟩

/-! ## How the construction fails -/

/-- Creating a state fails only if there is no number left. -/
theorem failsOnly_create (graph : StateGraph) (kernel : ItemSet) :
    FailsOnly (· = .tooManyStates) (graph.create kernel) := by
  rw [create_eq]
  split
  · exact failsOnly_ok _
  · exact failsOnly_error rfl

/-- Placing a kernel fails only if there is no number left. -/
theorem failsOnly_place (graph : StateGraph) (kernel : ItemSet) :
    FailsOnly (· = .tooManyStates) (graph.place mode kernel) := by
  unfold StateGraph.place
  split
  · exact failsOnly_ok _
  · split
    · exact failsOnly_ok _
    · exact failsOnly_ok _
    · exact failsOnly_create graph kernel

/-- Placing kernels fails only if there is no number left. -/
theorem failsOnly_placeAll (graph : StateGraph) (rows : List (Symbol × ItemSet)) :
    FailsOnly (· = .tooManyStates) (graph.placeAll mode rows) := by
  induction rows generalizing graph with
  | nil => exact failsOnly_ok _
  | cons row rows ih =>
    refine (failsOnly_place graph row.2).bind fun placed _ => ?_
    exact (ih placed.2).bind fun _ _ => failsOnly_ok _

/-- The construction fails only if there is no number left. -/
theorem failsOnly_saturate (steps : Nat) (graph : StateGraph) :
    FailsOnly (· = .tooManyStates) (graph.saturate g first mode steps) := by
  induction steps generalizing graph with
  | zero => exact failsOnly_ok _
  | succ steps ih =>
    rw [StateGraph.saturate]
    split
    · exact failsOnly_ok _
    · split
      · exact ih _
      · rename_i hconnect
        refine failsOnly_error ?_
        exact (failsOnly_placeAll _ _).bind (fun _ _ => failsOnly_ok _) _ hconnect

/-- The construction of the graph fails only if there are no numbers left for new states. -/
theorem failsOnly_ofGrammar : FailsOnly (· = .tooManyStates) (ofGrammar g first mode) := by
  refine (failsOnly_place empty initialKernel).bind fun placed _ => ?_
  exact (failsOnly_saturate _ placed.2).bind fun _ _ => failsOnly_ok _

end StateGraph
end ParserGen
