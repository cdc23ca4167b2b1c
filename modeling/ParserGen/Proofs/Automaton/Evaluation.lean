import ParserGen.Proofs.Automaton.Generation

/-!
# Evaluating the construction

A proof that evaluates the construction on a larger grammar spends its time and its memory on the
arrays of the graph, which grow at their ends, and on comparing kernels.  A draft of the graph lists
what came last first, leaves out the events, and compares kernels by a number before it compares
their rows.

Main results:

- Theorem `Draft.Of.place`, Theorem `Draft.Of.connect`: each step of the construction does the same
  to a graph as to its draft.
- Theorem `Draft.exists_of_ofGrammar`: a draft that is drawn to its end is one of the graph of the
  grammar.
- Theorem `Automaton.exists_of_stateCount?`: the states of an automaton can be counted on a draft.
-/

namespace ParserGen

namespace ItemSet

/-- A number that different item sets seldom share. -/
def key (s : ItemSet) : Nat :=
  s.toList.foldl (fun n row => 8209 * (97 * (97 * n + row.1.rule) + row.1.marker) + row.2.bits) 0

/-- A number that sets of different items seldom share. -/
def coreKey (s : ItemSet) : Nat :=
  s.core.foldl (fun n i => 97 * (97 * n + i.rule) + i.marker) 0

end ItemSet

/-- What the construction looks at in a graph of states.  The states, what has been registered for
them and the states that their edges lead to are listed with the latest first. -/
structure Draft where
  states : List (ItemSet × Nat)
  registry : List (ItemSet × Nat)
  targets : List (Nat × List Nat)
  pending : WorkQueue Nat

namespace Draft

variable {g : Grammar} {first : FirstTable} {mode : MergeMode}

def empty : Draft := ⟨[], [], [], .empty⟩

def size (d : Draft) : Nat := d.states.length

def kernel (d : Draft) (s : Nat) : ItemSet :=
  ((d.states.find? fun row => row.2.beq s).map (·.1)).getD ∅

def successors (d : Draft) (s : Nat) : List Nat :=
  ((d.targets.find? fun row => row.1.beq s).map (·.2)).getD []

/-- The state that a kernel is registered for. -/
def registered? (d : Draft) (kernel : ItemSet) : Option Nat :=
  d.registry.findSome? fun row =>
    bif row.1.key.beq kernel.key then if kernel = row.1 then some row.2 else none else none

/-- The state of a row and the way it takes in a kernel, if it can do so. -/
def takes? (mode : MergeMode) (kernel : ItemSet) (row : ItemSet × Nat) :
    Option (Nat × ItemSet.MergeDecision) :=
  bif row.1.coreKey.beq kernel.coreKey then
    if row.1.core = kernel.core then
      match row.1.decideMerge mode kernel with
      | .distinct => none
      | decision => some (row.2, decision)
    else none
  else none

/-- The first state that can take in a kernel.  It is the last one in the list. -/
def host? (mode : MergeMode) (d : Draft) (kernel : ItemSet) :
    Option (Nat × ItemSet.MergeDecision) :=
  d.states.foldl (fun found row => (takes? mode kernel row).or found) none

def create (d : Draft) (kernel : ItemSet) : Option (Nat × Draft) :=
  let s := d.size
  if s < stateLimit then
    some (s,
      { d with
        states := (kernel, s) :: d.states
        registry := (kernel, s) :: d.registry
        pending := d.pending.add s })
  else none

def mergeInto (d : Draft) (s : Nat) (incoming : ItemSet) : Draft :=
  let kernel := d.kernel s
  let grown := kernel.join incoming
  if grown = kernel then d
  else
    { d with
      states := d.states.map fun row => bif row.2.beq s then (grown, s) else row
      registry := (grown, s) :: d.registry
      pending := d.pending.add s }

def place (mode : MergeMode) (d : Draft) (kernel : ItemSet) : Option (Nat × Draft) :=
  match d.registered? kernel with
  | some s => some (s, d)
  | none =>
      match d.host? mode kernel with
      | some (s, .merge) => some (s, d.mergeInto s kernel)
      | some (s, _) => some (s, d)
      | none => d.create kernel

def placeAll (mode : MergeMode) (d : Draft) :
    List (Symbol × ItemSet) → Option (List Nat × Draft)
  | [] => some ([], d)
  | (_, kernel) :: rest => do
      let (s, d) ← d.place mode kernel
      let (targets, d) ← placeAll mode d rest
      some (s :: targets, d)

def connect (g : Grammar) (first : FirstTable) (mode : MergeMode) (d : Draft) (s : Nat) :
    Option Draft := do
  let items := (d.kernel s).closure g first
  let (targets, d) ← d.placeAll mode (items.transitions g)
  if s < d.size then some { d with targets := (s, targets) :: d.targets } else none

def saturate (g : Grammar) (first : FirstTable) (mode : MergeMode) : Nat → Draft → Option Draft
  | 0, d => some d
  | steps + 1, d =>
      match d.pending.pop? with
      | none => some d
      | some (s, pending) => do
          let next ← connect g first mode { d with pending := pending } s
          saturate g first mode steps next

/-- A draft of the graph of all states of a grammar. -/
def ofGrammar (g : Grammar) (first : FirstTable) (mode : MergeMode) : Option Draft := do
  let (_, d) ← empty.place mode StateGraph.initialKernel
  d.saturate g first mode (StateGraph.stepBound g)

/-- The walk through a graph, from what it asks the graph for. -/
def walk (successors : Nat → List Nat) (size : Nat) : Nat → IdSet → List Nat → List Nat
  | 0, _, _ => []
  | _, _, [] => []
  | steps + 1, seen, s :: queue =>
      let found := ((successors s).filter fun t => t < size && !seen.contains t).eraseDups
      s :: walk successors size steps (seen ∪ IdSet.ofList found) (queue ++ found)

def reachable (d : Draft) : List Nat :=
  walk d.successors d.size d.size (IdSet.singleton 0) [0]

/-! ## The graph of a draft -/

/-- The draft says about a graph all that the construction looks at. -/
structure Of (d : Draft) (graph : StateGraph) : Prop where
  states : d.states = graph.kernels.toList.zipIdx.reverse
  registry : d.registry = graph.registry
  pending : d.pending = graph.pending
  successors : ∀ s, d.successors s = graph.successors s
  edges : graph.edges.size = graph.kernels.size

variable {d d' : Draft} {graph : StateGraph} {kernel : ItemSet} {s : Nat}

/-- The draft of the empty graph is empty. -/
theorem of_empty : empty.Of .empty := ⟨rfl, rfl, rfl, fun _ => rfl, rfl⟩

/-- A draft has as many states as its graph. -/
theorem Of.size_eq (h : d.Of graph) : d.size = graph.kernels.size := by
  rw [size, h.states, List.length_reverse, List.length_zipIdx, Array.length_toList]

/-- In a list that is numbered and reversed, the entry with a number stands at that place. -/
theorem find?_numbered {α : Type} (l : List α) (s : Nat) :
    (l.zipIdx.reverse.find? fun row => row.2.beq s).map (·.1) = l[s]? := by
  induction l using List.reverseRecOn with
  | nil => rfl
  | append_singleton l a ih =>
    rw [List.zipIdx_append, List.reverse_append, List.zipIdx_singleton, List.reverse_singleton,
      List.singleton_append, List.find?_cons, Nat.zero_add]
    by_cases hs : l.length = s
    · subst hs
      simp
    · have hbeq : l.length.beq s = false := Bool.eq_false_iff.mpr (mt Nat.eq_of_beq_eq_true hs)
      rw [hbeq, ih]
      rcases Nat.lt_or_gt_of_ne hs with hlt | hlt
      · rw [List.getElem?_eq_none hlt.le, List.getElem?_eq_none (by simp; omega)]
      · rw [List.getElem?_append_left hlt]

/-- A draft has the kernels of its graph. -/
theorem Of.kernel_eq (h : d.Of graph) (s : Nat) : d.kernel s = graph.kernel s := by
  rw [kernel, h.states, find?_numbered, StateGraph.kernel, Array.getElem?_toList,
    Array.getD_eq_getD_getElem?]

/-- A draft finds the registered kernels of its graph. -/
theorem Of.registered?_eq (h : d.Of graph) (kernel : ItemSet) :
    d.registered? kernel = graph.registry.lookup kernel := by
  rw [registered?, h.registry]
  induction graph.registry with
  | nil => rfl
  | cons row rows ih =>
    obtain ⟨registered, s⟩ := row
    rw [List.findSome?_cons, List.lookup_cons, ← ih]
    by_cases hsame : kernel = registered
    · subst hsame
      simp
    · have hbeq : (kernel == registered) = false := beq_eq_false_iff_ne.mpr hsame
      cases registered.key.beq kernel.key <;> simp [hsame, hbeq]

/-- Each kernel comes with the number of its state. -/
theorem zipIdx_kernels (graph : StateGraph) :
    graph.kernels.toList.zipIdx =
      (List.range graph.kernels.size).map fun s => (graph.kernel s, s) := by
  refine List.ext_getElem (by simp) fun s hs _ => ?_
  rw [List.length_zipIdx, Array.length_toList] at hs
  simp [StateGraph.kernel, hs]

/-- Sets of the same items have the same number. -/
theorem takes?_eq (mode : MergeMode) (kernel : ItemSet) (row : ItemSet × Nat) :
    takes? mode kernel row =
      if row.1.core = kernel.core then
        match row.1.decideMerge mode kernel with
        | .distinct => none
        | decision => some (row.2, decision)
      else none := by
  rw [takes?]
  by_cases hcore : row.1.core = kernel.core
  · have hkey : row.1.coreKey = kernel.coreKey := by rw [ItemSet.coreKey, hcore, ItemSet.coreKey]
    simp [hkey]
  · simp [hcore]

/-- The last one that is found from behind is the first one that is found. -/
theorem foldl_reverse_or {α β : Type} (f : α → Option β) (l : List α) :
    l.reverse.foldl (fun found a => (f a).or found) none = l.findSome? f := by
  rw [List.foldl_reverse]
  induction l with
  | nil => rfl
  | cons a l ih =>
    rw [List.foldr_cons, List.findSome?_cons, ih]
    cases f a <;> rfl

/-- A draft finds the hosts of its graph. -/
theorem Of.host?_eq (h : d.Of graph) (mode : MergeMode) (kernel : ItemSet) :
    d.host? mode kernel = graph.host? mode kernel := by
  rw [host?, h.states, foldl_reverse_or, zipIdx_kernels, List.findSome?_map, StateGraph.host?]
  exact congrArg₂ List.findSome? (funext fun s => takes?_eq mode kernel (graph.kernel s, s)) rfl

/-! ## Steps of the construction -/

/-- A state that is created in a draft is created in its graph. -/
theorem Of.create (h : d.Of graph) (hd : d.create kernel = some (s, d')) :
    ∃ graph', graph.create kernel = .ok (s, graph') ∧ d'.Of graph' := by
  simp only [Draft.create, h.size_eq] at hd
  split at hd
  case isFalse => cases hd
  case isTrue hlt =>
    cases hd
    refine ⟨_, by rw [StateGraph.create, if_pos hlt], ?_⟩
    refine ⟨?_, ?_, ?_, fun t => ?_, ?_⟩
    · simp [h.states, List.zipIdx_append]
    · simp [h.registry]
    · simp [h.pending]
    · refine (h.successors t).trans ?_
      simp only [StateGraph.successors, Array.getD_eq_getD_getElem?, Array.getElem?_push]
      split <;> simp_all
    · simp [h.edges]

theorem zipIdx_set {α : Type} (l : List α) (s : Nat) (a : α) :
    (l.set s a).zipIdx = l.zipIdx.map fun row => bif row.2.beq s then (a, s) else row := by
  refine List.ext_getElem (by simp) fun i hi _ => ?_
  simp only [List.getElem_zipIdx, List.getElem_map, Nat.zero_add, List.getElem_set]
  by_cases his : s = i
  · subst his
    simp
  · have hbeq : i.beq s = false := Bool.eq_false_iff.mpr (mt Nat.eq_of_beq_eq_true (Ne.symm his))
    simp [his, hbeq]

/-- A kernel that is merged in a draft is merged in its graph. -/
theorem Of.mergeInto (h : d.Of graph) (s : Nat) (kernel : ItemSet) :
    (d.mergeInto s kernel).Of (graph.mergeInto s kernel) := by
  simp only [Draft.mergeInto, StateGraph.mergeInto, h.kernel_eq]
  split
  case isTrue => exact h
  case isFalse =>
    refine ⟨?_, ?_, ?_, h.successors, ?_⟩
    · rw [h.states, Array.toList_setIfInBounds, zipIdx_set, List.map_reverse]
    · rw [h.registry]
    · rw [h.pending]
    · simp [h.edges]

/-- A kernel is placed in the same state. -/
theorem Of.place (h : d.Of graph) (hd : d.place mode kernel = some (s, d')) :
    ∃ graph', graph.place mode kernel = .ok (s, graph') ∧ d'.Of graph' := by
  unfold Draft.place at hd
  rw [h.registered?_eq, h.host?_eq] at hd
  unfold StateGraph.place
  cases hregistered : graph.registry.lookup kernel with
  | some t =>
    rw [hregistered] at hd
    cases hd
    exact ⟨graph, rfl, h⟩
  | none =>
    rw [hregistered] at hd
    cases hhost : graph.host? mode kernel with
    | none =>
      rw [hhost] at hd
      exact h.create hd
    | some found =>
      rw [hhost] at hd
      obtain ⟨t, decision⟩ := found
      cases decision <;> cases hd
      · exact ⟨graph, rfl, h⟩
      · exact ⟨_, rfl, h.mergeInto s kernel⟩
      · exact ⟨graph, rfl, h⟩

/-- The kernels of a list are placed in the same states. -/
theorem Of.placeAll {rows : List (Symbol × ItemSet)} {targets : List Nat} (h : d.Of graph)
    (hd : d.placeAll mode rows = some (targets, d')) :
    ∃ edges graph', graph.placeAll mode rows = .ok (edges, graph') ∧
      edges.map (·.2) = targets ∧ d'.Of graph' := by
  induction rows generalizing d graph targets with
  | nil =>
    cases hd
    exact ⟨[], graph, rfl, rfl, h⟩
  | cons row rows ih =>
    obtain ⟨x, kernel⟩ := row
    obtain ⟨⟨s, d₁⟩, hplace, hd⟩ := Option.bind_eq_some_iff.mp hd
    obtain ⟨⟨rest, d₂⟩, hrest, hd⟩ := Option.bind_eq_some_iff.mp hd
    cases hd
    obtain ⟨graph₁, hgraph₁, h₁⟩ := h.place hplace
    obtain ⟨edges, graph₂, hgraph₂, rfl, h₂⟩ := ih h₁ hrest
    refine ⟨(x, s) :: edges, graph₂, ?_, rfl, h₂⟩
    simp only [StateGraph.placeAll, hgraph₁, hgraph₂, bind, Except.bind]

/-- A state gets the same edges. -/
theorem Of.connect (h : d.Of graph) (hd : d.connect g first mode s = some d') :
    ∃ graph', graph.connect g first mode s = .ok graph' ∧ d'.Of graph' := by
  obtain ⟨⟨targets, d₁⟩, hall, hd⟩ := Option.bind_eq_some_iff.mp hd
  rw [h.kernel_eq] at hall
  obtain ⟨edges, graph₁, hgraph₁, rfl, h₁⟩ := h.placeAll hall
  dsimp only at hd
  split at hd
  case isFalse => cases hd
  case isTrue hlt =>
    cases hd
    refine ⟨_, by rw [StateGraph.connect, hgraph₁]; rfl, ?_⟩
    refine ⟨h₁.states, h₁.registry, h₁.pending, fun t => ?_, ?_⟩
    · have hlt : s < graph₁.edges.size := by rw [h₁.edges, ← h₁.size_eq]; exact hlt
      have hrest := h₁.successors t
      simp only [Draft.successors, StateGraph.successors, Array.getD_eq_getD_getElem?,
        Array.getElem?_setIfInBounds, List.find?_cons] at hrest ⊢
      by_cases hst : s = t
      · subst hst
        simp [hlt]
      · have hbeq : s.beq t = false := Bool.eq_false_iff.mpr (mt Nat.eq_of_beq_eq_true hst)
        rw [hbeq, if_neg hst]
        exact hrest
    · simp [h₁.edges]

/-- What a draft comes to is what its graph comes to. -/
theorem Of.saturate {steps : Nat} (h : d.Of graph)
    (hd : d.saturate g first mode steps = some d') :
    ∃ graph', graph.saturate g first mode steps = .ok graph' ∧ d'.Of graph' := by
  induction steps generalizing d graph with
  | zero =>
    cases hd
    exact ⟨graph, rfl, h⟩
  | succ steps ih =>
    rw [Draft.saturate, h.pending] at hd
    rw [StateGraph.saturate]
    cases hpop : graph.pending.pop? with
    | none =>
      rw [hpop] at hd
      cases hd
      exact ⟨graph, rfl, h⟩
    | some popped =>
      obtain ⟨s, pending⟩ := popped
      rw [hpop] at hd
      obtain ⟨next, hnext, hd⟩ := Option.bind_eq_some_iff.mp hd
      have hpopped : Of { d with pending := pending } { graph with pending := pending } :=
        { h with pending := rfl }
      obtain ⟨graph', hgraph', h'⟩ := hpopped.connect hnext
      simp only [hgraph']
      exact ih h' hd

/-- A draft that is drawn to its end is one of the graph of the grammar. -/
theorem exists_of_ofGrammar (hd : ofGrammar g first mode = some d) :
    ∃ graph, StateGraph.ofGrammar g first mode = .ok graph ∧ d.Of graph := by
  -- Nothing may count the bound down: it is too large a number for that.
  obtain ⟨steps, hsteps⟩ : ∃ steps, StateGraph.stepBound g = steps := ⟨_, rfl⟩
  unfold ofGrammar at hd
  unfold StateGraph.ofGrammar
  rw [hsteps] at hd ⊢
  obtain ⟨⟨s, d₁⟩, hplace, hd⟩ := Option.bind_eq_some_iff.mp hd
  obtain ⟨graph₁, hgraph₁, h₁⟩ := of_empty.place hplace
  obtain ⟨graph₂, hgraph₂, h₂⟩ := h₁.saturate hd
  exact ⟨graph₂.report (.populated graph₂.kernels.size),
    bind_eq_ok hgraph₁ (bind_eq_ok hgraph₂ rfl), { h₂ with }⟩

/-! ## Reachable states -/

theorem walk_eq (graph : StateGraph) (steps : Nat) (seen : IdSet) (queue : List Nat) :
    walk graph.successors graph.edges.size steps seen queue = graph.walk steps seen queue := by
  induction steps generalizing seen queue with
  | zero => rfl
  | succ steps ih =>
    cases queue with
    | nil => rfl
    | cons s queue => rw [walk, StateGraph.walk, ih]

/-- The states that can be reached in a draft are those of its graph. -/
theorem Of.reachable_eq (h : d.Of graph) : d.reachable = graph.reachable := by
  rw [reachable, StateGraph.reachable, funext h.successors, h.size_eq, ← h.edges, walk_eq]

end Draft

namespace Automaton

/-- How many states the automaton has that declarations lead to, if nothing is refused. -/
def stateCount? (mode : MergeMode) (declarations : List Declaration) : Option Nat :=
  match Grammar.define declarations with
  | .error _ => none
  | .ok g =>
      match g.checkBuildable with
      | .error _ => none
      | .ok () => (Draft.ofGrammar g (FirstTable.ofGrammar g) mode).map (·.reachable.length)

/-- The automaton of declarations has as many states as are counted. -/
theorem exists_of_stateCount? {mode : MergeMode} {declarations : List Declaration} {n : Nat}
    (h : stateCount? mode declarations = some n) :
    ∃ g a, Grammar.define declarations = .ok g ∧ (generate mode g).result = .ok a ∧
      a.size = n := by
  unfold stateCount? at h
  cases hg : Grammar.define declarations with
  | error e =>
    rw [hg] at h
    cases h
  | ok g =>
    simp only [hg] at h
    cases hcheck : g.checkBuildable with
    | error e =>
      rw [hcheck] at h
      cases h
    | ok checked =>
      rw [hcheck] at h
      obtain ⟨d, hd, rfl⟩ := Option.map_eq_some_iff.mp h
      obtain ⟨graph, hgraph, hof⟩ := Draft.exists_of_ofGrammar hd
      have hcomplete := StateGraph.complete_ofGrammar (Grammar.augmented_of_define hg)
        (FirstTable.within_ofGrammar g) hgraph
      obtain ⟨a, ha⟩ := exists_ofStateGraph hcomplete.linked
      refine ⟨g, a, rfl, ?_, ?_⟩
      · exact (result_generate hcheck).trans (bind_eq_ok hgraph ha)
      · rw [hof.reachable_eq]
        exact (ofStateGraph_spec ha).1

end Automaton
end ParserGen
