import Mathlib.Data.Finset.Powerset
import ParserGen.Proofs.Automaton.Edits
import ParserGen.Proofs.Automaton.Generation

/-!
# The construction comes to an end

States wait again whenever they gain lookaheads, and connecting a state can create others, so
neither the queue nor the graph gets smaller.  What bounds the construction is the sum of both:
whatever is added to the queue is paid for by the weight of the graph, and this is bounded, since
all kernels draw on one finite set of items and lookaheads and every state is created for a kernel
of its own.  None of this depends on how many numbers there are for states, and so the construction
is looked at without a limit first.

Main results:

- Theorem `Grammar.length_le_kernelBound`: how many kernels can arise.
- Theorem `StateGraph.Turns.paid`: every turn of the loop is paid for by what the kernels gain.
- Theorem `StateGraph.exists_turns`: after so many turns no state waits.
- Theorem `StateGraph.saturate_eq`: the construction with a limit does the same, unless it runs out
  of numbers for states.
- Theorem `StateGraph.construction_ends`: the queue of every grammar that passes the check is
  emptied.
-/

namespace ParserGen

open ItemSet

/-! ## How many kernels arise -/

/-- A bound for the number of kernels: each is a choice of items and of items with lookaheads. -/
def Grammar.kernelBound (g : Grammar) : Nat :=
  1 <<< (g.symbolCount + 1 + (g.symbolCount + 1) * (g.symbolCount + 1))

/-- The items of a kernel, and their lookaheads. -/
def ItemSet.contents (g : Grammar) (kernel : ItemSet) : Finset Item × Finset (Item × Nat) :=
  (g.kernelItems.toFinset.filter (· ∈ kernel), kernel.facts g)

section Contents

variable {g : Grammar} {first : FirstTable} {mode : MergeMode}

/-- A kernel is determined by its contents. -/
theorem Arises.contents_inj (h : g.Augmented) (hfirst : first.Within g) {s t : ItemSet}
    (hs : Arises g first mode s) (ht : Arises g first mode t)
    (heq : s.contents g = t.contents g) : s = t := by
  obtain ⟨hitems, hfacts⟩ := Prod.mk.inj heq
  have hmem : ∀ {u v : ItemSet}, Arises g first mode u →
      g.kernelItems.toFinset.filter (· ∈ u) = g.kernelItems.toFinset.filter (· ∈ v) →
      ∀ i ∈ u, i ∈ v := by
    intro u v hu huv i hi
    have hfilter : i ∈ g.kernelItems.toFinset.filter (· ∈ u) :=
      Finset.mem_filter.mpr ⟨List.mem_toFinset.mpr (hu.mem_kernelItems h hi), hi⟩
    rw [huv] at hfilter
    exact (Finset.mem_filter.mp hfilter).2
  refine ext_lookaheads (fun i => ⟨hmem hs hitems i, hmem ht hitems.symm i⟩) fun i => ?_
  ext x
  rw [← hs.mem_facts h hfirst, ← ht.mem_facts h hfirst, hfacts]

/-- No more different kernels arise than there are choices of items and lookaheads. -/
theorem Grammar.length_le_kernelBound (h : g.Augmented) (hfirst : first.Within g)
    {kernels : List ItemSet} (hnodup : kernels.Nodup)
    (harises : ∀ kernel ∈ kernels, Arises g first mode kernel) :
    kernels.length ≤ g.kernelBound := by
  have hcontents : (kernels.map (·.contents g)).Nodup :=
    hnodup.map_on fun s hs t ht => (harises s hs).contents_inj h hfirst (harises t ht)
  have hchoices : (kernels.map (·.contents g)).toFinset ⊆
      g.kernelItems.toFinset.powerset ×ˢ (possibleFacts g).powerset := by
    intro chosen hchosen
    obtain ⟨kernel, _, rfl⟩ := List.mem_map.mp (List.mem_toFinset.mp hchosen)
    exact Finset.mem_product.mpr ⟨Finset.mem_powerset.mpr (Finset.filter_subset _ _),
      Finset.mem_powerset.mpr (Finset.filter_subset _ _)⟩
  have hexponent := Nat.add_le_add (card_kernelItems_le g) (card_possibleFacts_le g)
  calc kernels.length
      = (kernels.map (·.contents g)).toFinset.card := by
        rw [List.toFinset_card_of_nodup hcontents, List.length_map]
    _ ≤ (g.kernelItems.toFinset.powerset ×ˢ (possibleFacts g).powerset).card :=
        Finset.card_le_card hchoices
    _ = 2 ^ (g.kernelItems.toFinset.card + (possibleFacts g).card) := by
        rw [Finset.card_product, Finset.card_powerset, Finset.card_powerset, Nat.pow_add]
    _ ≤ 2 ^ (g.symbolCount + 1 + (g.symbolCount + 1) * (g.symbolCount + 1)) :=
        Nat.pow_le_pow_right Nat.two_pos hexponent
    _ = g.kernelBound := (Nat.one_shiftLeft _).symm

end Contents

namespace StateGraph

variable {g : Grammar} {first : FirstTable} {mode : MergeMode} {graph next last : StateGraph}

/-! ## The construction without a limit -/

/-- A way to find the state of a kernel. -/
abbrev Search := StateGraph → ItemSet → Option (Nat × ItemSet.MergeDecision)

/-- The state that a kernel is placed in: the one it is registered for, or its host. -/
def find? (mode : MergeMode) : Search := fun graph kernel =>
  match graph.registry.lookup kernel with
  | some s => some (s, .reuse)
  | none => graph.host? mode kernel

/-- Find or create the state of a kernel, however many states there are. -/
def placeFreely (mode : MergeMode) (graph : StateGraph) (kernel : ItemSet) : Nat × StateGraph :=
  match find? mode graph kernel with
  | some (s, .merge) => (s, graph.mergeInto s kernel)
  | some (s, _) => (s, graph)
  | none => (graph.kernels.size, graph.created kernel)

/-- Find or create the states that a state is connected to, however many there are. -/
def placeAllFreely (mode : MergeMode) (graph : StateGraph) :
    List (Symbol × ItemSet) → List (Symbol × Nat) × StateGraph
  | [] => ([], graph)
  | (x, kernel) :: rest =>
      let (s, graph) := graph.placeFreely mode kernel
      let (edges, graph) := placeAllFreely mode graph rest
      ((x, s) :: edges, graph)

/-- Give a state its edges, however many states that takes. -/
def connectFreely (g : Grammar) (first : FirstTable) (mode : MergeMode) (graph : StateGraph)
    (s : Nat) : StateGraph :=
  let items := (graph.kernel s).closure g first
  let (edges, graph) := graph.placeAllFreely mode (items.transitions g)
  { graph with
    edges := graph.edges.setIfInBounds s edges
    events := graph.events.push (.connected s edges.length) }

/-- The construction takes so many turns from one graph to another.  In each turn the state that has
waited longest is connected. -/
inductive Turns (g : Grammar) (first : FirstTable) (mode : MergeMode) :
    Nat → StateGraph → StateGraph → Prop
  | none {graph : StateGraph} : Turns g first mode 0 graph graph
  | next {count s : Nat} {rest : WorkQueue Nat} {graph last : StateGraph} :
      graph.pending.pop? = some (s, rest) →
      Turns g first mode count
        (connectFreely g first mode { graph with pending := rest } s) last →
      Turns g first mode (count + 1) graph last

/-- `a` is the answer if all states of a graph have numbers. -/
def limited {α : Type} (graph : StateGraph) (a : α) : Except BuildError α :=
  if graph.kernels.size ≤ stateLimit then .ok a else .error .tooManyStates

/-! ## The construction with a limit -/

theorem limited_of_le {α : Type} (hsize : graph.kernels.size ≤ stateLimit) (a : α) :
    graph.limited a = .ok a := if_pos hsize

theorem limited_of_not_le {α : Type} (hsize : ¬ graph.kernels.size ≤ stateLimit) (a : α) :
    graph.limited a = .error .tooManyStates := if_neg hsize

/-- Placing a kernel gives up no state. -/
theorem size_le_placeFreely (graph : StateGraph) (kernel : ItemSet) :
    graph.kernels.size ≤ (graph.placeFreely mode kernel).2.kernels.size := by
  unfold placeFreely
  split
  · exact (size_mergeInto _ _ _).ge
  · exact Nat.le_refl _
  · rw [size_created]
    exact Nat.le_succ _

/-- Placing any number of kernels gives up no state. -/
theorem size_le_placeAllFreely (graph : StateGraph) (rows : List (Symbol × ItemSet)) :
    graph.kernels.size ≤ (graph.placeAllFreely mode rows).2.kernels.size := by
  induction rows generalizing graph with
  | nil => exact Nat.le_refl _
  | cons row rows ih => exact (size_le_placeFreely graph row.2).trans (ih _)

theorem kernels_connectFreely (graph : StateGraph) (s : Nat) :
    (graph.connectFreely g first mode s).kernels =
      (graph.placeAllFreely mode (((graph.kernel s).closure g first).transitions g)).2.kernels := by
  simp only [connectFreely]

/-- Connecting a state gives up no state. -/
theorem size_le_connectFreely (graph : StateGraph) (s : Nat) :
    graph.kernels.size ≤ (graph.connectFreely g first mode s).kernels.size := by
  rw [kernels_connectFreely]
  exact size_le_placeAllFreely graph _

/-- No turn takes states away. -/
theorem Turns.size_le {count : Nat} (hturns : Turns g first mode count graph last) :
    graph.kernels.size ≤ last.kernels.size := by
  induction hturns with
  | none => exact Nat.le_refl _
  | @next _ s rest graph _ _ _ ih =>
    exact (size_le_connectFreely { graph with pending := rest } s).trans ih

/-- Placing a kernel fails only if there is no number for its state. -/
theorem place_eq (hsize : graph.kernels.size ≤ stateLimit) (kernel : ItemSet) :
    graph.place mode kernel =
      (graph.placeFreely mode kernel).2.limited (graph.placeFreely mode kernel) := by
  rw [place, placeFreely, find?]
  cases graph.registry.lookup kernel with
  | some s => exact (limited_of_le hsize _).symm
  | none =>
    cases graph.host? mode kernel with
    | none =>
      dsimp only
      rw [create_eq, limited, size_created]
      rfl
    | some found =>
      obtain ⟨s, decision⟩ := found
      cases decision with
      | merge => exact (limited_of_le ((size_mergeInto graph s kernel).trans_le hsize) _).symm
      | reuse => exact (limited_of_le hsize _).symm
      | distinct => exact (limited_of_le hsize _).symm

/-- Kernels that are placed in a row fail to find states only if there are not enough numbers for
them. -/
theorem placeAll_eq (hsize : graph.kernels.size ≤ stateLimit) (rows : List (Symbol × ItemSet)) :
    graph.placeAll mode rows =
      (graph.placeAllFreely mode rows).2.limited (graph.placeAllFreely mode rows) := by
  induction rows generalizing graph with
  | nil => exact (limited_of_le hsize _).symm
  | cons row rows ih =>
    obtain ⟨x, kernel⟩ := row
    simp only [placeAll, placeAllFreely, place_eq hsize]
    by_cases hplaced : (graph.placeFreely mode kernel).2.kernels.size ≤ stateLimit
    · rw [limited_of_le hplaced]
      change placeAll mode _ rows >>= _ = _
      rw [ih hplaced]
      unfold limited
      split <;> rfl
    · have hrest : ¬ (placeAllFreely mode (graph.placeFreely mode kernel).2 rows).2.kernels.size ≤
          stateLimit := fun hle => hplaced ((size_le_placeAllFreely _ rows).trans hle)
      rw [limited_of_not_le hplaced, limited_of_not_le hrest]
      rfl

/-- Connecting a state fails only if there are not enough numbers for states. -/
theorem connect_eq (hsize : graph.kernels.size ≤ stateLimit) (s : Nat) :
    graph.connect g first mode s =
      (graph.connectFreely g first mode s).limited (graph.connectFreely g first mode s) := by
  rw [connect, placeAll_eq hsize, connectFreely]
  unfold limited
  dsimp only
  split <;> rfl

/-! ## What a turn costs -/

/-- A graph under construction: it is some of its states that wait, and each was created for a
kernel of its own. -/
structure Underway (g : Grammar) (first : FirstTable) (mode : MergeMode) (graph : StateGraph) :
    Prop extends Tracked g first mode graph where
  founded : ∃ founders, graph.Founded g first mode founders

/-- Edges and events do not matter to the graph under construction. -/
theorem Underway.with_edges (hu : Underway g first mode graph) (edges : Array (List (Symbol × Nat)))
    (events : Array Event) :
    Underway g first mode { graph with edges := edges, events := events } := by
  obtain ⟨founders, hfounded⟩ := hu.founded
  exact ⟨⟨hu.arises, hu.pending_lt, hu.queue⟩, founders, hfounded.nodup, hfounded.length_eq,
    hfounded.arises, hfounded.registered⟩

/-- The states that start to wait are paid for by what the kernels gain. -/
def Paid (g : Grammar) (graph next : StateGraph) : Prop :=
  next.pending.size + graph.weight g ≤ graph.pending.size + next.weight g

theorem Paid.refl (graph : StateGraph) : Paid g graph graph := Nat.le_refl _

/-- What is paid for step by step is paid for. -/
theorem Paid.trans (h : Paid g graph next) (h' : Paid g next last) : Paid g graph last := by
  unfold Paid at *
  omega

theorem Paid.with_edges (h : Paid g graph next) (edges : Array (List (Symbol × Nat)))
    (events : Array Event) : Paid g graph { next with edges := edges, events := events } := h

/-- A kernel that is to be merged has not been registered, but it has a host. -/
theorem host?_of_find? {kernel : ItemSet} {s : Nat}
    (hfind : find? mode graph kernel = some (s, .merge)) :
    graph.host? mode kernel = some (s, .merge) := by
  unfold find? at hfind
  split at hfind
  · cases hfind
  · exact hfind

/-- A kernel without a state has not been registered. -/
theorem lookup_of_find? {kernel : ItemSet} (hfind : find? mode graph kernel = none) :
    graph.registry.lookup kernel = none := by
  unfold find? at hfind
  split at hfind
  · cases hfind
  · assumption

/-- Placing a kernel that arises keeps the graph under construction and is paid for. -/
theorem Underway.place (h : g.Augmented) (hfirst : first.Within g)
    (hu : Underway g first mode graph) {kernel : ItemSet} (hkernel : Arises g first mode kernel) :
    Underway g first mode (graph.placeFreely mode kernel).2 ∧
      Paid g graph (graph.placeFreely mode kernel).2 := by
  obtain ⟨founders, hfounded⟩ := hu.founded
  unfold placeFreely
  split
  · rename_i s hfind
    obtain ⟨ht, hcore, hmerge, _⟩ := host?_spec (host?_of_find? hfind)
    have hmerged := hfounded.mergeInto s kernel
    dsimp only
    by_cases hsame : (graph.kernel s).join kernel = graph.kernel s
    · rw [mergeInto_eq, if_pos hsame]
      exact ⟨hu, .refl _⟩
    · rw [mergeInto_eq, if_neg hsame] at hmerged ⊢
      obtain ⟨hgrown, hlt⟩ := hu.grown_of_merge h hfirst hkernel ht hcore hmerge hsame
      exact ⟨⟨hu.regrown ht hgrown, founders, hmerged⟩, paid_regrown hu.queue ht hlt⟩
  · exact ⟨hu, .refl _⟩
  · rename_i hfind
    exact ⟨⟨hu.created hkernel, _, hfounded.created hkernel (lookup_of_find? hfind)⟩,
      paid_created hu.queue kernel⟩

/-- Placing kernels that arise keeps the graph under construction and is paid for. -/
theorem Underway.placeAll (h : g.Augmented) (hfirst : first.Within g)
    (hu : Underway g first mode graph) {rows : List (Symbol × ItemSet)}
    (hrows : ∀ row ∈ rows, Arises g first mode row.2) :
    Underway g first mode (graph.placeAllFreely mode rows).2 ∧
      Paid g graph (graph.placeAllFreely mode rows).2 := by
  induction rows generalizing graph with
  | nil => exact ⟨hu, .refl _⟩
  | cons row rows ih =>
    obtain ⟨hrow, hrows⟩ := List.forall_mem_cons.mp hrows
    obtain ⟨hplaced, hpaid⟩ := hu.place h hfirst hrow
    obtain ⟨hlast, hpaid'⟩ := ih hplaced hrows
    exact ⟨hlast, hpaid.trans hpaid'⟩

/-- Connecting a state keeps the graph under construction and is paid for. -/
theorem Underway.connect (h : g.Augmented) (hfirst : first.Within g)
    (hu : Underway g first mode graph) {s : Nat} (hs : s < graph.kernels.size) :
    Underway g first mode (graph.connectFreely g first mode s) ∧
      Paid g graph (graph.connectFreely g first mode s) := by
  obtain ⟨hplaced, hpaid⟩ := hu.placeAll h hfirst fun _ => (hu.arises s hs).of_mem_transitions
  exact ⟨hplaced.with_edges _ _, hpaid.with_edges _ _⟩

/-- A turn keeps the graph under construction, and is paid for by what the kernels gain. -/
theorem Underway.turn (h : g.Augmented) (hfirst : first.Within g)
    (hu : Underway g first mode graph) {s : Nat} {rest : WorkQueue Nat}
    (hpop : graph.pending.pop? = some (s, rest)) :
    Underway g first mode (connectFreely g first mode { graph with pending := rest } s) ∧
      (connectFreely g first mode { graph with pending := rest } s).pending.size +
          graph.weight g + 1 ≤
        graph.pending.size +
          (connectFreely g first mode { graph with pending := rest } s).weight g := by
  obtain ⟨hlt, hpopped⟩ := hu.popped hpop
  obtain ⟨founders, hfounded⟩ := hu.founded
  have hwaiting : Underway g first mode { graph with pending := rest } :=
    ⟨hpopped, founders, hfounded.nodup, hfounded.length_eq, hfounded.arises, hfounded.registered⟩
  obtain ⟨hnext, hpaid⟩ := hwaiting.connect h hfirst hlt
  have hsize := WorkQueue.size_of_pop? hpop
  have hweight : weight g { graph with pending := rest } = graph.weight g := rfl
  rw [Paid, hweight] at hpaid
  simp only at hpaid
  exact ⟨hnext, by omega⟩

/-- Turns keep the graph under construction, and each of them is paid for. -/
theorem Turns.paid (h : g.Augmented) (hfirst : first.Within g) {count : Nat}
    (hturns : Turns g first mode count graph last) (hu : Underway g first mode graph) :
    Underway g first mode last ∧
      count + last.pending.size + graph.weight g ≤ graph.pending.size + last.weight g := by
  induction hturns with
  | none => exact ⟨hu, by omega⟩
  | next hpop _ ih =>
    obtain ⟨hnext, hturn⟩ := hu.turn h hfirst hpop
    obtain ⟨hlast, hpaid⟩ := ih hnext
    exact ⟨hlast, by omega⟩

/-! ## The end of the construction -/

/-- A bound for the number of turns: every kernel can arise, with all lookaheads. -/
def turnBound (g : Grammar) : Nat :=
  g.kernelBound * (1 + (g.symbolCount + 1) * (g.symbolCount + 1))

/-- A graph under construction weighs no more than the bound on the number of turns. -/
theorem Underway.weight_le (h : g.Augmented) (hfirst : first.Within g)
    (hu : Underway g first mode graph) : graph.weight g ≤ turnBound g := by
  obtain ⟨founders, hfounded⟩ := hu.founded
  have hsize := Grammar.length_le_kernelBound h hfirst hfounded.nodup hfounded.arises
  rw [hfounded.length_eq] at hsize
  exact (weight_le_mul g graph).trans (Nat.mul_le_mul_right _ hsize)

/-- No state waits after as many turns as the kernels can pay for. -/
theorem exists_turns (h : g.Augmented) (hfirst : first.Within g) {steps : Nat}
    (hu : Underway g first mode graph)
    (enough : turnBound g + graph.pending.size ≤ graph.weight g + steps) :
    ∃ count last, count ≤ steps ∧ Turns g first mode count graph last ∧
      last.pending.toList = [] := by
  induction steps generalizing graph with
  | zero =>
    have hweight := hu.weight_le h hfirst
    refine ⟨0, graph, Nat.le_refl _, .none, List.eq_nil_of_length_eq_zero ?_⟩
    rw [WorkQueue.length_toList]
    omega
  | succ steps ih =>
    cases hpop : graph.pending.pop? with
    | none => exact ⟨0, graph, Nat.zero_le _, .none, WorkQueue.toList_eq_nil_of_pop? hpop⟩
    | some popped =>
      obtain ⟨s, rest⟩ := popped
      obtain ⟨hnext, hturn⟩ := hu.turn h hfirst hpop
      obtain ⟨count, last, hcount, hturns, hend⟩ := ih hnext (by omega)
      exact ⟨count + 1, last, Nat.succ_le_succ hcount, .next hpop hturns, hend⟩

/-- The construction with a limit takes the same turns, unless it runs out of numbers for states:
it may take enough of them for all graphs that have no more states than there are numbers. -/
theorem saturate_eq (h : g.Augmented) (hfirst : first.Within g) {count steps : Nat}
    (hturns : Turns g first mode count graph last) (hend : last.pending.toList = [])
    (hu : Underway g first mode graph) (hsize : graph.kernels.size ≤ stateLimit)
    (enough : stateLimit * (1 + (g.symbolCount + 1) * (g.symbolCount + 1)) + graph.pending.size <
      graph.weight g + steps) :
    graph.saturate g first mode steps = last.limited last := by
  induction hturns generalizing steps with
  | none =>
    rw [limited_of_le hsize]
    cases steps with
    | zero => rfl
    | succ steps => simp only [saturate, WorkQueue.pop?_eq_none hend]
  | @next _ s rest graph last hpop hturns ih =>
    cases steps with
    | zero =>
      have hweight := (weight_le_mul g graph).trans (Nat.mul_le_mul_right _ hsize)
      omega
    | succ steps =>
      obtain ⟨hnext, hturn⟩ := hu.turn h hfirst hpop
      have hpopped : ({ graph with pending := rest } : StateGraph).kernels.size ≤ stateLimit :=
        hsize
      have hconnect : connect g first mode { graph with pending := rest } s = _ :=
        connect_eq hpopped s
      by_cases hlimit : (connectFreely g first mode { graph with pending := rest } s).kernels.size ≤
          stateLimit
      · rw [limited_of_le hlimit] at hconnect
        simp only [saturate, hpop, hconnect]
        exact ih hend hnext hlimit (by omega)
      · rw [limited_of_not_le hlimit] at hconnect
        simp only [saturate, hpop, hconnect]
        exact (limited_of_not_le (fun hle => hlimit (hturns.size_le.trans hle)) last).symm

/-- The construction gets under way with the initial state. -/
theorem underway_start : Underway g first mode (empty.created initialKernel) := by
  have hempty : empty.Founded g first mode [] :=
    ⟨List.nodup_nil, rfl, fun k hk => (by cases hk), fun k hk => (by cases hk)⟩
  exact ⟨sound_start.tracked, _, hempty.created .initial rfl⟩

/-- The initial state waits, which is paid for by its weight. -/
theorem pending_start_le (g : Grammar) : (empty.created initialKernel).pending.size ≤
    (empty.created initialKernel).weight g := by
  have hpaid : Paid g empty (empty.created initialKernel) :=
    paid_created WorkQueue.valid_empty initialKernel
  have hempty : empty.pending.size + empty.weight g = 0 := rfl
  unfold Paid at hpaid
  omega

/-- The graph of a grammar is the one that the turns lead to, if its states have numbers. -/
theorem ofGrammar_eq (h : g.Augmented) (hfirst : first.Within g) {count : Nat}
    (hturns : Turns g first mode count (empty.created initialKernel) last)
    (hend : last.pending.toList = []) :
    ofGrammar g first mode = last.limited (last.report (.populated last.kernels.size)) := by
  have hpaid := pending_start_le g
  have henough : stateLimit * (1 + (g.symbolCount + 1) * (g.symbolCount + 1)) +
      (empty.created initialKernel).pending.size <
        (empty.created initialKernel).weight g + stepBound g := by
    unfold stepBound
    omega
  have hstart : Sound g first mode (empty.created initialKernel) := sound_start
  have hsaturate := saturate_eq h hfirst hturns hend underway_start hstart.size_le henough
  by_cases hlimit : last.kernels.size ≤ stateLimit
  · rw [limited_of_le hlimit] at hsaturate ⊢
    exact bind_eq_ok (place_empty initialKernel) (bind_eq_ok hsaturate rfl)
  · rw [limited_of_not_le hlimit] at hsaturate ⊢
    exact (bind_of_eq_ok (place_empty initialKernel) _).trans (bind_of_eq_error hsaturate _)

/-! ## Grammars that pass the check -/

/-- The turns do not depend on the start symbol. -/
theorem Turns.of_withStart {n count : Nat}
    (hturns : Turns { g with start := n } first mode count graph last) :
    Turns g first mode count graph last := by
  induction hturns with
  | none => exact .none
  | next hpop _ ih => exact .next hpop ih

/-- The queue of every grammar that passes the check is emptied after finitely many turns, and what
they lead to is the graph of the grammar, if there are numbers for its states. -/
theorem construction_ends {declarations : List Declaration} {whole : Grammar}
    (hwhole : Grammar.define declarations = .ok whole) (hpart : g.PartOf whole)
    (hcheck : g.checkBuildable = .ok ()) (mode : MergeMode) :
    ∃ count last, count ≤ turnBound g ∧
      Turns g (FirstTable.ofGrammar g) mode count (empty.created initialKernel) last ∧
      last.pending.toList = [] ∧
      ofGrammar g (FirstTable.ofGrammar g) mode =
        if last.kernels.size ≤ stateLimit then .ok (last.report (.populated last.kernels.size))
        else .error .tooManyStates := by
  have h := hpart.augmented (Grammar.augmented_of_define hwhole)
    (Grammar.contains_augmentedRule hcheck)
  have hfirst := FirstTable.within_ofGrammar { g with start := whole.start }
  have hu : Underway { g with start := whole.start } (FirstTable.ofGrammar g) mode
    (empty.created initialKernel) := underway_start
  have hpaid := pending_start_le { g with start := whole.start }
  have henough : turnBound { g with start := whole.start } +
      (empty.created initialKernel).pending.size ≤
        (empty.created initialKernel).weight { g with start := whole.start } +
          turnBound { g with start := whole.start } := by omega
  obtain ⟨count, last, hcount, hturns, hend⟩ := exists_turns h hfirst hu henough
  refine ⟨count, last, hcount, hturns.of_withStart, hend, ?_⟩
  rw [← ofGrammar_withStart g whole.start]
  exact ofGrammar_eq h hfirst hturns hend

theorem construction_ends_ambiguousSum :
    ∃ g, Grammar.define Automaton.ambiguousSum = .ok g ∧ g.checkBuildable = .ok () ∧
      ∀ mode, ∃ count last, count ≤ turnBound g ∧
        Turns g (FirstTable.ofGrammar g) mode count (empty.created initialKernel) last ∧
        last.pending.toList = [] ∧
        ofGrammar g (FirstTable.ofGrammar g) mode =
          if last.kernels.size ≤ stateLimit then .ok (last.report (.populated last.kernels.size))
          else .error .tooManyStates := by
  have hchecked : (Grammar.define Automaton.ambiguousSum).toOption.any
      (·.checkBuildable.toOption.isSome) = true := by decide +kernel
  obtain ⟨g, hg, hsome⟩ := (Option.any_eq_true _ _).mp hchecked
  obtain ⟨_, hunit⟩ := Option.isSome_iff_exists.mp hsome
  have hdefine := eq_ok_of_toOption_eq_some hg
  have hcheck := eq_ok_of_toOption_eq_some hunit
  exact ⟨g, hdefine, hcheck, construction_ends hdefine (.refl g) hcheck⟩

end StateGraph
end ParserGen
