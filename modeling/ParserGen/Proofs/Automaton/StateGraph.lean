import Mathlib.Algebra.BigOperators.Group.Finset.Basic
import Mathlib.Algebra.Order.BigOperators.Group.Finset
import ParserGen.Proofs.Automaton.Kernels
import ParserGen.Proofs.Automaton.Placement
import ParserGen.Proofs.WorkQueue

/-!
# The finished graph of states

While the graph of states grows, every state that does not wait to be looked at again has edges that
agree with its kernel.  Looking at a state makes other states wait only if they are new or gain
lookaheads, and all kernels draw on one finite set of pairs, so that the bound on the number of
steps is never met and no state waits in the end.

Main results:

- Theorem `StateGraph.place_spec`: placing a kernel yields a state that hosts it.
- Theorem `StateGraph.connect_spec`: connecting a state keeps the graph consistent, and what starts
  to wait is paid for by what the kernels gain.
- Theorem `StateGraph.turn_spec`: so does connecting the first state that waits, which then waits no
  more.
- Theorem `StateGraph.saturate_spec`: no state waits when the construction ends.
- Theorem `StateGraph.complete_ofGrammar`: in the graph of a grammar all states are connected, and
  state zero hosts the initial kernel.
-/

namespace ParserGen

open ItemSet

/-! ## Hosting -/

/-- A state with the kernel `big` can stand for one with the kernel `small`: it extends it, and if
nothing is merged it is the same. -/
structure Hosts (mode : MergeMode) (big small : ItemSet) : Prop where
  extends_ : big.Extends small
  eq_of_canonical : mode = .canonical → big = small

namespace Hosts

variable {mode : MergeMode} {s t u : ItemSet}

theorem refl (s : ItemSet) : Hosts mode s s := ⟨Extends.refl s, fun _ => rfl⟩

/-- What hosts a host hosts what it hosts. -/
theorem trans (h : Hosts mode s t) (h' : Hosts mode t u) : Hosts mode s u :=
  ⟨h.extends_.trans h'.extends_, fun hmode => (h.eq_of_canonical hmode).trans
    (h'.eq_of_canonical hmode)⟩

/-- A kernel that is taken in by a state without a change was hosted by it already. -/
theorem of_reuse (h : s.decideMerge mode t = .reuse) : Hosts mode s t := by
  cases mode with
  | canonical =>
    simp only [decideMerge] at h
    split at h
    · rename_i heq
      exact heq ▸ refl s
    · cases h
  | pgm =>
    simp only [decideMerge] at h
    split at h
    · rename_i hsub
      exact ⟨subsumes_iff.mp hsub, nofun⟩
    · split at h <;> cases h
  | lalr =>
    simp only [decideMerge] at h
    split at h
    · rename_i hsub
      exact ⟨subsumes_iff.mp hsub, nofun⟩
    · cases h

/-- The union of two kernels that are merged hosts both. -/
theorem join_of_merge (hcore : s.core = t.core) (h : s.decideMerge mode t = .merge) :
    Hosts mode (s.join t) s ∧ Hosts mode (s.join t) t := by
  have hmode : mode ≠ .canonical := by
    rintro rfl
    simp only [decideMerge] at h
    split at h <;> cases h
  obtain ⟨hs, ht⟩ := extends_join hcore
  exact ⟨⟨hs, fun hc => absurd hc hmode⟩, ⟨ht, fun hc => absurd hc hmode⟩⟩

end Hosts

namespace StateGraph

variable {g : Grammar} {first : FirstTable} {mode : MergeMode} {graph next : StateGraph}

/-! ## What holds of a graph -/

/-- The states of a graph have kernels that arise, and it is some of these states that wait. -/
structure Tracked (g : Grammar) (first : FirstTable) (mode : MergeMode) (graph : StateGraph) :
    Prop where
  arises : ∀ s < graph.kernels.size, Arises g first mode (graph.kernel s)
  pending_lt : ∀ s ∈ graph.pending.toList, s < graph.kernels.size
  queue : graph.pending.Valid

/-- The kernels of a graph arise in its construction, every registered kernel is hosted by its
state, and it is states of the graph that wait. -/
structure Sound (g : Grammar) (first : FirstTable) (mode : MergeMode) (graph : StateGraph) :
    Prop where
  size_edges : graph.edges.size = graph.kernels.size
  size_le : graph.kernels.size ≤ stateLimit
  arises : ∀ s < graph.kernels.size, Arises g first mode (graph.kernel s)
  registered : ∀ {kernel : ItemSet} {s : Nat}, (kernel, s) ∈ graph.registry →
    s < graph.kernels.size ∧ Hosts mode (graph.kernel s) kernel
  pending_lt : ∀ s ∈ graph.pending.toList, s < graph.kernels.size
  queue : graph.pending.Valid

/-- A sound graph is tracked: its kernels arise, and it is its states that wait. -/
theorem Sound.tracked (h : Sound g first mode graph) : Tracked g first mode graph :=
  ⟨h.arises, h.pending_lt, h.queue⟩

/-- The edges of a state: one for each symbol after a marker, to a state that hosts what the symbol
leads to. -/
structure Connected (g : Grammar) (first : FirstTable) (mode : MergeMode) (graph : StateGraph)
    (s : Nat) : Prop where
  symbols : (graph.edges.getD s []).map (·.1) =
    ((graph.kernel s).closure g first).nextSymbols g
  targets : ∀ {x : Symbol} {t : Nat}, (x, t) ∈ graph.edges.getD s [] →
    t < graph.kernels.size ∧ Hosts mode (graph.kernel t) ((graph.kernel s).successor g first x)

/-- All states are connected, except those that wait and the one that is being looked at. -/
def Settled (g : Grammar) (first : FirstTable) (mode : MergeMode) (graph : StateGraph)
    (busy : Option Nat) : Prop :=
  ∀ s < graph.kernels.size, s ∉ graph.pending.toList → busy ≠ some s →
    Connected g first mode graph s

/-- How much there is in the kernels of a graph: its states and what they say. -/
def weight (g : Grammar) (graph : StateGraph) : Nat :=
  ∑ s ∈ Finset.range graph.kernels.size, (1 + ((graph.kernel s).facts g).card)

/-- What placing a kernel does to a graph: states are added, or gain lookaheads, and wait
afterwards; all else stays. -/
structure Grows (g : Grammar) (mode : MergeMode) (graph next : StateGraph) : Prop where
  size_le : graph.kernels.size ≤ next.kernels.size
  edges : ∀ s < graph.kernels.size, next.edges.getD s [] = graph.edges.getD s []
  hosts : ∀ s < graph.kernels.size, Hosts mode (next.kernel s) (graph.kernel s)
  still : ∀ s < graph.kernels.size, s ∉ next.pending.toList →
    s ∉ graph.pending.toList ∧ next.kernel s = graph.kernel s
  fresh : ∀ s < next.kernels.size, graph.kernels.size ≤ s → s ∈ next.pending.toList
  registry : ∀ row ∈ graph.registry, row ∈ next.registry
  paid : next.pending.size + graph.weight g ≤ graph.pending.size + next.weight g

namespace Grows

theorem refl (graph : StateGraph) : Grows g mode graph graph where
  size_le := Nat.le_refl _
  edges _ _ := rfl
  hosts _ _ := Hosts.refl _
  still _ _ hs := ⟨hs, rfl⟩
  fresh _ hlt hle := absurd hlt (Nat.not_lt.mpr hle)
  registry _ hrow := hrow
  paid := Nat.le_refl _

theorem trans {last : StateGraph} (h : Grows g mode graph next) (h' : Grows g mode next last) :
    Grows g mode graph last where
  size_le := h.size_le.trans h'.size_le
  edges s hs := (h'.edges s (hs.trans_le h.size_le)).trans (h.edges s hs)
  hosts s hs := (h'.hosts s (hs.trans_le h.size_le)).trans (h.hosts s hs)
  still s hs hwait := by
    obtain ⟨hnext, hkernel⟩ := h'.still s (hs.trans_le h.size_le) hwait
    obtain ⟨hgraph, hkernel'⟩ := h.still s hs hnext
    exact ⟨hgraph, hkernel.trans hkernel'⟩
  fresh s hlt hle := by
    by_cases hs : s < next.kernels.size
    · by_contra hwait
      exact (h'.still s hs hwait).1 (h.fresh s hs hle)
    · exact h'.fresh s hlt (Nat.not_lt.mp hs)
  registry row hrow := h'.registry row (h.registry row hrow)
  paid := by
    have hpaid := h.paid
    have hpaid' := h'.paid
    omega

/-- A state whose kernel stays the same stays connected. -/
theorem connected (h : Grows g mode graph next) {s : Nat} (hs : s < graph.kernels.size)
    (hkernel : next.kernel s = graph.kernel s) (hconn : Connected g first mode graph s) :
    Connected g first mode next s := by
  constructor
  · rw [h.edges s hs, hkernel]
    exact hconn.symbols
  · intro x t hedge
    rw [h.edges s hs] at hedge
    obtain ⟨ht, hhosts⟩ := hconn.targets hedge
    rw [hkernel]
    exact ⟨ht.trans_le h.size_le, (h.hosts t ht).trans hhosts⟩

/-- A state that is connected stays so while the graph grows, unless it waits again. -/
theorem settled (h : Grows g mode graph next) {busy : Option Nat}
    (hsettled : Settled g first mode graph busy) : Settled g first mode next busy := by
  intro s hlt hwait hbusy
  have hs : s < graph.kernels.size := by
    by_contra hle
    exact hwait (h.fresh s hlt (Nat.not_lt.mp hle))
  obtain ⟨hold, hkernel⟩ := h.still s hs hwait
  exact h.connected hs hkernel (hsettled s hs hold hbusy)

end Grows

/-! ## A new state -/

/-- A new state adds itself and the facts of its kernel to the weight. -/
theorem weight_created (graph : StateGraph) (kernel : ItemSet) :
    (graph.created kernel).weight g = graph.weight g + (1 + (kernel.facts g).card) := by
  rw [weight, size_created, Finset.sum_range_succ, kernel_created_self]
  congr 1
  refine Finset.sum_congr rfl fun s hs => ?_
  rw [kernel_created_of_lt (Finset.mem_range.mp hs)]

/-- A tracked graph stays so if a kernel that arises gets a state. -/
theorem Tracked.created (h : Tracked g first mode graph) {kernel : ItemSet}
    (hkernel : Arises g first mode kernel) : Tracked g first mode (graph.created kernel) where
  arises s hlt := by
    rw [size_created] at hlt
    rcases Nat.lt_succ_iff_lt_or_eq.mp hlt with hlt | rfl
    · rw [kernel_created_of_lt hlt]
      exact h.arises s hlt
    · rw [kernel_created_self]
      exact hkernel
  pending_lt s hmem := by
    rw [size_created]
    rcases h.queue.mem_add.mp hmem with hmem | rfl
    · exact Nat.lt_succ_of_lt (h.pending_lt s hmem)
    · exact Nat.lt_succ_self _
  queue := h.queue.add _

/-- A new state waits, which is paid for by its weight. -/
theorem paid_created (hqueue : graph.pending.Valid) (kernel : ItemSet) :
    (graph.created kernel).pending.size + graph.weight g ≤
      graph.pending.size + (graph.created kernel).weight g := by
  have hadd := hqueue.size_add_le graph.kernels.size
  have hweight := weight_created (g := g) graph kernel
  simp only [created] at hadd hweight ⊢
  omega

/-- A graph stays sound if a kernel that arises gets a state, as long as there are numbers left. -/
theorem Sound.created (h : Sound g first mode graph) {kernel : ItemSet}
    (hkernel : Arises g first mode kernel) (hlimit : graph.kernels.size < stateLimit) :
    Sound g first mode (graph.created kernel) where
  size_edges := by
    rw [size_created, ← h.size_edges]
    exact Array.size_push _
  size_le := by
    rw [size_created]
    exact hlimit
  arises := (h.tracked.created hkernel).arises
  registered {kernel' s} hrow := by
    rw [size_created]
    rcases List.mem_cons.mp hrow with heq | hrow
    · obtain ⟨rfl, rfl⟩ := Prod.mk.inj heq
      rw [kernel_created_self]
      exact ⟨Nat.lt_succ_self _, Hosts.refl _⟩
    · obtain ⟨hlt, hhosts⟩ := h.registered hrow
      rw [kernel_created_of_lt hlt]
      exact ⟨Nat.lt_succ_of_lt hlt, hhosts⟩
  pending_lt := (h.tracked.created hkernel).pending_lt
  queue := (h.tracked.created hkernel).queue

/-- A graph grows if a kernel gets a state. -/
theorem Sound.grows_created (h : Sound g first mode graph) (kernel : ItemSet) :
    Grows g mode graph (graph.created kernel) where
  size_le := by
    rw [size_created]
    exact Nat.le_succ _
  edges s hlt := by
    have hne : s ≠ graph.edges.size := by
      rw [h.size_edges]
      exact Nat.ne_of_lt hlt
    simp only [StateGraph.created, Array.getD_eq_getD_getElem?, Array.getElem?_push, if_neg hne]
  hosts s hlt := by
    rw [kernel_created_of_lt hlt]
    exact Hosts.refl _
  still s hlt hwait :=
    ⟨fun hmem => hwait (h.queue.mem_add.mpr (Or.inl hmem)), kernel_created_of_lt hlt⟩
  fresh s hlt hle := by
    rw [size_created] at hlt
    exact h.queue.mem_add.mpr (Or.inr (by omega))
  registry _ hrow := List.mem_cons_of_mem _ hrow
  paid := paid_created h.queue kernel

/-! ## A state that gains lookaheads -/

/-- A kernel that gets more facts makes the graph heavier. -/
theorem weight_lt_regrown {grown : ItemSet} {t : Nat} (ht : t < graph.kernels.size)
    (hlt : ((graph.kernel t).facts g).card < (grown.facts g).card) :
    graph.weight g < (graph.regrown t grown).weight g := by
  rw [weight, weight, size_regrown]
  refine Finset.sum_lt_sum (fun s _ => ?_) ⟨t, Finset.mem_range.mpr ht, ?_⟩
  · rw [kernel_regrown ht]
    split
    · rename_i hts
      subst hts
      omega
    · exact Nat.le_refl _
  · rw [kernel_regrown ht, if_pos rfl]
    omega

/-- If one kernel is replaced by one that hosts it, each state hosts its old kernel. -/
theorem Sound.hosts_regrown {grown : ItemSet} {t : Nat} (ht : t < graph.kernels.size)
    (hhosts : Hosts mode grown (graph.kernel t)) (s : Nat) :
    Hosts mode ((graph.regrown t grown).kernel s) (graph.kernel s) := by
  rw [kernel_regrown ht]
  split
  · rename_i hts
    exact hts ▸ hhosts
  · exact Hosts.refl _

/-- A tracked graph stays so if a state gets another kernel that arises. -/
theorem Tracked.regrown (h : Tracked g first mode graph) {grown : ItemSet} {t : Nat}
    (ht : t < graph.kernels.size) (hgrown : Arises g first mode grown) :
    Tracked g first mode (graph.regrown t grown) where
  arises s hlt := by
    rw [size_regrown] at hlt
    rw [kernel_regrown ht]
    split
    · exact hgrown
    · exact h.arises s hlt
  pending_lt s hmem := by
    rw [size_regrown]
    rcases h.queue.mem_add.mp hmem with hmem | rfl
    · exact h.pending_lt s hmem
    · exact ht
  queue := h.queue.add _

/-- A state that gains lookaheads waits, which is paid for by these. -/
theorem paid_regrown (hqueue : graph.pending.Valid) {grown : ItemSet} {t : Nat}
    (ht : t < graph.kernels.size)
    (hlt : ((graph.kernel t).facts g).card < (grown.facts g).card) :
    (graph.regrown t grown).pending.size + graph.weight g ≤
      graph.pending.size + (graph.regrown t grown).weight g := by
  have hadd := hqueue.size_add_le t
  have hweight := weight_lt_regrown ht hlt
  simp only [regrown] at hadd hweight ⊢
  omega

/-- A graph stays sound if a kernel is replaced by one that arises and hosts it. -/
theorem Sound.regrown (h : Sound g first mode graph) {grown : ItemSet} {t : Nat}
    (ht : t < graph.kernels.size) (hgrown : Arises g first mode grown)
    (hhosts : Hosts mode grown (graph.kernel t)) :
    Sound g first mode (graph.regrown t grown) where
  size_edges := by
    rw [size_regrown]
    exact h.size_edges
  size_le := by
    rw [size_regrown]
    exact h.size_le
  arises := (h.tracked.regrown ht hgrown).arises
  registered {kernel s} hrow := by
    rw [size_regrown]
    rcases List.mem_cons.mp hrow with heq | hrow
    · obtain ⟨rfl, rfl⟩ := Prod.mk.inj heq
      rw [kernel_regrown ht, if_pos rfl]
      exact ⟨ht, Hosts.refl _⟩
    · obtain ⟨hlt, hold⟩ := h.registered hrow
      exact ⟨hlt, (Sound.hosts_regrown ht hhosts s).trans hold⟩
  pending_lt := (h.tracked.regrown ht hgrown).pending_lt
  queue := (h.tracked.regrown ht hgrown).queue

/-- A graph grows if a kernel is replaced by one that hosts it and has more facts. -/
theorem Sound.grows_regrown (h : Sound g first mode graph) {grown : ItemSet} {t : Nat}
    (ht : t < graph.kernels.size) (hhosts : Hosts mode grown (graph.kernel t))
    (hlt : ((graph.kernel t).facts g).card < (grown.facts g).card) :
    Grows g mode graph (graph.regrown t grown) where
  size_le := (size_regrown _ _ _).ge
  edges _ _ := rfl
  hosts s _ := Sound.hosts_regrown ht hhosts s
  still s _ hwait := by
    have hne : ¬ t = s := fun hts => hwait (h.queue.mem_add.mpr (Or.inr hts.symm))
    refine ⟨fun hmem => hwait (h.queue.mem_add.mpr (Or.inl hmem)), ?_⟩
    rw [kernel_regrown ht, if_neg hne]
  fresh s hlt hle := by
    rw [size_regrown] at hlt
    exact absurd hlt (Nat.not_lt.mpr hle)
  registry _ hrow := List.mem_cons_of_mem _ hrow
  paid := paid_regrown h.queue ht hlt

/-! ## Placing a kernel -/

/-- What placing a kernel achieves: the graph that results is sound, has grown from the old one,
and has a state that hosts the kernel. -/
structure Placed (g : Grammar) (first : FirstTable) (mode : MergeMode) (graph : StateGraph)
    (kernel : ItemSet) (s : Nat) (next : StateGraph) : Prop where
  sound : Sound g first mode next
  grows : Grows g mode graph next
  lt : s < next.kernels.size
  hosts : Hosts mode (next.kernel s) kernel

/-- A merge that changes a kernel makes it one that arises and has more facts. -/
theorem Tracked.grown_of_merge (h : g.Augmented) (hfirst : first.Within g)
    (htracked : Tracked g first mode graph) {kernel : ItemSet} {t : Nat}
    (hkernel : Arises g first mode kernel) (ht : t < graph.kernels.size)
    (hcore : (graph.kernel t).core = kernel.core)
    (hmerge : (graph.kernel t).decideMerge mode kernel = .merge)
    (hne : (graph.kernel t).join kernel ≠ graph.kernel t) :
    Arises g first mode ((graph.kernel t).join kernel) ∧
      ((graph.kernel t).facts g).card < (((graph.kernel t).join kernel).facts g).card := by
  have hgrown := (htracked.arises t ht).merged hkernel hcore hmerge
  have hold := (Hosts.join_of_merge hcore hmerge).1
  exact ⟨hgrown, (htracked.arises t ht).card_facts_lt h hfirst hgrown hold.extends_ hne⟩

/-- A kernel that is merged into a state is placed there. -/
theorem mergeInto_spec (h : g.Augmented) (hfirst : first.Within g) (hs : Sound g first mode graph)
    {kernel : ItemSet} {t : Nat} (hkernel : Arises g first mode kernel)
    (ht : t < graph.kernels.size) (hcore : (graph.kernel t).core = kernel.core)
    (hmerge : (graph.kernel t).decideMerge mode kernel = .merge) :
    Placed g first mode graph kernel t (graph.mergeInto t kernel) := by
  obtain ⟨hold, hnew⟩ := Hosts.join_of_merge hcore hmerge
  rw [mergeInto_eq]
  split
  · rename_i hsame
    exact ⟨hs, Grows.refl _, ht, hsame ▸ hnew⟩
  · rename_i hne
    obtain ⟨hgrown, hlt⟩ := hs.tracked.grown_of_merge h hfirst hkernel ht hcore hmerge hne
    refine ⟨hs.regrown ht hgrown hold, hs.grows_regrown ht hold hlt, ?_, ?_⟩
    · rw [size_regrown]
      exact ht
    · rw [kernel_regrown ht, if_pos rfl]
      exact hnew

/-- Placing a kernel yields a state that hosts it. -/
theorem place_spec (h : g.Augmented) (hfirst : first.Within g) (hs : Sound g first mode graph)
    {kernel : ItemSet} {t : Nat} (hkernel : Arises g first mode kernel)
    (hrun : graph.place mode kernel = .ok (t, next)) :
    Placed g first mode graph kernel t next := by
  cases places_of_place hrun with
  | registered hmem =>
    obtain ⟨ht, hhosts⟩ := hs.registered hmem
    exact ⟨hs, Grows.refl _, ht, hhosts⟩
  | reused ht _ hreuse => exact ⟨hs, Grows.refl _, ht, Hosts.of_reuse hreuse⟩
  | merged ht hcore hmerge => exact mergeInto_spec h hfirst hs hkernel ht hcore hmerge
  | created _ hlimit =>
    refine ⟨hs.created hkernel hlimit, hs.grows_created kernel, ?_, ?_⟩
    · rw [size_created]
      exact Nat.lt_succ_self _
    · rw [kernel_created_self]
      exact Hosts.refl _

/-! ## Connecting a state -/

/-- An edge leads to a state that hosts what its symbol leads to. -/
def LeadsToHost (mode : MergeMode) (rows : List (Symbol × ItemSet)) (graph : StateGraph)
    (edge : Symbol × Nat) : Prop :=
  edge.2 < graph.kernels.size ∧
    ∃ kernel, (edge.1, kernel) ∈ rows ∧ Hosts mode (graph.kernel edge.2) kernel

/-- An edge that leads to a host still does when the graph has grown. -/
theorem Grows.leadsToHost (hgrows : Grows g mode graph next) {rows : List (Symbol × ItemSet)}
    {edge : Symbol × Nat} (h : LeadsToHost mode rows graph edge) :
    LeadsToHost mode rows next edge := by
  obtain ⟨hlt, kernel, hrow, hhosts⟩ := h
  exact ⟨hlt.trans_le hgrows.size_le, kernel, hrow, (hgrows.hosts _ hlt).trans hhosts⟩

/-- Placing the kernels that the symbols lead to gives one edge for each symbol. -/
theorem placeAll_spec (h : g.Augmented) (hfirst : first.Within g)
    (hs : Sound g first mode graph) {rows : List (Symbol × ItemSet)} {edges : List (Symbol × Nat)}
    (hrows : ∀ row ∈ rows, Arises g first mode row.2)
    (hrun : graph.placeAll mode rows = .ok (edges, next)) :
    Sound g first mode next ∧ Grows g mode graph next ∧ edges.map (·.1) = rows.map (·.1) ∧
      ∀ edge ∈ edges, LeadsToHost mode rows next edge := by
  have hplace : ∀ row ∈ rows, ∀ {middle placed t},
      Sound g first mode middle ∧ Grows g mode graph middle →
      middle.place mode row.2 = .ok (t, placed) →
      (Sound g first mode placed ∧ Grows g mode graph placed) ∧
        LeadsToHost mode rows placed (row.1, t) ∧
        ∀ edge, LeadsToHost mode rows middle edge → LeadsToHost mode rows placed edge := by
    rintro row hrow middle placed t ⟨hmiddle, hgrows⟩ hrun
    have hplaced := place_spec h hfirst hmiddle (hrows row hrow) hrun
    exact ⟨⟨hplaced.sound, hgrows.trans hplaced.grows⟩,
      ⟨hplaced.lt, row.2, hrow, hplaced.hosts⟩, fun _ => hplaced.grows.leadsToHost⟩
  obtain ⟨⟨hsound, hgrows⟩, _, hsymbols, htargets⟩ :=
    placeAll_induction hplace ⟨hs, Grows.refl graph⟩ hrun
  exact ⟨hsound, hgrows, hsymbols, htargets⟩

/-- To set the edges of one state leaves those of the others alone. -/
theorem edges_set (graph : StateGraph) (edges : List (Symbol × Nat)) {t : Nat}
    (ht : t < graph.edges.size) (s : Nat) :
    (graph.edges.setIfInBounds t edges).getD s [] =
      if t = s then edges else graph.edges.getD s [] := by
  simp only [Array.getD_eq_getD_getElem?, Array.getElem?_setIfInBounds, ht]
  split <;> rfl

/-- Connecting a state keeps the graph sound and all states settled, and what starts to wait is paid
for by what the kernels gain. -/
theorem connect_spec (h : g.Augmented) (hfirst : first.Within g) (hs : Sound g first mode graph)
    {s : Nat} (hlt : s < graph.kernels.size) (hsettled : Settled g first mode graph (some s))
    (hrun : graph.connect g first mode s = .ok next) :
    Sound g first mode next ∧ Settled g first mode next none ∧
      (∀ row ∈ graph.registry, row ∈ next.registry) ∧
      next.pending.size + graph.weight g ≤ graph.pending.size + next.weight g := by
  obtain ⟨edges, placed, hplace, rfl⟩ := exists_of_connect hrun
  obtain ⟨hsound, hgrows, hsymbols, htargets⟩ :=
    placeAll_spec h hfirst hs (fun _ => (hs.arises s hlt).of_mem_transitions) hplace
  have hbound : s < placed.edges.size := by
    rw [hsound.size_edges]
    exact hlt.trans_le hgrows.size_le
  have hedges := edges_set placed edges hbound
  refine ⟨⟨?_, hsound.size_le, hsound.arises, hsound.registered, hsound.pending_lt,
    hsound.queue⟩, ?_, hgrows.registry, hgrows.paid⟩
  · rw [← hsound.size_edges]
    exact Array.size_setIfInBounds
  · intro t ht hwait _
    by_cases hst : s = t
    · -- The kernel is still the one that the edges were found for: otherwise `s` would wait.
      subst hst
      have hkernel := (hgrows.still s hlt hwait).2
      constructor
      · refine (congrArg (List.map Prod.fst) ((hedges s).trans (if_pos rfl))).trans ?_
        rw [hsymbols, transitions_closure, List.map_map]
        exact (List.map_id' _).trans (by rw [← hkernel]; rfl)
      · intro x u hedge
        have hmem := (hedges s).trans (if_pos rfl) ▸ hedge
        obtain ⟨hu, kernel, hrow, hhosts⟩ := htargets _ hmem
        rw [transitions_closure] at hrow
        obtain ⟨y, _, hy⟩ := List.mem_map.mp hrow
        obtain ⟨rfl, rfl⟩ := Prod.mk.inj hy
        exact ⟨hu, hkernel.symm ▸ hhosts⟩
    · have hbusy : some s ≠ some t := fun heq => hst (Option.some.inj heq)
      have hconn := hgrows.settled hsettled t ht hwait hbusy
      have hsame := (hedges t).trans (if_neg hst)
      constructor
      · refine (congrArg (List.map Prod.fst) hsame).trans hconn.symbols
      · intro x u hedge
        exact hconn.targets (hsame ▸ hedge)

/-! ## The whole construction -/

/-- A state weighs no more than there are facts that a kernel can state. -/
theorem weight_le_mul (g : Grammar) (graph : StateGraph) : graph.weight g ≤
    graph.kernels.size * (1 + (g.symbolCount + 1) * (g.symbolCount + 1)) := by
  have hstate : ∀ s ∈ Finset.range graph.kernels.size, 1 + ((graph.kernel s).facts g).card ≤
      1 + (g.symbolCount + 1) * (g.symbolCount + 1) :=
    fun s _ => Nat.add_le_add_left (card_facts_le g _) 1
  calc graph.weight g
      ≤ ∑ _s ∈ Finset.range graph.kernels.size,
          (1 + (g.symbolCount + 1) * (g.symbolCount + 1)) := Finset.sum_le_sum hstate
    _ = (Finset.range graph.kernels.size).card *
          (1 + (g.symbolCount + 1) * (g.symbolCount + 1)) :=
        Finset.sum_const_nat fun _ _ => rfl
    _ = graph.kernels.size * (1 + (g.symbolCount + 1) * (g.symbolCount + 1)) := by
        rw [Finset.card_range]

/-- A sound graph weighs no more than all the states that have numbers with all the facts about
their items. -/
theorem Sound.weight_le (h : Sound g first mode graph) :
    graph.weight g ≤ stateLimit * (1 + (g.symbolCount + 1) * (g.symbolCount + 1)) :=
  (weight_le_mul g graph).trans (Nat.mul_le_mul_right _ h.size_le)

/-- The first state that waits is one of the graph, and the others wait as before. -/
theorem Tracked.popped (h : Tracked g first mode graph) {s : Nat} {rest : WorkQueue Nat}
    (hpop : graph.pending.pop? = some (s, rest)) :
    s < graph.kernels.size ∧ Tracked g first mode { graph with pending := rest } := by
  have hlist := WorkQueue.toList_of_pop? hpop
  exact ⟨h.pending_lt s (hlist ▸ List.mem_cons_self), h.arises,
    fun t ht => h.pending_lt t (hlist ▸ List.mem_cons_of_mem _ ht), h.queue.pop hpop⟩

/-- While the first state that waits is looked at, it is the only one that need not be settled. -/
theorem Sound.popped (hs : Sound g first mode graph) (hsettled : Settled g first mode graph none)
    {s : Nat} {rest : WorkQueue Nat} (hpop : graph.pending.pop? = some (s, rest)) :
    s < graph.kernels.size ∧ Sound g first mode { graph with pending := rest } ∧
      Settled g first mode { graph with pending := rest } (some s) := by
  have hlist := WorkQueue.toList_of_pop? hpop
  obtain ⟨hlt, hpopped⟩ := hs.tracked.popped hpop
  refine ⟨hlt, ?_, ?_⟩
  · exact ⟨hs.size_edges, hs.size_le, hs.arises, hs.registered, hpopped.pending_lt, hpopped.queue⟩
  · intro t ht hwait hne
    have hold : t ∉ graph.pending.toList := by
      rw [hlist, List.mem_cons]
      rintro (rfl | hmem)
      · exact hne rfl
      · exact hwait hmem
    have hconn := hsettled t ht hold nofun
    exact ⟨hconn.symbols, hconn.targets⟩

/-- The first state that waits is connected, and what starts to wait is paid for. -/
theorem turn_spec (h : g.Augmented) (hfirst : first.Within g) (hs : Sound g first mode graph)
    (hsettled : Settled g first mode graph none) {s : Nat} {rest : WorkQueue Nat}
    (hpop : graph.pending.pop? = some (s, rest))
    (hrun : connect g first mode { graph with pending := rest } s = .ok next) :
    Sound g first mode next ∧ Settled g first mode next none ∧
      (∀ row ∈ graph.registry, row ∈ next.registry) ∧
      next.pending.size + graph.weight g + 1 ≤ graph.pending.size + next.weight g := by
  have hsize := WorkQueue.size_of_pop? hpop
  obtain ⟨hlt, hpopped, hbusy⟩ := hs.popped hsettled hpop
  obtain ⟨hsound, hnone, hregistry, hpaid⟩ := connect_spec h hfirst hpopped hlt hbusy hrun
  have hweight : weight g { graph with pending := rest } = graph.weight g := rfl
  rw [hweight] at hpaid
  simp only at hpaid
  exact ⟨hsound, hnone, hregistry, by omega⟩

/-- No state waits when the construction ends, provided that it may take as many steps as the
kernels can gain. -/
theorem saturate_spec (h : g.Augmented) (hfirst : first.Within g) {steps : Nat}
    (hs : Sound g first mode graph) (hsettled : Settled g first mode graph none)
    (enough : stateLimit * (1 + (g.symbolCount + 1) * (g.symbolCount + 1)) + graph.pending.size <
      graph.weight g + steps)
    (hrun : graph.saturate g first mode steps = .ok next) :
    Sound g first mode next ∧ (∀ s < next.kernels.size, Connected g first mode next s) ∧
      ∀ row ∈ graph.registry, row ∈ next.registry := by
  obtain ⟨left, ⟨hsound, hlast, hregistry, henough⟩, hend⟩ := saturate_induction
    (P := fun left x => Sound g first mode x ∧ Settled g first mode x none ∧
      (∀ row ∈ graph.registry, row ∈ x.registry) ∧
      stateLimit * (1 + (g.symbolCount + 1) * (g.symbolCount + 1)) + x.pending.size <
        x.weight g + left)
    (fun ⟨hs, hsettled, hkept, henough⟩ hpop hconnect => by
      obtain ⟨hsound, hnone, hregistry, hpaid⟩ := turn_spec h hfirst hs hsettled hpop hconnect
      exact ⟨hsound, hnone, fun row hrow => hregistry row (hkept row hrow), by omega⟩)
    ⟨hs, hsettled, fun _ hrow => hrow, enough⟩ hrun
  have hempty : next.pending.toList = [] := by
    rcases hend with rfl | hpop
    · have hweight := hsound.weight_le
      omega
    · exact WorkQueue.toList_eq_nil_of_pop? hpop
  refine ⟨hsound, fun s hlt => hlast s hlt ?_ (by simp), hregistry⟩
  rw [hempty]
  exact List.not_mem_nil

/-- A finished graph: every state is connected, and state zero hosts the initial kernel. -/
structure Complete (g : Grammar) (first : FirstTable) (mode : MergeMode) (graph : StateGraph) :
    Prop where
  size_edges : graph.edges.size = graph.kernels.size
  arises : ∀ s < graph.kernels.size, Arises g first mode (graph.kernel s)
  connected : ∀ s < graph.kernels.size, Connected g first mode graph s
  pos : 0 < graph.kernels.size
  initial : Hosts mode (graph.kernel 0) initialKernel

theorem sound_empty : Sound g first mode empty where
  size_edges := rfl
  size_le := Nat.zero_le _
  arises _ hlt := absurd hlt (Nat.not_lt_zero _)
  registered hrow := by cases hrow
  pending_lt _ hmem := by cases hmem
  queue := WorkQueue.valid_empty

/-- The construction starts with the initial state alone, which waits. -/
theorem sound_start : Sound g first mode (empty.created initialKernel) :=
  sound_empty.created .initial (by decide)

/-- The first step of the construction lets the empty graph grow. -/
theorem grows_start : Grows g mode empty (empty.created initialKernel) := by
  have hempty : Sound g (FirstTable.ofGrammar g) mode empty := sound_empty
  exact hempty.grows_created initialKernel

/-- At the start the only state waits. -/
theorem settled_start : Settled g first mode (empty.created initialKernel) none :=
  grows_start.settled fun s hlt => absurd hlt (Nat.not_lt_zero s)

/-- The graph of a grammar is complete. -/
theorem complete_ofGrammar (h : g.Augmented) (hfirst : first.Within g)
    (hrun : ofGrammar g first mode = .ok graph) : graph.Complete g first mode := by
  obtain ⟨final, hsaturate, rfl⟩ := exists_of_ofGrammar hrun
  have hgrows : Grows g mode empty (empty.created initialKernel) := grows_start
  have hpaid : (empty.created initialKernel).pending.size + 0 ≤
    0 + (empty.created initialKernel).weight g := hgrows.paid
  obtain ⟨hsound, hconn, hregistry⟩ :=
    saturate_spec h hfirst sound_start settled_start (by unfold stepBound; omega) hsaturate
  obtain ⟨hpos, hhosts⟩ := hsound.registered (hregistry _ List.mem_cons_self)
  exact ⟨hsound.size_edges, hsound.arises,
    fun s hlt => ⟨(hconn s hlt).symbols, (hconn s hlt).targets⟩, hpos, hhosts⟩

end StateGraph
end ParserGen
