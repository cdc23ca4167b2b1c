import Mathlib.Data.List.Infix
import Mathlib.Data.List.Nodup
import Mathlib.Data.List.Perm.Subperm
import Mathlib.Logic.Relation
import ParserGen.Proofs.Automaton.Finished

/-!
# The walk through a graph

The states of a graph that can be reached are visited in the order in which they are mentioned: the
initial state is mentioned first, and each state that is visited mentions those that its edges lead
to.  This order is the invariant of the walk.  From it follows that a walk with enough steps visits
no state twice, and with a state also those that its edges lead to.

Main results:

- Theorem `StateGraph.Walking.step`: visiting a state keeps the order.
- Theorem `StateGraph.Walking.discovers`: what is visited is mentioned by what was visited before.
- Theorem `StateGraph.Linked.mentioned_reachable`: what can be reached is what it mentions.
- Theorem `StateGraph.Linked.mem_reachable_iff`: the walk visits what can be reached.
-/

namespace ParserGen

open ItemSet

namespace StateGraph

variable {graph : StateGraph} {visited queue states : List Nat} {seen : IdSet} {steps s t k : Nat}

/-- An edge leads from one state to the other. -/
def Leads (graph : StateGraph) (s t : Nat) : Prop := t ∈ graph.successors s

/-- The states that are mentioned when some states are gone through with their edges: the initial
one, and those that the edges lead to. -/
def mentioned (graph : StateGraph) (states : List Nat) : List Nat :=
  0 :: states.flatMap graph.successors

theorem mentioned_append (states more : List Nat) :
    graph.mentioned (states ++ more) = graph.mentioned states ++ more.flatMap graph.successors := by
  rw [mentioned, mentioned, List.flatMap_append, List.cons_append]

theorem Linked.lt_of_mem_successors (h : graph.Linked) (ht : t ∈ graph.successors s) :
    t < graph.edges.size := by
  obtain ⟨⟨x, _⟩, hedge, rfl⟩ := List.mem_map.mp ht
  rw [h.size_edges]
  exact h.targets hedge

theorem Linked.lt_of_mem_mentioned (h : graph.Linked) (ht : t ∈ graph.mentioned states) :
    t < graph.edges.size := by
  rcases List.mem_cons.mp ht with rfl | ht
  · rw [h.size_edges]
    exact h.pos
  · obtain ⟨s, _, ht⟩ := List.mem_flatMap.mp ht
    exact h.lt_of_mem_successors ht

/-! ## A walk under way -/

/-- What was visited and what waits is what has been mentioned, in this order, and it is what was
seen. -/
structure Walking (graph : StateGraph) (visited : List Nat) (seen : IdSet) (queue : List Nat) :
    Prop where
  order : visited ++ queue = (graph.mentioned visited).eraseDups
  seen_iff : ∀ s, s ∈ seen ↔ s ∈ visited ++ queue

namespace Walking

/-- The walk starts at the initial state. -/
theorem initial (graph : StateGraph) : graph.Walking [] (IdSet.singleton 0) [0] where
  order := by simp [mentioned, List.eraseDups_cons]
  seen_iff s := by simp

/-- There are no more states on the way than the graph has. -/
theorem length_le (h : graph.Walking visited seen queue) (hlinked : graph.Linked) :
    visited.length + queue.length ≤ graph.edges.size := by
  have hnodup : (visited ++ queue).Nodup := h.order ▸ nodup_eraseDups _
  have hrange : visited ++ queue ⊆ List.range graph.edges.size := by
    intro s hs
    rw [h.order, List.mem_eraseDups] at hs
    exact List.mem_range.mpr (hlinked.lt_of_mem_mentioned hs)
  have hle := (List.subperm_of_subset hnodup hrange).length_le
  rwa [List.length_append, List.length_range] at hle

/-- The successors of a state that have not been seen, each of them once. -/
def found (graph : StateGraph) (seen : IdSet) (s : Nat) : List Nat :=
  ((graph.successors s).filter fun t => t < graph.edges.size && !seen.contains t).eraseDups

theorem walk_cons (graph : StateGraph) (steps : Nat) (seen : IdSet) (s : Nat) (queue : List Nat) :
    graph.walk (steps + 1) seen (s :: queue) = s :: graph.walk steps
      (seen ∪ IdSet.ofList (found graph seen s)) (queue ++ found graph seen s) := rfl

/-- What has not been seen has not been mentioned before. -/
theorem found_eq (h : graph.Walking visited seen queue) (hlinked : graph.Linked) (s : Nat) :
    found graph seen s =
      ((graph.successors s).removeAll (graph.mentioned visited)).eraseDups := by
  rw [found, List.removeAll]
  refine congrArg List.eraseDups (List.filter_congr fun t ht => ?_)
  have hseen : seen.contains t = true ↔ t ∈ graph.mentioned visited := by
    rw [← List.mem_eraseDups, ← h.order, ← h.seen_iff]
    rfl
  rw [decide_eq_true (hlinked.lt_of_mem_successors ht), Bool.true_and, Bool.eq_iff_iff]
  simp [← hseen]

/-- Visiting a state makes its successors wait that have not been mentioned. -/
theorem step (h : graph.Walking visited seen (s :: queue)) (hlinked : graph.Linked) :
    graph.Walking (visited ++ [s]) (seen ∪ IdSet.ofList (found graph seen s))
      (queue ++ found graph seen s) where
  order := by
    rw [mentioned_append, List.flatMap_singleton, List.eraseDups_append, ← h.order,
      h.found_eq hlinked]
    simp
  seen_iff t := by
    rw [IdSet.mem_union, IdSet.mem_ofList, h.seen_iff]
    simp [or_assoc]

/-- The states that wait are visited first. -/
theorem queue_prefix (h : graph.Walking visited seen queue) (hlinked : graph.Linked)
    (enough : graph.edges.size ≤ visited.length + steps) :
    queue <+: graph.walk steps seen queue := by
  induction steps generalizing visited seen queue with
  | zero =>
    have hlength := h.length_le hlinked
    rw [List.eq_nil_of_length_eq_zero (l := queue) (by omega)]
    exact List.nil_prefix
  | succ steps ih =>
    cases queue with
    | nil => exact List.nil_prefix
    | cons s queue =>
      have hrest := ih (h.step hlinked) (by simp; omega)
      exact List.cons_prefix_cons.mpr ⟨rfl, (List.prefix_append _ _).trans hrest⟩

/-- The first states of a walk mention those that come next, and if there are more states, the next
one is among them. -/
theorem discovers (h : graph.Walking visited seen queue) (hlinked : graph.Linked)
    (enough : graph.edges.size ≤ visited.length + steps)
    (hk : k ≤ (graph.walk steps seen queue).length) :
    ∃ m ≥ k, (graph.mentioned (visited ++ (graph.walk steps seen queue).take k)).eraseDups =
        visited ++ (graph.walk steps seen queue).take m ∧
      (k < (graph.walk steps seen queue).length → k < m) := by
  induction steps generalizing visited seen queue k with
  | zero =>
    have hlength := h.length_le hlinked
    have hnil : queue = [] := List.eq_nil_of_length_eq_zero (by omega)
    subst hnil
    obtain rfl : k = 0 := Nat.le_zero.mp hk
    exact ⟨0, Nat.le_refl _, by simpa using h.order.symm, fun hlt => absurd hlt (Nat.lt_irrefl _)⟩
  | succ steps ih =>
    cases queue with
    | nil =>
      obtain rfl : k = 0 := Nat.le_zero.mp hk
      exact ⟨0, Nat.le_refl _, by simpa using h.order.symm,
        fun hlt => absurd hlt (Nat.lt_irrefl _)⟩
    | cons s queue =>
      cases k with
      | zero =>
        have hprefix := h.queue_prefix hlinked enough
        refine ⟨(s :: queue).length, Nat.zero_le _, ?_, fun _ => Nat.succ_pos _⟩
        rw [List.take_zero, List.append_nil, ← h.order, ← List.prefix_iff_eq_take.mp hprefix]
      | succ k =>
        rw [walk_cons] at hk ⊢
        obtain ⟨m, hm, heq, hlt⟩ :=
          ih (h.step hlinked) (by simp; omega) (Nat.le_of_succ_le_succ hk)
        refine ⟨m + 1, Nat.succ_le_succ hm, ?_, fun hless => Nat.succ_lt_succ (hlt ?_)⟩
        · simpa using heq
        · exact Nat.lt_of_succ_lt_succ hless

end Walking

/-! ## What can be reached -/

namespace Linked

/-- States are reached in the order of their discovery. -/
theorem discovers_reachable (h : graph.Linked) (hk : k ≤ graph.reachable.length) :
    ∃ m ≥ k, (graph.mentioned (graph.reachable.take k)).eraseDups = graph.reachable.take m ∧
      (k < graph.reachable.length → k < m) :=
  (Walking.initial graph).discovers h (h.size_edges ▸ Nat.le_add_left _ _) hk

/-- The states that can be reached are those that they mention. -/
theorem mentioned_reachable (h : graph.Linked) :
    (graph.mentioned graph.reachable).eraseDups = graph.reachable := by
  obtain ⟨m, hm, hmentioned, _⟩ := h.discovers_reachable (Nat.le_refl _)
  rwa [List.take_length, List.take_of_length_le hm] at hmentioned

theorem nodup_reachable (h : graph.Linked) : graph.reachable.Nodup :=
  h.mentioned_reachable ▸ nodup_eraseDups _

theorem mentioned_subset (h : graph.Linked) (hstates : states ⊆ graph.reachable) :
    graph.mentioned states ⊆ graph.reachable := by
  intro t ht
  rw [← h.mentioned_reachable, List.mem_eraseDups]
  rcases List.mem_cons.mp ht with rfl | ht
  · exact List.mem_cons_self
  · obtain ⟨s, hs, ht⟩ := List.mem_flatMap.mp ht
    exact List.mem_cons_of_mem _ (List.mem_flatMap.mpr ⟨s, hstates hs, ht⟩)

/-- The states that can be reached are closed under edges. -/
theorem mem_reachable (h : graph.Linked) (hs : s ∈ graph.reachable)
    (ht : t ∈ graph.successors s) : t ∈ graph.reachable := by
  rw [← h.mentioned_reachable, List.mem_eraseDups]
  exact List.mem_cons_of_mem _ (List.mem_flatMap.mpr ⟨s, hs, ht⟩)

/-- The walk visits what can be reached from the initial state. -/
theorem mem_reachable_iff (h : graph.Linked) :
    s ∈ graph.reachable ↔ Relation.ReflTransGen graph.Leads 0 s := by
  constructor
  · refine walk_induction (fun s hs t ht _ => hs.tail ht) (fun s hs => ?_) s
    rw [List.mem_singleton.mp hs]
  · intro hreach
    induction hreach with
    | refl => exact List.mem_of_getElem? h.reachable_zero
    | tail _ hleads ih => exact h.mem_reachable ih hleads

end Linked
end StateGraph
end ParserGen
