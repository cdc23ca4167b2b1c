import ParserGen.Proofs.Automaton.Kernels
import ParserGen.Proofs.Results

/-!
# Closures are the least closed sets

Item sets are compared by their items and by the lookaheads of these.  A round of the iteration
changes nothing if and only if the set is closed, and a closed set takes in all that a round adds to
a smaller one.  So the set the iteration ends with is the least closed set that includes the one it
begins with, and what a least closed set does under repetition and growth follows.

Main results:

- Theorem `ItemSet.closed_iff_grow_eq`: the closed sets are those that a round leaves alone.
- Theorem `ItemSet.leastClosed_closure`: the closure is the least closed set.
- Theorems `ItemSet.Closed.closure_eq` and `ItemSet.Includes.closure`: closures are idempotent and
  monotone.
- Theorem `ItemSet.closure_is_least`: all this holds of the closures that an automaton is made of,
  and their rounds come to an end.
-/

namespace ParserGen

/-- More lookaheads after a string give more terminals that can begin it. -/
theorem FirstTable.mem_firstWith_of_subset {table : FirstTable} {x : List Symbol}
    {lookaheads more : IdSet} (hsub : ∀ t ∈ lookaheads, t ∈ more) {t : Nat}
    (ht : t ∈ table.firstWith x lookaheads) : t ∈ table.firstWith x more := by
  rw [mem_firstWith] at ht ⊢
  exact ht.imp_right fun hpassed => ⟨hpassed.1, hsub t hpassed.2⟩

namespace ItemSet

variable {g : Grammar} {first : FirstTable} {s u c : ItemSet}

/-! ## Closed sets -/

/-- The set has each rule that one of its items asks for, with the lookaheads it is asked for
with. -/
structure Closed (g : Grammar) (first : FirstTable) (s : ItemSet) : Prop where
  start : ∀ i ∈ s, ∀ r ∈ g.ruleList, ∀ rest, i.rest g = .nonterminal r.left :: rest →
    Item.start r.id ∈ s
  lookaheads : ∀ i ∈ s, ∀ r ∈ g.ruleList, ∀ rest, i.rest g = .nonterminal r.left :: rest →
    ∀ t ∈ first.firstWith rest (s.lookaheads i), t ∈ s.lookaheads (Item.start r.id)

/-- A closed set takes in what a round adds to a set that it includes. -/
theorem Closed.includes_grow (hu : u.Closed g first) (h : g.Keyed) (hsu : u.Includes s) :
    u.Includes (s.grow g first).1 := by
  constructor
  · intro i hi
    rcases (mem_grow h).mp hi with hold | ⟨r, hr, rfl, j, hj, rest, hrest⟩
    · exact hsu.items i hold
    · exact hu.start j (hsu.items j hj) r hr rest hrest
  · intro i t ht
    rcases (mem_lookaheads_grow h).mp ht with hold | ⟨r, hr, rfl, j, hj, rest, hrest, hwith⟩
    · exact hsu.lookaheads i t hold
    · exact hu.lookaheads j (hsu.items j hj) r hr rest hrest t
        (FirstTable.mem_firstWith_of_subset (hsu.lookaheads j) hwith)

/-- The closed sets are those that a round leaves alone. -/
theorem closed_iff_grow_eq (h : g.Keyed) : s.Closed g first ↔ s.grow g first = (s, false) := by
  constructor
  · intro hs
    refine (reportsChanges_grow g first).eq_iff.mpr ?_
    exact (ItemSet.includes_grow h s).antisymm (hs.includes_grow h (.refl s))
  · intro hfixed
    replace hfixed : (s.grow g first).1 = s := congrArg Prod.fst hfixed
    constructor
    · intro i hi r hr rest hrest
      rw [← hfixed]
      exact (mem_grow h).mpr (Or.inr ⟨r, hr, rfl, i, hi, rest, hrest⟩)
    · intro i hi r hr rest hrest t ht
      rw [← hfixed]
      exact (mem_lookaheads_grow h).mpr (Or.inr ⟨r, hr, rfl, i, hi, rest, hrest, ht⟩)

/-! ## The least closed set -/

/-- `c` includes `s` and is closed, and every set that does so includes `c`. -/
structure LeastClosed (g : Grammar) (first : FirstTable) (s c : ItemSet) : Prop where
  includes : c.Includes s
  closed : c.Closed g first
  least : ∀ u : ItemSet, u.Includes s → u.Closed g first → u.Includes c

/-- The closure is the least closed set. -/
theorem leastClosed_closure (h : g.Keyed) (hfirst : first.Within g) (s : ItemSet) :
    LeastClosed g first s (s.closure g first) where
  includes := ⟨(le_closure h s).1, (le_closure h s).2⟩
  closed := (closed_iff_grow_eq h).mpr (grow_closure h hfirst s)
  least u hus hu :=
    iterateWhileChanged_induction (motive := fun x : ItemSet => u.Includes x)
      (fun _ hx => hu.includes_grow h hx) _ hus

/-- The closure of a closed set is the set itself. -/
theorem Closed.closure_eq (hs : s.Closed g first) (h : g.Keyed) (hfirst : first.Within g) :
    s.closure g first = s := by
  have hclosure := leastClosed_closure h hfirst s
  exact hclosure.includes.antisymm (hclosure.least s (.refl s) hs)

/-- A set that includes another one has a closure that includes the closure of the other one. -/
theorem Includes.closure (hsu : u.Includes s) (h : g.Keyed) (hfirst : first.Within g) :
    (u.closure g first).Includes (s.closure g first) := by
  have hu := leastClosed_closure h hfirst u
  exact (leastClosed_closure h hfirst s).least _ (hu.includes.trans hsu) hu.closed

theorem fits_of_mem_closure (h : g.Keyed) (hs : ∀ i ∈ s, i.Fits g) :
    ∀ i ∈ s.closure g first, i.Fits g := by
  intro i hi
  cases (closure_sound h first s).1 i hi with
  | kernel hi => exact hs i hi
  | start _ _ hr => exact ⟨_, hr, rfl, Nat.zero_le _⟩

/-- If the items of a set fit the rules, the rounds come to an end, and the items they have added
fit the rules, too.  They end with the least closed set that includes the set, so closures are
idempotent and monotone. -/
theorem closure_is_least (h : g.Keyed) (hs : ∀ i ∈ s, i.Fits g) :
    let first := FirstTable.ofGrammar g
    Converges (grow g first) s (s.closure g first) ∧ (∀ i ∈ s.closure g first, i.Fits g) ∧
      LeastClosed g first s (s.closure g first) ∧
      (s.closure g first).closure g first = s.closure g first ∧
      ∀ u : ItemSet, u.Includes s → (u.closure g first).Includes (s.closure g first) := by
  intro first
  have hfirst : first.Within g := FirstTable.within_ofGrammar g
  have hleast := leastClosed_closure h hfirst s
  exact ⟨converges_iterateWhileChanged (reportsChanges_grow g first) (grow_closure h hfirst s),
    fits_of_mem_closure h hs, hleast, hleast.closed.closure_eq h hfirst,
    fun _ hsu => hsu.closure h hfirst⟩

/-- Calls of calls, with a mark after each of them that may be missing. -/
def markedCalls : List Declaration :=
  [.terminal "name" none, .terminal "mark" none, .nonterminal "call", .nonterminal "end",
    .rule 1 [.nonterminal 1, .nonterminal 2] none, .rule 1 [.terminal 1] none,
    .rule 2 [.terminal 2] none, .rule 2 [] none]

/-- A call begins with a call, so the first round adds an item that asks for itself, and the second
one gives it more lookaheads. -/
theorem closure_is_least_markedCalls :
    ∃ g, Grammar.define markedCalls = .ok g ∧ g.Keyed ∧
      (∀ i ∈ StateGraph.initialKernel, i.Fits g) ∧
      let first := FirstTable.ofGrammar g
      let closed := StateGraph.initialKernel.closure g first
      (StateGraph.initialKernel.grow g first).1.lookaheads (Item.start 1) ≠
        closed.lookaheads (Item.start 1) ∧
      Converges (grow g first) StateGraph.initialKernel closed ∧ (∀ i ∈ closed, i.Fits g) ∧
      LeastClosed g first StateGraph.initialKernel closed ∧ closed.closure g first = closed ∧
      ∀ u : ItemSet, u.Includes StateGraph.initialKernel →
        (u.closure g first).Includes closed := by
  have hsome : (Grammar.define markedCalls).toOption.any (fun g =>
      let first := FirstTable.ofGrammar g
      decide ((StateGraph.initialKernel.grow g first).1.lookaheads (Item.start 1) ≠
        (StateGraph.initialKernel.closure g first).lookaheads (Item.start 1))) = true := by
    decide +kernel
  obtain ⟨g, hg, hp⟩ := (Option.any_eq_true _ _).mp hsome
  have hg := eq_ok_of_toOption_eq_some hg
  have haugmented := Grammar.augmented_of_define hg
  have hs : ∀ i ∈ StateGraph.initialKernel, i.Fits g := by
    intro i hi
    rw [mem_initialKernel.mp hi]
    exact ⟨_, haugmented.rule_zero_mem, rfl, Nat.zero_le _⟩
  exact ⟨g, hg, haugmented.keyed, hs, of_decide_eq_true hp, closure_is_least haugmented.keyed hs⟩

end ItemSet
end ParserGen
