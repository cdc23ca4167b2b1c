import ParserGen.Proofs.Automaton.Compatibility
import ParserGen.Proofs.Automaton.LeastClosure

/-!
# Closures and transitions of unions

When a state takes in a kernel, the closure of the union is not computed from the closures of the
parts.  It could be: what an item asks for with the lookaheads of two sets, it asks for with those
of one of the sets, or with no lookahead at all.  So the union of closed sets is closed, and the
closure of a union, as the least closed set, is the union of the closures.  Reading a symbol looks
at one item at a time.

Main results:

- Theorem `ItemSet.Closed.join`: the union of closed sets is closed.
- Theorem `ItemSet.closure_join`: the closure of a union is the union of the closures.
- Theorem `ItemSet.advanceOver_join`: so it is with what comes after a symbol.
- Theorem `ItemSet.transitions_closure_join`: kernels with the same core have transitions for the
  same symbols, and those of the union lead to the unions.
-/

namespace ParserGen
namespace ItemSet

variable {g : Grammar} {first : FirstTable} {s u : ItemSet} {x : Symbol}

/-! ## Closures -/

theorem join_includes_left (s u : ItemSet) : (s.join u).Includes s :=
  ⟨fun _ hi => mem_join.mpr (Or.inl hi), fun i t ht => by simp [ht]⟩

theorem join_includes_right (s u : ItemSet) : (s.join u).Includes u :=
  ⟨fun _ hi => mem_join.mpr (Or.inr hi), fun i t ht => by simp [ht]⟩

/-- A set that includes both parts includes the union. -/
theorem Includes.join {c : ItemSet} (hs : c.Includes s) (hu : c.Includes u) :
    c.Includes (s.join u) := by
  constructor
  · intro i hi
    exact (mem_join.mp hi).elim (hs.items i) (hu.items i)
  · intro i t ht
    rw [lookaheads_join, IdSet.mem_union] at ht
    exact ht.elim (hs.lookaheads i t) (hu.lookaheads i t)

/-- What can follow a symbol in a union can follow it in one of the parts. -/
theorem exists_mem_firstWith_of_join {i : Item} {rest : List Symbol} {t : Nat}
    (hi : i ∈ s.join u) (ht : t ∈ first.firstWith rest ((s.join u).lookaheads i)) :
    i ∈ s ∧ t ∈ first.firstWith rest (s.lookaheads i) ∨
      i ∈ u ∧ t ∈ first.firstWith rest (u.lookaheads i) := by
  simp only [FirstTable.mem_firstWith, lookaheads_join, IdSet.mem_union] at ht ⊢
  -- What begins the string needs no lookahead, so any part that has the item will do for it.
  rcases ht with hbegins | ⟨hnullable, hs | hu⟩
  · exact (mem_join.mp hi).imp (fun hi => ⟨hi, Or.inl hbegins⟩) fun hi => ⟨hi, Or.inl hbegins⟩
  · exact Or.inl ⟨mem_of_mem_lookaheads hs, Or.inr ⟨hnullable, hs⟩⟩
  · exact Or.inr ⟨mem_of_mem_lookaheads hu, Or.inr ⟨hnullable, hu⟩⟩

/-- The union of closed sets is closed. -/
theorem Closed.join (hs : s.Closed g first) (hu : u.Closed g first) :
    (s.join u).Closed g first := by
  constructor
  · intro i hi r hr rest hrest
    rcases mem_join.mp hi with hi | hi
    · exact (join_includes_left s u).items _ (hs.start i hi r hr rest hrest)
    · exact (join_includes_right s u).items _ (hu.start i hi r hr rest hrest)
  · intro i hi r hr rest hrest t ht
    rcases exists_mem_firstWith_of_join hi ht with ⟨hi, ht⟩ | ⟨hi, ht⟩
    · exact (join_includes_left s u).lookaheads _ t (hs.lookaheads i hi r hr rest hrest t ht)
    · exact (join_includes_right s u).lookaheads _ t (hu.lookaheads i hi r hr rest hrest t ht)

/-- The closure of a union is the union of the closures. -/
theorem closure_join (h : g.Keyed) (hfirst : first.Within g) (s u : ItemSet) :
    (s.join u).closure g first = (s.closure g first).join (u.closure g first) := by
  have hs := leastClosed_closure h hfirst s
  have hu := leastClosed_closure h hfirst u
  refine Includes.antisymm ?_ ?_
  · have hleft := (join_includes_left s u).closure h hfirst
    exact hleft.join ((join_includes_right s u).closure h hfirst)
  · refine (leastClosed_closure h hfirst (s.join u)).least _ ?_ (hs.closed.join hu.closed)
    have hleft := (join_includes_left _ (u.closure g first)).trans hs.includes
    exact hleft.join ((join_includes_right (s.closure g first) _).trans hu.includes)

/-! ## Transitions -/

/-- What comes after a symbol in a union is the union of what comes after it in the parts. -/
theorem advanceOver_join (s u : ItemSet) (x : Symbol) :
    (s.join u).advanceOver g x = (s.advanceOver g x).join (u.advanceOver g x) := by
  refine ext_lookaheads (fun j => ?_) fun j => ?_
  · simp only [mem_advanceOver, mem_join, or_and_right, exists_or]
  · ext t
    simp only [lookaheads_join, IdSet.mem_union, mem_lookaheads_advanceOver, and_or_left,
      exists_or]

/-- A symbol that stands after no marker has no transition. -/
theorem lookup_transitions_eq_none (hx : x ∉ s.nextSymbols g) :
    (s.transitions g).lookup x = none := by
  refine List.lookup_eq_none_iff.mpr fun row hrow => ?_
  obtain ⟨y, hy, rfl⟩ := List.mem_map.mp hrow
  simpa using fun heq : x = y => hx (heq ▸ hy)

theorem mem_nextSymbols_join :
    x ∈ (s.join u).nextSymbols g ↔ x ∈ s.nextSymbols g ∨ x ∈ u.nextSymbols g := by
  simp only [mem_nextSymbols, mem_join, or_and_right, exists_or]

/-- If two kernels have the same core, the closure of their union is the union of their closures.
No symbol has a transition in one of these closures only, and where a symbol leads to is, for the
union, the union of where it leads to for the kernels. -/
theorem transitions_closure_join (h : g.Keyed) (hcore : s.core = u.core) :
    let first := FirstTable.ofGrammar g
    (s.join u).closure g first = (s.closure g first).join (u.closure g first) ∧
      ∀ x,
        (((s.join u).closure g first).transitions g).lookup x = none ∧
            ((s.closure g first).transitions g).lookup x = none ∧
            ((u.closure g first).transitions g).lookup x = none ∨
          ∃ k k', ((s.closure g first).transitions g).lookup x = some k ∧
            ((u.closure g first).transitions g).lookup x = some k' ∧
            (((s.join u).closure g first).transitions g).lookup x = some (k.join k') := by
  intro first
  have hfirst : first.Within g := FirstTable.within_ofGrammar g
  have hclosure := closure_join h hfirst s u
  have hsame : (s.closure g first).nextSymbols g = (u.closure g first).nextSymbols g := by
    unfold nextSymbols
    rw [core_closure h hfirst hcore]
  refine ⟨hclosure, fun x => ?_⟩
  rw [hclosure]
  by_cases hx : x ∈ (s.closure g first).nextSymbols g
  · refine Or.inr ⟨_, _, lookup_transitions _ hx, lookup_transitions _ (hsame ▸ hx), ?_⟩
    rw [lookup_transitions _ (mem_nextSymbols_join.mpr (Or.inl hx)), advanceOver_join]
  · have hjoin : x ∉ ((s.closure g first).join (u.closure g first)).nextSymbols g := by
      rwa [mem_nextSymbols_join, ← hsame, or_self]
    exact Or.inl ⟨lookup_transitions_eq_none hjoin, lookup_transitions_eq_none hx,
      lookup_transitions_eq_none (hsame ▸ hx)⟩

set_option maxRecDepth 100000 in
/-- After the first mark of a list the two places have the same items with different lookaheads. -/
theorem transitions_closure_join_endsOfLists :
    ∃ g, Grammar.define endsOfLists = .ok g ∧ g.Keyed ∧ afterFirst.core = afterSecond.core ∧
      afterFirst ≠ afterSecond ∧
      let first := FirstTable.ofGrammar g
      (afterFirst.join afterSecond).closure g first =
          (afterFirst.closure g first).join (afterSecond.closure g first) ∧
        ∀ x,
          (((afterFirst.join afterSecond).closure g first).transitions g).lookup x = none ∧
              ((afterFirst.closure g first).transitions g).lookup x = none ∧
              ((afterSecond.closure g first).transitions g).lookup x = none ∨
            ∃ k k', ((afterFirst.closure g first).transitions g).lookup x = some k ∧
              ((afterSecond.closure g first).transitions g).lookup x = some k' ∧
              (((afterFirst.join afterSecond).closure g first).transitions g).lookup x =
                some (k.join k') := by
  obtain ⟨g, hg⟩ : ∃ g, Grammar.define endsOfLists = .ok g := by
    have hsome : (Grammar.define endsOfLists).toOption.isSome = true := by
      decide +kernel
    obtain ⟨g, hg⟩ := Option.isSome_iff_exists.mp hsome
    exact ⟨g, eq_ok_of_toOption_eq_some hg⟩
  have hkeyed := (Grammar.augmented_of_define hg).keyed
  have hcore : afterFirst.core = afterSecond.core := by
    decide +kernel
  have hne : afterFirst ≠ afterSecond := by
    decide +kernel
  exact ⟨g, hg, hkeyed, hcore, hne, transitions_closure_join hkeyed hcore⟩

end ItemSet
end ParserGen
