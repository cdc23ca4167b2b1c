import ParserGen.Automaton.Merging
import ParserGen.Proofs.Automaton.Closure
import ParserGen.Proofs.Repetitions

/-!
# Transitions of closed item sets

Reading a symbol moves the marker of each item that stands before it.  What is read there does not
depend on lookaheads, so kernels with the same core have the same transitions up to lookaheads, and
more lookaheads before a symbol give more lookaheads after it.

Main results:

- Theorems `ItemSet.mem_advanceOver` and `ItemSet.mem_lookaheads_advanceOver`: what is after a
  symbol.
- Theorem `ItemSet.core_successor`: the core of a successor depends on the core only.
- Theorem `ItemSet.Extends.successor`: successors are monotone in the lookaheads.
-/

namespace ParserGen
namespace Item

@[simp]
theorem advance_inj {i j : Item} : i.advance = j.advance ↔ i = j := by
  cases i
  cases j
  simp [advance]

@[simp]
theorem advance_ne_start (i : Item) (r : Nat) : i.advance ≠ Item.start r := by
  simp [advance, start]

/-- The symbol after a marker is the first of those after it. -/
theorem next?_eq_some_iff {g : Grammar} {i : Item} {x : Symbol} :
    i.next? g = some x ↔ ∃ rest, i.rest g = x :: rest := by
  rw [next?, List.head?_eq_some_iff]

/-- Moving the marker drops the symbol it moves over. -/
theorem rest_advance (g : Grammar) (i : Item) : i.advance.rest g = (i.rest g).tail := by
  unfold rest advance
  cases g.rules[i.rule]? <;> simp

/-- The symbols after the marker are the next one and those after it. -/
theorem rest_eq_cons_iff {g : Grammar} {i : Item} {x : Symbol} {rest : List Symbol} :
    i.rest g = x :: rest ↔ i.next? g = some x ∧ i.advance.rest g = rest := by
  rw [rest_advance, next?]
  cases i.rest g <;> simp

end Item

namespace ItemSet

variable {g : Grammar} {first : FirstTable}

/-! ## Cores -/

/-- The core of a set tells which items are in it, and nothing else. -/
theorem core_eq_iff {s t : ItemSet} : s.core = t.core ↔ ∀ i, i ∈ s ↔ i ∈ t := by
  constructor
  · intro h i
    rw [← mem_core, h, mem_core]
  · intro h
    have hbare : s.map (fun _ _ => ()) = t.map (fun _ _ => ()) := by
      refine Std.ExtTreeMap.ext_getElem? fun i => ?_
      have hi := h i
      simp only [mem_iff_isSome] at hi
      rw [Std.ExtTreeMap.getElem?_map, Std.ExtTreeMap.getElem?_map]
      cases hs : s[i]? <;> cases ht : t[i]? <;> simp_all
    have hkeys := congrArg Std.ExtTreeMap.keys hbare
    rwa [Std.ExtTreeMap.keys_map, Std.ExtTreeMap.keys_map] at hkeys

/-- `big` has the items of `small`, each with the lookaheads of `small` and maybe more. -/
structure Extends (big small : ItemSet) : Prop where
  core : big.core = small.core
  lookaheads : ∀ i t, t ∈ small.lookaheads i → t ∈ big.lookaheads i

theorem Extends.refl (s : ItemSet) : s.Extends s := ⟨rfl, fun _ _ ht => ht⟩

theorem Extends.trans {s t u : ItemSet} (h : s.Extends t) (h' : t.Extends u) : s.Extends u :=
  ⟨h.core.trans h'.core, fun i a ha => h.lookaheads i a (h'.lookaheads i a ha)⟩

/-- A set that extends another one has the same items. -/
theorem Extends.mem_iff {big small : ItemSet} (h : big.Extends small) {i : Item} :
    i ∈ big ↔ i ∈ small :=
  core_eq_iff.mp h.core i

/-- What the merge modes test is that one set extends the other one. -/
theorem subsumes_iff {s t : ItemSet} : s.subsumes t = true ↔ s.Extends t := by
  simp only [subsumes, Bool.and_eq_true, beq_iff_eq, List.all_eq_true, IdSet.includes_iff]
  constructor
  · rintro ⟨hcore, hall⟩
    exact ⟨hcore, fun i a ha => hall i (mem_core.mpr (mem_of_mem_lookaheads ha)) a ha⟩
  · intro h
    exact ⟨h.core, fun i _ a ha => h.lookaheads i a ha⟩

/-- Kernels with the same core have a union that extends both. -/
theorem extends_join {s t : ItemSet} (h : s.core = t.core) :
    (s.join t).Extends s ∧ (s.join t).Extends t := by
  have hitems := core_eq_iff.mp h
  constructor
  · refine ⟨core_eq_iff.mpr fun i => ?_, fun i a ha => ?_⟩
    · rw [mem_join, hitems i, or_self]
    · rw [lookaheads_join]
      exact IdSet.mem_union.mpr (Or.inl ha)
  · refine ⟨core_eq_iff.mpr fun i => ?_, fun i a ha => ?_⟩
    · rw [mem_join, hitems i, or_self]
    · rw [lookaheads_join]
      exact IdSet.mem_union.mpr (Or.inr ha)

/-! ## The next symbols -/

/-- The next symbols are those after the markers. -/
theorem mem_nextSymbols {s : ItemSet} {x : Symbol} :
    x ∈ s.nextSymbols g ↔ ∃ i ∈ s, i.next? g = some x := by
  simp only [nextSymbols, List.mem_eraseDups, List.mem_filterMap, mem_core]

/-- Each of the next symbols is listed once. -/
theorem nodup_nextSymbols (s : ItemSet) : (s.nextSymbols g).Nodup := nodup_eraseDups _

/-- The item that `i` becomes when `x` is read, with its lookaheads. -/
def advanceRow? (g : Grammar) (x : Symbol) (row : Item × IdSet) : Option (Item × IdSet) :=
  if row.1.next? g = some x then some (row.1.advance, row.2) else none

/-- A row is advanced over the symbol after its marker, and keeps its lookaheads. -/
theorem advanceRow?_eq_some_iff {x : Symbol} {row new : Item × IdSet} :
    advanceRow? g x row = some new ↔ row.1.next? g = some x ∧ (row.1.advance, row.2) = new := by
  unfold advanceRow?
  split <;> simp_all

theorem advanceOver_eq_insertAll (s : ItemSet) (x : Symbol) :
    s.advanceOver g x = insertAll (advanceRow? g x) s.toList ∅ := by
  unfold advanceOver insertAll
  congr 1
  funext items row
  unfold advanceRow?
  split <;> rfl

/-- An item that is advanced keeps its lookaheads. -/
theorem getElem?_advanceOver_advance {s : ItemSet} {x : Symbol} {i : Item} (hi : i ∈ s)
    (hx : i.next? g = some x) : (s.advanceOver g x)[i.advance]? = some (s.lookaheads i) := by
  rw [advanceOver_eq_insertAll]
  refine getElem?_insertAll_of_mem (a := (i, s.lookaheads i)) (mem_toList_iff.mpr ⟨hi, rfl⟩)
    (advanceRow?_eq_some_iff.mpr ⟨hx, rfl⟩) ?_
  intro row hrow new hnew hi'
  obtain ⟨_, rfl⟩ := advanceRow?_eq_some_iff.mp hnew
  rw [Item.advance_inj] at hi'
  rw [← hi']
  exact (mem_toList_iff.mp hrow).2

/-- After a symbol are the items that stood before it. -/
theorem mem_advanceOver {s : ItemSet} {x : Symbol} {j : Item} :
    j ∈ s.advanceOver g x ↔ ∃ i ∈ s, i.next? g = some x ∧ j = i.advance := by
  constructor
  · intro hj
    by_contra hnone
    have hne : ∀ row ∈ s.toList, ∀ new, advanceRow? g x row = some new → new.1 ≠ j := by
      intro row hrow new hnew heq
      obtain ⟨hx, rfl⟩ := advanceRow?_eq_some_iff.mp hnew
      exact hnone ⟨row.1, (mem_toList_iff.mp hrow).1, hx, heq.symm⟩
    rw [mem_iff_isSome, advanceOver_eq_insertAll, getElem?_insertAll_of_forall_ne hne] at hj
    simp at hj
  · rintro ⟨i, hi, hx, rfl⟩
    rw [mem_iff_isSome, getElem?_advanceOver_advance hi hx]
    rfl

/-- An item keeps its lookaheads when its marker moves. -/
theorem mem_lookaheads_advanceOver {s : ItemSet} {x : Symbol} {j : Item} {t : Nat} :
    t ∈ (s.advanceOver g x).lookaheads j ↔
      ∃ i, i.next? g = some x ∧ j = i.advance ∧ t ∈ s.lookaheads i := by
  constructor
  · intro ht
    obtain ⟨i, hi, hx, rfl⟩ := mem_advanceOver.mp (mem_of_mem_lookaheads ht)
    rw [lookaheads_eq, getElem?_advanceOver_advance hi hx] at ht
    exact ⟨i, hx, rfl, ht⟩
  · rintro ⟨i, hx, rfl, ht⟩
    rw [lookaheads_eq, getElem?_advanceOver_advance (mem_of_mem_lookaheads ht) hx]
    exact ht

/-! ## Successors of kernels -/

/-- The kernel that reading `x` leads to from a kernel. -/
def successor (g : Grammar) (first : FirstTable) (kernel : ItemSet) (x : Symbol) : ItemSet :=
  (kernel.closure g first).advanceOver g x

/-- The transitions of a closure lead to the successors of the set. -/
theorem transitions_closure (s : ItemSet) :
    (s.closure g first).transitions g =
      ((s.closure g first).nextSymbols g).map fun x => (x, s.successor g first x) := rfl

/-- The items of a closure depend on the items only, not on the lookaheads. -/
theorem closureItem_of_core_eq {s t : ItemSet} (h : s.core = t.core) {i : Item}
    (hi : ClosureItem g s i) : ClosureItem g t i := by
  induction hi with
  | kernel hi => exact .kernel ((core_eq_iff.mp h _).mp hi)
  | start _ hrest hr ih => exact .start ih hrest hr

/-- Which items a closure has depends on the core only. -/
theorem core_closure (h : g.Keyed) (hfirst : first.Within g) {s t : ItemSet}
    (hst : s.core = t.core) : (s.closure g first).core = (t.closure g first).core := by
  refine core_eq_iff.mpr fun i => ?_
  rw [mem_closure h hfirst, mem_closure h hfirst]
  exact ⟨closureItem_of_core_eq hst, closureItem_of_core_eq hst.symm⟩

/-- Which items a successor has depends on the core only. -/
theorem core_successor (h : g.Keyed) (hfirst : first.Within g) {s t : ItemSet}
    (hst : s.core = t.core) (x : Symbol) :
    (s.successor g first x).core = (t.successor g first x).core := by
  have hclosure := core_eq_iff.mp (core_closure h hfirst hst)
  refine core_eq_iff.mpr fun i => ?_
  simp only [successor, mem_advanceOver, hclosure]

/-- Sets with the same items have closures with the same symbols after their markers. -/
theorem nextSymbols_closure_of_core_eq (h : g.Keyed) (hfirst : first.Within g) {s t : ItemSet}
    (hst : s.core = t.core) :
    (s.closure g first).nextSymbols g = (t.closure g first).nextSymbols g := by
  unfold nextSymbols
  rw [core_closure h hfirst hst]

/-- More lookaheads in a kernel give more lookaheads in its closure. -/
theorem Extends.closure (h : g.Keyed) (hfirst : first.Within g) {big small : ItemSet}
    (hext : big.Extends small) : (big.closure g first).Extends (small.closure g first) := by
  refine ⟨core_closure h hfirst hext.core, fun i t ht => ?_⟩
  rw [mem_lookaheads_closure h hfirst] at ht ⊢
  induction ht with
  | kernel ht => exact .kernel (hext.lookaheads _ _ ht)
  | begins hi hrest hr hbegins =>
    exact .begins (closureItem_of_core_eq hext.core.symm hi) hrest hr hbegins
  | passed _ hrest hr hnullable ih => exact .passed ih hrest hr hnullable

/-- More lookaheads in a kernel give more lookaheads in its successors. -/
theorem Extends.successor (h : g.Keyed) (hfirst : first.Within g) {big small : ItemSet}
    (hext : big.Extends small) (x : Symbol) :
    (big.successor g first x).Extends (small.successor g first x) := by
  refine ⟨core_successor h hfirst hext.core x, fun j t ht => ?_⟩
  obtain ⟨i, hx, rfl, hi⟩ := mem_lookaheads_advanceOver.mp ht
  have hmore := (hext.closure h hfirst).lookaheads i t hi
  exact mem_lookaheads_advanceOver.mpr ⟨i, hx, rfl, hmore⟩

end ItemSet
end ParserGen
