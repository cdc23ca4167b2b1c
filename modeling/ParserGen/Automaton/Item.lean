import Std.Data.ExtTreeMap
import ParserGen.Fixpoint
import ParserGen.Grammar.Basic
import ParserGen.IdSet

/-!
# Items and item sets

An item is a rule with a marker in its right-hand side.  An item set gives each of its items a set
of lookaheads; item sets that do so alike are equal.
-/

namespace ParserGen

/-- A rule of which the first `marker` symbols have been recognised. -/
structure Item where
  rule : Nat
  marker : Nat
deriving DecidableEq, Repr

namespace Item

/-- Items are ordered by their rules, then by their markers. -/
instance : Ord Item where
  compare i j := (compare i.rule j.rule).then (compare i.marker j.marker)

theorem compare_eq (i j : Item) :
    compare i j = (compare i.rule j.rule).then (compare i.marker j.marker) := rfl

instance : Std.LawfulEqOrd Item where
  compare_self := by
    intro i
    simp [compare_eq]
  eq_of_compare := by
    intro i j h
    rw [compare_eq, Ordering.then_eq_eq] at h
    cases i
    cases j
    simp_all

instance : Std.TransOrd Item where
  eq_swap := by
    intro i j
    rw [compare_eq, compare_eq, Ordering.swap_then, ← Std.OrientedOrd.eq_swap,
      ← Std.OrientedOrd.eq_swap]
  isLE_trans := by
    intro i j k hij hjk
    simp only [compare_eq, Ordering.isLE_then_iff_or, Nat.compare_eq_lt, Nat.isLE_compare,
      Nat.compare_eq_eq] at hij hjk ⊢
    omega

/-- The item that starts a rule. -/
def start (rule : Nat) : Item := ⟨rule, 0⟩

/-- The item with the marker moved over one symbol. -/
def advance (i : Item) : Item := ⟨i.rule, i.marker + 1⟩

/-- The symbols after the marker. -/
def rest (g : Grammar) (i : Item) : List Symbol :=
  match g.rules[i.rule]? with
  | some r => r.right.drop i.marker
  | none => []

/-- The symbol after the marker. -/
def next? (g : Grammar) (i : Item) : Option Symbol := (i.rest g).head?

/-- Whether the whole right-hand side has been recognised. -/
def isComplete (g : Grammar) (i : Item) : Bool :=
  match g.rules[i.rule]? with
  | some r => r.right.length ≤ i.marker
  | none => false

/-- Kernel items are those of the augmented rule and those whose marker has moved. -/
def isKernel (i : Item) : Bool := i.marker > 0 || i.rule == augmentedRule

end Item

/-- Items with their lookaheads. -/
abbrev ItemSet := Std.ExtTreeMap Item IdSet

namespace ItemSet

/-- The items of a set, in ascending order. -/
def core (s : ItemSet) : List Item := s.keys

/-- The lookaheads of an item; none if the item is not in the set. -/
def lookaheads (s : ItemSet) (i : Item) : IdSet := s.getD i ∅

/-- The set that has one row for each item; the last row of a repeated item counts. -/
def ofRows (rows : List (Item × IdSet)) : ItemSet :=
  rows.foldl (fun s row => s.insert row.1 row.2) ∅

/-- Add `lookaheads` to those of an item, which may be new. -/
def addLookaheads (s : ItemSet) (i : Item) (lookaheads : IdSet) : ItemSet :=
  s.alter i fun old => some (old.getD ∅ ∪ lookaheads)

/-- The union of two item sets, item by item. -/
def join (s t : ItemSet) : ItemSet :=
  t.toList.foldl (fun s row => s.addLookaheads row.1 row.2) s

/-- All lookaheads that occur in a set. -/
def allLookaheads (s : ItemSet) : IdSet :=
  s.foldl (fun all _ lookaheads => all ∪ lookaheads) ∅

/-- The rows of the kernel items. -/
def kernelRows (s : ItemSet) : List (Item × IdSet) :=
  s.toList.filter (·.1.isKernel)

/-! ## Lookaheads and items of a union -/

theorem lookaheads_eq (s : ItemSet) (i : Item) : s.lookaheads i = s[i]?.getD ∅ :=
  Std.ExtTreeMap.getD_eq_getD_getElem?

theorem mem_core {s : ItemSet} {i : Item} : i ∈ s.core ↔ i ∈ s :=
  Std.ExtTreeMap.mem_keys

theorem mem_addLookaheads {s : ItemSet} {i j : Item} {lookaheads : IdSet} :
    j ∈ s.addLookaheads i lookaheads ↔ j = i ∨ j ∈ s := by
  simp only [addLookaheads, ← Std.ExtTreeMap.isSome_getElem?_iff_mem,
    Std.ExtTreeMap.getElem?_alter]
  split
  · rename_i h
    have := Std.LawfulEqOrd.eq_of_compare h
    simp [this]
  · rename_i h
    have : j ≠ i := fun heq => h (by simp [heq])
    simp [this]

theorem mem_lookaheads_addLookaheads {s : ItemSet} {i j : Item} {lookaheads : IdSet} {t : Nat} :
    t ∈ (s.addLookaheads i lookaheads).lookaheads j ↔
      t ∈ s.lookaheads j ∨ j = i ∧ t ∈ lookaheads := by
  simp only [lookaheads_eq, addLookaheads, Std.ExtTreeMap.getElem?_alter]
  split
  · rename_i h
    have := Std.LawfulEqOrd.eq_of_compare h
    simp [this]
  · rename_i h
    have : j ≠ i := fun heq => h (by simp [heq])
    simp [this]

theorem mem_foldl_addLookaheads {rows : List (Item × IdSet)} {s : ItemSet} {i : Item} :
    i ∈ rows.foldl (fun s row => s.addLookaheads row.1 row.2) s ↔
      i ∈ s ∨ ∃ row ∈ rows, row.1 = i := by
  refine foldl_iff (motive := (i ∈ ·)) (fun s row => ?_) rows s
  rw [mem_addLookaheads, eq_comm, or_comm]

theorem mem_lookaheads_foldl_addLookaheads {rows : List (Item × IdSet)} {s : ItemSet} {i : Item}
    {t : Nat} :
    t ∈ (rows.foldl (fun s row => s.addLookaheads row.1 row.2) s).lookaheads i ↔
      t ∈ s.lookaheads i ∨ ∃ row ∈ rows, row.1 = i ∧ t ∈ row.2 := by
  refine foldl_iff (motive := fun s => t ∈ s.lookaheads i) (fun s row => ?_) rows s
  rw [mem_lookaheads_addLookaheads, eq_comm]

/-- A union has the items of both sets. -/
@[simp]
theorem mem_join {s t : ItemSet} {i : Item} : i ∈ s.join t ↔ i ∈ s ∨ i ∈ t := by
  simp only [join, mem_foldl_addLookaheads]
  constructor
  · rintro (h | ⟨row, hrow, rfl⟩)
    · exact Or.inl h
    · have := Std.ExtTreeMap.mem_toList_iff_getElem?_eq_some.mp hrow
      exact Or.inr (Std.ExtTreeMap.isSome_getElem?_iff_mem.mp (by simp [this]))
  · rintro (h | h)
    · exact Or.inl h
    · refine Or.inr ⟨(i, t[i]), ?_, rfl⟩
      exact Std.ExtTreeMap.mem_toList_iff_getElem?_eq_some.mpr
        (Std.ExtTreeMap.getElem?_eq_some_getElem h)

/-- In a union, an item has the lookaheads that it has in both sets. -/
@[simp]
theorem lookaheads_join {s t : ItemSet} {i : Item} :
    (s.join t).lookaheads i = s.lookaheads i ∪ t.lookaheads i := by
  ext a
  simp only [join, mem_lookaheads_foldl_addLookaheads, IdSet.mem_union]
  refine or_congr Iff.rfl ?_
  rw [lookaheads_eq t]
  constructor
  · rintro ⟨row, hrow, rfl, ha⟩
    have := Std.ExtTreeMap.mem_toList_iff_getElem?_eq_some.mp hrow
    simpa [this] using ha
  · intro ha
    cases h : t[i]? with
    | none => simp [h] at ha
    | some lookaheads =>
      refine ⟨(i, lookaheads), Std.ExtTreeMap.mem_toList_iff_getElem?_eq_some.mpr h, rfl, ?_⟩
      simpa [h] using ha

/-- Item sets with the same items and the same lookaheads are equal. -/
theorem ext_lookaheads {s t : ItemSet} (items : ∀ i, i ∈ s ↔ i ∈ t)
    (lookaheads : ∀ i, s.lookaheads i = t.lookaheads i) : s = t := by
  refine Std.ExtTreeMap.ext_getElem? fun i => ?_
  have hl := lookaheads i
  have hi := items i
  simp only [lookaheads_eq, ← Std.ExtTreeMap.isSome_getElem?_iff_mem] at hl hi
  cases hs : s[i]? <;> cases ht : t[i]? <;> simp_all

end ItemSet
end ParserGen
