import Mathlib.Data.Finset.Card
import ParserGen.Fixpoint
import ParserGen.IdSet

/-!
# Saturation of finite fact sets

The rounds of this library all end in the same way: a round adds facts, and the facts come from a
finite universe.  The number of facts is then the measure that bounds the iteration.

Main results:

- Theorem `IdSet.growsBy_iff`: a set has as many members as before only if it is the same.
- Theorem `round_iterateWhileChanged_of_facts`: with a bound above the size of the universe, the
  rounds end with one that changes nothing.
- Theorem `converges_iterateWhileChanged`: if they do, the bound on their number has played no part.
-/

namespace ParserGen

/-- Adding the members of another set gives more members exactly if it gives another set. -/
theorem IdSet.growsBy_iff {s t : IdSet} : s.growsBy t = true ↔ s ∪ t ≠ s := by
  rw [growsBy, bne_iff_ne, ne_eq, not_iff_not]
  constructor
  · intro hsize
    have hnodup : ∀ u : IdSet, u.toList.Nodup := fun u =>
      u.pairwise_toList.imp Nat.ne_of_lt
    have hsubset : s.toList.toFinset ⊆ (s ∪ t).toList.toFinset := by
      intro i
      simp +contextual
    have hcard : (s ∪ t).toList.toFinset.card ≤ s.toList.toFinset.card := by
      rw [List.toFinset_card_of_nodup (hnodup _), List.toFinset_card_of_nodup (hnodup _)]
      exact hsize.le
    ext i
    rw [← mem_toList, ← mem_toList, ← List.mem_toFinset, ← List.mem_toFinset,
      Finset.eq_of_subset_of_card_le hsubset hcard]
  · intro hsame
    rw [hsame]

/-- Repeating a round from `x` ends, and it ends with `y`: every round reports and makes a change,
but for the last one, which does neither. -/
inductive Converges {α : Type} (round : α → α × Bool) : α → α → Prop
  | unchanged {x : α} : round x = (x, false) → Converges round x x
  | changed {x y z : α} : round x = (y, true) → y ≠ x → Converges round y z → Converges round x z

variable {α φ : Type} {round : α → α × Bool}

/-- An iteration whose every change adds a fact from a finite universe ends in a fixed point. -/
theorem round_iterateWhileChanged_of_facts (reports : ReportsChanges round) {motive : α → Prop}
    (facts : α → Finset φ) (possible : Finset φ) (keep : ∀ x, motive x → motive (round x).1)
    (grow : ∀ x, motive x → (round x).1 ≠ x → facts x ⊂ facts (round x).1)
    (within : ∀ x, facts x ⊆ possible) {bound : Nat} (enough : possible.card < bound)
    {x : α} (start : motive x) :
    round (iterateWhileChanged round bound x) = (iterateWhileChanged round bound x, false) := by
  have hgrow : ∀ x, motive x → (round x).1 ≠ x → (facts x).card < (facts (round x).1).card :=
    fun x hx hne => Finset.card_lt_card (grow x hx hne)
  have hwithin : ∀ x, motive x → (facts x).card ≤ possible.card :=
    fun x _ => Finset.card_le_card (within x)
  exact round_iterateWhileChanged reports keep hgrow hwithin bound start (by omega)

/-- An iteration with a bound that ends in a fixed point is one without a bound. -/
theorem converges_iterateWhileChanged (reports : ReportsChanges round) {bound : Nat} {x : α}
    (h : round (iterateWhileChanged round bound x) = (iterateWhileChanged round bound x, false)) :
    Converges round x (iterateWhileChanged round bound x) := by
  induction bound generalizing x with
  | zero => exact .unchanged h
  | succ bound ih =>
    have hreport := reports x
    simp only [iterateWhileChanged] at h ⊢
    split at h <;> rename_i y hround <;> rw [hround] at hreport
    · exact .changed hround (hreport.mp rfl) (ih h)
    · obtain rfl : y = x := by simpa using hreport
      exact .unchanged hround

end ParserGen
