import Mathlib.Data.Finset.Card
import Mathlib.Logic.Relation

/-!
# Relations without cycles

If a relation has no cycle and leads into a finite set only, the number of members that can be
reached goes down with each step.  A recursion along the relation therefore ends, and after fewer
steps than the set has members.

Main results:

- Theorem `height_lt_height`: the height goes down with each step.
- Theorem `height_lt_card`: the height of a member is less than the number of members.
- Theorem `Acyclic.add_edge`: an edge closes no cycle if its source cannot be reached from its
  target.
- Theorem `Acyclic.add_source`: neither do edges from a point that none leads to.
-/

namespace ParserGen

variable {α : Type} {E : α → α → Prop} {F : Finset α} {x y : α}

/-- No steps lead from a point back to it. -/
def Acyclic (E : α → α → Prop) : Prop := ∀ x, ¬ Relation.TransGen E x x

open Classical in
/-- The number of members of `F` that steps lead to. -/
noncomputable def height (E : α → α → Prop) (F : Finset α) (x : α) : Nat :=
  (F.filter (Relation.TransGen E x)).card

/-- Each step leads to where less can be reached. -/
theorem height_lt_height (hacyclic : Acyclic E) (hF : ∀ x y, E x y → y ∈ F) (hxy : E x y) :
    height E F y < height E F x := by
  classical
  refine Finset.card_lt_card ((Finset.ssubset_iff_of_subset ?_).mpr ⟨y, ?_, ?_⟩)
  · intro z hz
    rw [Finset.mem_filter] at hz ⊢
    exact ⟨hz.1, Relation.TransGen.head hxy hz.2⟩
  · exact Finset.mem_filter.mpr ⟨hF x y hxy, Relation.TransGen.single hxy⟩
  · intro hy
    exact hacyclic y (Finset.mem_filter.mp hy).2

theorem height_le_card (E : α → α → Prop) (F : Finset α) (x : α) : height E F x ≤ F.card := by
  classical
  exact Finset.card_le_card (Finset.filter_subset _ _)

/-- Less can be reached by fewer steps. -/
theorem height_le_height {E' : α → α → Prop} (hstep : ∀ x y, E' x y → Relation.TransGen E x y)
    (F : Finset α) (x : α) : height E' F x ≤ height E F x := by
  classical
  exact Finset.card_le_card (Finset.monotone_filter_right _
    fun y _ => Relation.TransGen.closed hstep x y)

/-- A member cannot be reached from itself. -/
theorem height_lt_card (hacyclic : Acyclic E) (hx : x ∈ F) : height E F x < F.card := by
  classical
  refine Finset.card_lt_card ((Finset.ssubset_iff_of_subset (Finset.filter_subset _ _)).mpr
    ⟨x, hx, ?_⟩)
  intro hmem
  exact hacyclic x (Finset.mem_filter.mp hmem).2

/-- A relation that has more steps than another one without cycles only from `r` to `s` has no
cycles either, unless `r` can be reached from `s`. -/
theorem Acyclic.add_edge {E' : α → α → Prop} {r s : α} (hacyclic : Acyclic E)
    (hstep : ∀ x y, E' x y → E x y ∨ x = r ∧ y = s) (hnot : ¬ Relation.ReflTransGen E s r) :
    Acyclic E' := by
  have hsplit : ∀ {x y}, Relation.TransGen E' x y → Relation.TransGen E x y ∨
      Relation.ReflTransGen E x r ∧ Relation.ReflTransGen E s y := by
    intro x y hxy
    induction hxy with
    | single hxy =>
      rcases hstep _ _ hxy with hold | ⟨rfl, rfl⟩
      · exact Or.inl (.single hold)
      · exact Or.inr ⟨.refl, .refl⟩
    | tail _ hyz ih =>
      rcases hstep _ _ hyz with hold | ⟨rfl, rfl⟩
      · rcases ih with hxy | ⟨hxr, hsy⟩
        · exact Or.inl (hxy.tail hold)
        · exact Or.inr ⟨hxr, hsy.tail hold⟩
      · rcases ih with hxr | ⟨_, hsr⟩
        · exact Or.inr ⟨hxr.to_reflTransGen, .refl⟩
        · exact absurd hsr hnot
  intro x hcycle
  rcases hsplit hcycle with hold | ⟨hxr, hsx⟩
  · exact hacyclic x hold
  · exact hnot (hsx.trans hxr)

/-- A relation that has more steps than another one without cycles only from a point that no step
leads to has no cycles either. -/
theorem Acyclic.add_source {E' : α → α → Prop} {r : α} (hacyclic : Acyclic E)
    (hstep : ∀ x y, E' x y → E x y ∨ x = r) (hnone : ∀ x, ¬ E' x r) : Acyclic E' := by
  have hold : ∀ {x y}, Relation.TransGen E' x y → x ≠ r → Relation.TransGen E x y := by
    intro x y hxy hx
    induction hxy with
    | single hxy => exact .single ((hstep _ _ hxy).resolve_right hx)
    | @tail y z hxy hyz ih =>
      refine ih.tail ((hstep _ _ hyz).resolve_right ?_)
      rintro rfl
      obtain ⟨_, _, hlast⟩ := Relation.TransGen.tail'_iff.mp hxy
      exact hnone _ hlast
  intro x hcycle
  refine hacyclic x (hold hcycle ?_)
  rintro rfl
  obtain ⟨_, _, hlast⟩ := Relation.TransGen.tail'_iff.mp hcycle
  exact hnone _ hlast

end ParserGen
