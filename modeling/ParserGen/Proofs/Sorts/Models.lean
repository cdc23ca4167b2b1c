import ParserGen.Proofs.Sorts.Representatives

/-!
# Models of an arena

A model gives each variable a ground sort as the cells demand it: a linked variable the sort of the
next one, and an arrow the arrow from the sorts of its operands.  Paths may be compressed without
any effect on the models.  To link one representative to another one is to demand that both have the
same sort; if both are arrows, the demand on the operands of the first has to be put in place of its
cell.

Main results:

- Theorem `SortArena.Compressed.models_iff`: compressed arenas have the same models.
- Theorem `SortArena.models_link_unknown`: what it means to link an unknown sort.
- Theorem `SortArena.models_link_arrow`: what it means to link an arrow.
- Theorem `SortArena.Models.sizeOf_lt`: the sort of a proper part is smaller.
-/

namespace ParserGen

/-- What a cell demands of the sort of its variable, when the other variables have the sorts `ρ`. -/
def SortCell.Allows (ρ : Nat → GroundSort) (sort : GroundSort) : SortCell → Prop
  | link next => sort = ρ next
  | unknown => True
  | arrow operands => sort = .arrow (operands.map ρ)

namespace SortArena

variable {a b : SortArena} {v w r s : Nat} {ρ : Nat → GroundSort}

/-- Each variable has a sort as its cell demands it. -/
def Models (a : SortArena) (ρ : Nat → GroundSort) : Prop :=
  ∀ (v : Nat) (cell : SortCell), a.cells[v]? = some cell → cell.Allows ρ (ρ v)

theorem Models.link (h : a.Models ρ) (hlink : a.Linked v w) : ρ v = ρ w := h v _ hlink

theorem Models.arrow (h : a.Models ρ) {operands : List Nat}
    (harrow : a.cells[v]? = some (.arrow operands)) : ρ v = .arrow (operands.map ρ) := h v _ harrow

theorem Models.eq_of_represents (h : a.Models ρ) (hr : a.Represents v r) : ρ v = ρ r := by
  obtain ⟨hpath, _⟩ := hr
  induction hpath using Relation.ReflTransGen.head_induction_on with
  | refl => rfl
  | head hlink _ ih => exact (h.link hlink).trans ih

theorem Models.eq_of_linked (h : a.Models ρ) (hpath : Relation.TransGen a.Linked v w) :
    ρ v = ρ w := by
  induction hpath with
  | single hlink => exact h.link hlink
  | tail _ hlink ih => exact ih.trans (h.link hlink)

/-- Compressed arenas have the same models. -/
theorem Compressed.models_iff (h : Compressed a b) (ha : a.WellFormed) :
    b.Models ρ ↔ a.Models ρ := by
  constructor
  · intro hb v cell hcell
    cases cell with
    | link w =>
      have hw := ha.root_represents w
      have hv : ρ v = ρ (a.root w) := hb.eq_of_represents (h.represents (.head hcell hw))
      exact hv.trans (hb.eq_of_represents (h.represents hw)).symm
    | unknown => trivial
    | arrow operands => exact hb.arrow (h.arrow.mpr hcell)
  · intro hmodels v cell hcell
    cases cell with
    | link w => exact hmodels.eq_of_linked (h.linked hcell)
    | unknown => trivial
    | arrow operands => exact hmodels.arrow (h.arrow.mp hcell)

/-! ## New links -/

/-- The demands of all cells but that of `r`. -/
def ModelsElsewhere (a : SortArena) (r : Nat) (ρ : Nat → GroundSort) : Prop :=
  ∀ (v : Nat) (cell : SortCell), v ≠ r → a.cells[v]? = some cell → cell.Allows ρ (ρ v)

theorem models_iff_elsewhere {cell : SortCell} (hr : a.cells[r]? = some cell) :
    a.Models ρ ↔ cell.Allows ρ (ρ r) ∧ a.ModelsElsewhere r ρ := by
  constructor
  · intro h
    exact ⟨h r cell hr, fun v cell' _ hcell => h v cell' hcell⟩
  · rintro ⟨hallows, h⟩ v cell' hcell
    by_cases hv : v = r
    · subst hv
      cases hr.symm.trans hcell
      exact hallows
    · exact h v cell' hv hcell

theorem models_link_iff (hr : r < a.cells.size) :
    (a.link r s).Models ρ ↔ ρ r = ρ s ∧ a.ModelsElsewhere r ρ := by
  have hlink : (a.link r s).cells[r]? = some (.link s) := by
    rw [getElem?_link, if_pos ⟨rfl, hr⟩]
  rw [models_iff_elsewhere hlink]
  refine and_congr Iff.rfl ?_
  refine forall_congr' fun v => forall_congr' fun cell => forall_congr' fun hv => ?_
  rw [getElem?_link, if_neg fun h => hv h.1]

/-- To link an unknown sort is to demand that it is another one. -/
theorem models_link_unknown (hr : a.cells[r]? = some .unknown) :
    (a.link r s).Models ρ ↔ a.Models ρ ∧ ρ r = ρ s := by
  rw [models_link_iff (Array.getElem?_eq_some_iff.mp hr).1, models_iff_elsewhere hr]
  simp only [SortCell.Allows, true_and, and_comm]

/-- To link an arrow and to demand that its operands are those of the other one is to demand that
the arrows are equal. -/
theorem models_link_arrow {d e : List Nat} (hr : a.cells[r]? = some (.arrow d))
    (hs : a.cells[s]? = some (.arrow e)) (hrs : r ≠ s) :
    (a.link r s).Models ρ ∧ d.map ρ = e.map ρ ↔ a.Models ρ ∧ ρ r = ρ s := by
  rw [models_link_iff (Array.getElem?_eq_some_iff.mp hr).1, models_iff_elsewhere hr,
    SortCell.Allows]
  constructor
  · rintro ⟨⟨heq, h⟩, hoperands⟩
    have hsort : ρ s = .arrow (e.map ρ) := h s _ hrs.symm hs
    exact ⟨⟨by rw [heq, hsort, hoperands], h⟩, heq⟩
  · rintro ⟨⟨hsort, h⟩, heq⟩
    have hsort' : ρ s = .arrow (e.map ρ) := h s _ hrs.symm hs
    refine ⟨⟨heq, h⟩, ?_⟩
    rw [hsort, hsort'] at heq
    exact GroundSort.arrow.inj heq

/-! ## Parts -/

/-- The operands of the representative `r` include one that `s` represents. -/
def Child (a : SortArena) (r s : Nat) : Prop :=
  ∃ operands v, a.cells[r]? = some (.arrow operands) ∧ v ∈ operands ∧ a.Represents v s

theorem Compressed.child_eq (h : Compressed a b) (ha : a.WellFormed) : b.Child = a.Child := by
  funext r s
  simp only [Child, h.arrow, h.represents_iff ha]

/-- What a representative can be reached from goes through representatives. -/
theorem reflTransGen_child (h : a.WellFormed) (hs : ∀ w, ¬ a.Linked s w)
    (hpath : Relation.ReflTransGen a.Points v s) (hr : a.Represents v r) :
    Relation.ReflTransGen a.Child r s := by
  induction hpath using Relation.ReflTransGen.head_induction_on generalizing r with
  | refl => exact hr.unique (.refl hs) ▸ .refl
  | @head v w hpoints _ ih =>
    rcases hpoints with hlink | ⟨operands, hcell, hw⟩
    · exact ih (hr.tail hlink)
    · have hsame : r = v := hr.unique (.of_arrow hcell)
      subst hsame
      have hroot := h.root_represents w
      exact .head ⟨operands, w, hcell, hw, hroot⟩ (ih hroot)

/-- The sort of a proper part is smaller. -/
theorem Models.sizeOf_lt (h : a.Models ρ) (hpart : Relation.TransGen a.Child r s) :
    sizeOf (ρ s) < sizeOf (ρ r) := by
  have hchild : ∀ {r s}, a.Child r s → sizeOf (ρ s) < sizeOf (ρ r) := by
    rintro r s ⟨operands, v, hcell, hv, hs⟩
    rw [← h.eq_of_represents hs, h.arrow hcell, GroundSort.arrow.sizeOf_spec]
    have := List.sizeOf_lt_of_mem (List.mem_map_of_mem (f := ρ) hv)
    omega
  induction hpart with
  | single hrs => exact hchild hrs
  | tail _ hst ih => exact (hchild hst).trans ih

theorem Models.ne_of_part (h : a.Models ρ) (hpart : Relation.TransGen a.Child r s) :
    ρ s ≠ ρ r := by
  intro heq
  have hlt := h.sizeOf_lt hpart
  rw [heq] at hlt
  exact Nat.lt_irrefl _ hlt

end SortArena
end ParserGen
