import Mathlib.Data.List.Forall2
import Mathlib.Order.Defs.PartialOrder
import ParserGen.Proofs.Sorts.Models

/-!
# The least model

Every well-formed arena has a model: each variable has the sort that is read back for it, with `*`
for whatever is unknown.  It is the least model, since a representative of an unknown sort has `*`
in it, and an arrow is the least one if its operands are.

Main results:

- Theorem `SortArena.WellFormed.models_decode`: the sorts that are read back form a model.
- Theorem `SortArena.Models.decode_le`: no model has a smaller sort for a variable.
-/

namespace ParserGen

/-! ## The order of ground sorts -/

namespace GroundSort

/-- `*` is below every sort, and arrows with equally many operands are compared operand by operand.
-/
inductive Le : GroundSort → GroundSort → Prop
  | star (s : GroundSort) : Le .star s
  | arrow {d e : List GroundSort} : List.Forall₂ Le d e → Le (.arrow d) (.arrow e)

mutual

/-- The order is reflexive. -/
theorem Le.refl : ∀ s : GroundSort, Le s s
  | arrow d => .arrow (forall₂_refl d)

theorem forall₂_refl : ∀ d : List GroundSort, List.Forall₂ Le d d
  | [] => .nil
  | s :: d => .cons (Le.refl s) (forall₂_refl d)

end

mutual

theorem Le.trans : ∀ s t u : GroundSort, Le s t → Le t u → Le s u
  | _, _, u, .star _, _ => .star u
  | _, _, _, .arrow h, .star _ => by cases h; exact .star _
  | arrow d, arrow e, arrow f, .arrow h, .arrow h' => .arrow (forall₂_trans d e f h h')

theorem forall₂_trans : ∀ d e f : List GroundSort,
    List.Forall₂ Le d e → List.Forall₂ Le e f → List.Forall₂ Le d f
  | [], _, _, .nil, .nil => .nil
  | s :: d, t :: e, u :: f, .cons h hs, .cons h' hs' =>
      .cons (Le.trans s t u h h') (forall₂_trans d e f hs hs')

end

mutual

theorem Le.antisymm : ∀ s t : GroundSort, Le s t → Le t s → s = t
  | _, _, .star _, .star _ => rfl
  | _, _, .star _, .arrow h => by cases h; rfl
  | _, _, .arrow h, .star _ => by cases h; rfl
  | arrow d, arrow e, .arrow h, .arrow h' => congrArg GroundSort.arrow (forall₂_antisymm d e h h')

theorem forall₂_antisymm : ∀ d e : List GroundSort,
    List.Forall₂ Le d e → List.Forall₂ Le e d → d = e
  | [], [], _, _ => rfl
  | s :: d, t :: e, .cons h hs, .cons h' hs' => by
      rw [Le.antisymm s t h h', forall₂_antisymm d e hs hs']

end

/-- A sort is an arrow from its domain, which is empty for `*`. -/
theorem arrow_domain (s : GroundSort) : .arrow s.domain = s := by
  cases s
  rfl

instance : PartialOrder GroundSort where
  le := Le
  le_refl := Le.refl
  le_trans := Le.trans
  le_antisymm := Le.antisymm

end GroundSort

/-- Each operand is made ground. -/
theorem SortTerm.groundAll_eq_map (domain : List SortTerm) :
    groundAll domain = domain.map ground := by
  induction domain with
  | nil => rfl
  | cons s rest ih => rw [groundAll, ih, List.map_cons]

namespace SortArena

variable {a : SortArena} {v w r : Nat} {ρ : Nat → GroundSort}

/-! ## Reading -/

/-- A representative is no higher than what it represents. -/
theorem WellFormed.height_represents (h : a.WellFormed) (hr : a.Represents v r) :
    height a r ≤ height a v := by
  obtain ⟨hpath, _⟩ := hr
  induction hpath using Relation.ReflTransGen.head_induction_on with
  | refl => exact Nat.le_refl _
  | head hlink _ ih => exact ih.trans (h.height_lt (Linked.points hlink)).le

/-- A link keeps the root. -/
theorem WellFormed.root_eq_of_linked (h : a.WellFormed) (hlink : a.Linked v w) :
    a.root v = a.root w :=
  h.root_eq_iff.mpr (.head hlink (h.root_represents w))

/-- Variables with the same root are read alike. -/
theorem read_congr (hroot : a.root v = a.root w) (depth : Nat) :
    a.read depth v = a.read depth w := by
  cases depth <;> simp only [read, hroot]

/-- No level is left out if more levels are read than there can be. -/
theorem WellFormed.read_eq (h : a.WellFormed) {depth depth' : Nat} (hdepth : height a v < depth)
    (hdepth' : height a v < depth') : a.read depth v = a.read depth' v := by
  induction depth generalizing v depth' with
  | zero => exact absurd hdepth (Nat.not_lt_zero _)
  | succ depth ih =>
    cases depth' with
    | zero => exact absurd hdepth' (Nat.not_lt_zero _)
    | succ depth' =>
      simp only [read]
      split
      · rename_i operands hoperands
        have hcell : a.cells[a.root v]? = some (.arrow operands) := arrow_of_operands? hoperands
        -- The operands are lower than the representative, and that is no higher than `v`.
        have hroot := h.height_represents (h.root_represents v)
        refine congrArg SortTerm.arrow (List.map_congr_left fun w hw => ?_)
        have hlower := h.height_lt (v := a.root v) (w := w) (Or.inr ⟨operands, hcell, hw⟩)
        exact ih (by omega) (by omega)
      · rfl

/-- An arrow is decoded operand by operand. -/
theorem WellFormed.decode_arrow (h : a.WellFormed) {operands : List Nat}
    (hcell : a.cells[v]? = some (.arrow operands)) :
    a.decode v = .arrow (operands.map a.decode) := by
  have hlt := (Array.getElem?_eq_some_iff.mp hcell).1
  have hroot : a.root v = v := h.root_eq_iff.mpr (.of_arrow hcell)
  have hheight := h.height_lt_size hlt
  obtain ⟨depth, hdepth⟩ := Nat.exists_eq_succ_of_ne_zero (Nat.ne_zero_of_lt hlt)
  have hoperands : a.operands? v = some operands := operands?_of_arrow hcell
  unfold decode
  rw [hdepth, read, hroot]
  simp only [hoperands]
  refine congrArg SortTerm.arrow (List.map_congr_left fun w hw => ?_)
  have hlower := h.height_lt (v := v) (w := w) (Or.inr ⟨operands, hcell, hw⟩)
  exact h.read_eq (by omega) (by omega)

/-! ## The least model -/

/-- The sorts that are read back form a model. -/
theorem WellFormed.models_decode (h : a.WellFormed) : a.Models fun v => (a.decode v).ground := by
  intro v cell hcell
  cases cell with
  | link w => exact congrArg SortTerm.ground (read_congr (h.root_eq_of_linked hcell) _)
  | unknown => trivial
  | arrow operands =>
    simp only [SortCell.Allows, h.decode_arrow hcell, SortTerm.ground, SortTerm.groundAll_eq_map,
      List.map_map, Function.comp_def]

/-- No model has a smaller sort for a variable. -/
theorem Models.decode_le (hρ : a.Models ρ) (h : a.WellFormed) (v : Nat) :
    (a.decode v).ground ≤ ρ v := by
  have hread : ∀ depth v, (a.read depth v).ground ≤ ρ v := by
    intro depth
    induction depth with
    | zero => exact fun v => .star _
    | succ depth ih =>
      intro v
      simp only [read]
      split
      · rename_i operands hoperands
        rw [hρ.eq_of_represents (h.root_represents v), hρ.arrow (arrow_of_operands? hoperands),
          SortTerm.ground, SortTerm.groundAll_eq_map, List.map_map]
        refine .arrow (List.forall₂_map_left_iff.mpr (List.forall₂_map_right_iff.mpr ?_))
        exact List.forall₂_same.mpr fun w _ => ih w
      · exact .star _
  exact hread _ v

end SortArena
end ParserGen
